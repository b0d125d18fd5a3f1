import Mathlib.Data.Multiset.Filter
import NakamotoNode.Foundations.Runs

/-! # Writers that share a stream

Each writer sends the text of one message; one call takes a first part of what is left of it. Where no
call falls between two calls of another writer (`Alone`), the stream holds the texts one after
another, in some order, and at most one that is begun (`Whole`). -/

namespace NakamotoNode.Foundations
set_option autoImplicit false

/-- A writer, with the part of its text that is left. -/
structure StreamWriter (α β : Type) where
  msg : α
  rest : List β

structure SharedStream (α β : Type) where
  sent : List β
  writers : Multiset (StreamWriter α β)

variable {α β : Type}

/-- The writer has begun and is not done. -/
def StreamWriter.Partway (text : α → List β) (w : StreamWriter α β) : Prop :=
  w.rest ≠ [] ∧ w.rest ≠ text w.msg

namespace SharedStream

/-- A writer for each message. -/
def start (text : α → List β) (msgs : List α) : SharedStream α β where
  sent := []
  writers := (msgs : Multiset α).map fun m => { msg := m, rest := text m }

/-- A call of `write` that takes `n` elements. -/
inductive Step : SharedStream α β → StreamWriter α β × ℕ → SharedStream α β → Prop
  | write {S : SharedStream α β} {w : StreamWriter α β} {n : ℕ}
      {others : Multiset (StreamWriter α β)} (h : S.writers = w ::ₘ others) (hpos : 0 < n)
      (hle : n ≤ w.rest.length) :
      Step S (w, n)
        { sent := S.sent ++ w.rest.take n
          writers := { w with rest := w.rest.drop n } ::ₘ others }

/-- No other writer is partway. -/
def Alone (text : α → List β) (S : SharedStream α β) (call : StreamWriter α β × ℕ) : Prop :=
  ∀ others, S.writers = call.1 ::ₘ others → ∀ w ∈ others, ¬ w.Partway text

def Done (S : SharedStream α β) : Prop := ∀ w ∈ S.writers, w.rest = []

/-- The messages whose text is sent. -/
def finished (writers : Multiset (StreamWriter α β)) : Multiset α :=
  (writers.filter fun w => w.rest = []).map StreamWriter.msg

/-- The texts of the messages in `order`, then the begun part of the text of a writer that is
partway. -/
structure Whole (text : α → List β) (S : SharedStream α β) (order : List α) (begun : List β) :
    Prop where
  sent_eq : S.sent = order.flatMap text ++ begun
  order_eq : (order : Multiset α) = finished S.writers
  begun_cases : begun = [] ∨ ∃ w ∈ S.writers, w.Partway text
  partway_eq : ∀ w ∈ S.writers, w.Partway text → text w.msg = begun ++ w.rest

variable {text : α → List β} {S S' : SharedStream α β} {call : StreamWriter α β × ℕ}
  {order : List α} {begun : List β} {msgs : List α}

/-- A call that takes `part` and leaves `rest`. -/
theorem Step.of_append {w : StreamWriter α β} {part rest : List β}
    (others : Multiset (StreamWriter α β)) (h : S.writers = w ::ₘ others)
    (hrest : w.rest = part ++ rest) (hpart : part ≠ []) :
    Step S (w, part.length)
      { sent := S.sent ++ part, writers := { w with rest := rest } ::ₘ others } := by
  have hle : part.length ≤ w.rest.length := by
    rw [hrest, List.length_append]
    omega
  have hstep := Step.write h (List.length_pos_iff.mpr hpart) hle
  rw [hrest, List.take_left, List.drop_left] at hstep
  exact hstep

theorem alone_of_cons {w : StreamWriter α β} {n : ℕ} {others : Multiset (StreamWriter α β)}
    (h : S.writers = w ::ₘ others) (hno : ∀ w' ∈ others, ¬ w'.Partway text) :
    Alone text S (w, n) := by
  intro others' h'
  rw [h, Multiset.cons_inj_right] at h'
  exact h' ▸ hno

theorem finished_cons (w : StreamWriter α β) (others : Multiset (StreamWriter α β)) :
    finished (w ::ₘ others) = (if w.rest = [] then {w.msg} else 0) + finished others := by
  by_cases h : w.rest = [] <;> simp [finished, h]

/-- What a writer sends goes on after what is begun. -/
theorem Whole.text_eq {w : StreamWriter α β} {others : Multiset (StreamWriter α β)}
    (h : Whole text S order begun) (hw : S.writers = w ::ₘ others)
    (halone : ∀ w' ∈ others, ¬ w'.Partway text) (hrest : w.rest ≠ []) :
    text w.msg = begun ++ w.rest := by
  have hmem : w ∈ S.writers := hw ▸ Multiset.mem_cons_self w others
  by_cases hstarted : w.rest = text w.msg
  · have hbegun : begun = [] := by
      apply h.begun_cases.resolve_right
      rintro ⟨w', hw', hpartway⟩
      rw [hw, Multiset.mem_cons] at hw'
      rcases hw' with rfl | hw'
      · exact hpartway.2 hstarted
      · exact halone w' hw' hpartway
    rw [hbegun, List.nil_append, hstarted]
  · exact h.partway_eq w hmem ⟨hrest, hstarted⟩

theorem Step.whole (hstep : Step S call S') (halone : Alone text S call)
    (h : Whole text S order begun) : ∃ order' begun', Whole text S' order' begun' := by
  cases hstep with
  | @write w n others hw hpos hle =>
    have halone := halone others hw
    have hrest : w.rest ≠ [] := by
      intro he
      rw [he, List.length_nil] at hle
      omega
    have htext := h.text_eq hw halone hrest
    have hfinished := h.order_eq
    rw [hw, finished_cons, if_neg hrest, Multiset.zero_add] at hfinished
    by_cases hlast : w.rest.drop n = []
    · have htake : w.rest.take n = w.rest := List.take_of_length_le (List.drop_eq_nil_iff.mp hlast)
      refine ⟨order ++ [w.msg], [], ⟨?_, ?_, .inl rfl, fun w' hw' hpartway => ?_⟩⟩
      · rw [h.sent_eq, htake, List.flatMap_append, List.flatMap_singleton, htext, List.append_nil,
          List.append_assoc]
      · rw [finished_cons, if_pos hlast, ← hfinished, Multiset.singleton_add,
          Multiset.cons_coe, Multiset.coe_eq_coe]
        exact List.perm_append_singleton _ _
      · rcases Multiset.mem_cons.mp hw' with rfl | hw'
        · exact absurd hlast hpartway.1
        · exact absurd hpartway (halone w' hw')
    · have hpartway : StreamWriter.Partway text { w with rest := w.rest.drop n } := by
        refine ⟨hlast, fun he => ?_⟩
        have hlen := congrArg List.length (he.trans htext)
        rw [List.length_drop, List.length_append] at hlen
        omega
      refine ⟨order, begun ++ w.rest.take n, ⟨?_, ?_, ?_, fun w' hw' hpartway => ?_⟩⟩
      · rw [h.sent_eq, List.append_assoc]
      · rw [finished_cons, if_neg hlast, Multiset.zero_add, hfinished]
      · exact .inr ⟨_, Multiset.mem_cons_self _ _, hpartway⟩
      · rcases Multiset.mem_cons.mp hw' with rfl | hw'
        · rw [htext, List.append_assoc, List.take_append_drop]
        · exact absurd hpartway (halone w' hw')

theorem Step.msgs_eq (hstep : Step S call S') :
    S'.writers.map StreamWriter.msg = S.writers.map StreamWriter.msg := by
  cases hstep with
  | write hw => rw [hw, Multiset.map_cons, Multiset.map_cons]

/-! ## Runs -/

theorem whole_start (htext : ∀ m ∈ msgs, text m ≠ []) : Whole text (start text msgs) [] [] := by
  have hmem : ∀ w ∈ (start text msgs).writers, w.rest = text w.msg ∧ w.msg ∈ msgs := by
    intro w hw
    rw [start, Multiset.mem_map] at hw
    obtain ⟨m, hm, rfl⟩ := hw
    exact ⟨rfl, hm⟩
  refine ⟨rfl, ?_, .inl rfl, fun w hw hpartway => absurd (hmem w hw).1 hpartway.2⟩
  have hnone : (start text msgs).writers.filter (fun w => w.rest = []) = 0 :=
    Multiset.filter_eq_nil.mpr fun w hw he =>
      htext w.msg (hmem w hw).2 ((hmem w hw).1.symm.trans he)
  rw [finished, hnone]
  rfl

/-- When all calls were alone and all writers are done, the stream is the texts in some order. -/
theorem sent_of_done {calls : List (StreamWriter α β × ℕ)} (htext : ∀ m ∈ msgs, text m ≠ [])
    (hrun : Run (Guarded Step (Alone text)) (start text msgs) calls S) (hdone : S.Done) :
    ∃ order : List α, order.Perm msgs ∧ S.sent = order.flatMap text := by
  obtain ⟨hmsgs, order, begun, h⟩ := hrun.invariant
    (I := fun S => S.writers.map StreamWriter.msg = (msgs : Multiset α) ∧
      ∃ order begun, Whole text S order begun)
    (fun S call S' ⟨hmsgs, _, _, h⟩ ⟨hstep, halone⟩ =>
      ⟨hstep.msgs_eq.trans hmsgs, hstep.whole halone h⟩)
    ⟨by simp [start, Function.comp_def], [], [], whole_start htext⟩
  have hbegun : begun = [] := h.begun_cases.resolve_right fun ⟨w, hw, hpartway⟩ =>
    hpartway.1 (hdone w hw)
  have hall : S.writers.filter (fun w => w.rest = []) = S.writers :=
    Multiset.filter_eq_self.mpr hdone
  refine ⟨order, Multiset.coe_eq_coe.mp ?_, ?_⟩
  · rw [h.order_eq, finished, hall, hmsgs]
  · rw [h.sent_eq, hbegun, List.append_nil]

end SharedStream
end NakamotoNode.Foundations
