import Mathlib.Data.List.Basic

/-! # Texts that can be told from what follows them

A value written by `f` is `Unambiguous` if no text that starts with it can start with another value. Such
writers compose to writers of structures, of quoted strings and of vectors. -/

namespace NakamotoNode.Foundations
set_option autoImplicit false

variable {α : Type}

def Unambiguous (f : α → String) : Prop :=
  ∀ a b r r', f a ++ r = f b ++ r' → a = b ∧ r = r'

/-- No text is both a value and more, and `s` and more. -/
def Avoids (f : α → String) (s : String) : Prop := ∀ a r r', f a ++ r ≠ s ++ r'

namespace Unambiguous
variable {f : α → String}

theorem prepend (hf : Unambiguous f) (s : String) : Unambiguous fun a => s ++ f a := by
  intro a b r r' h
  simp only [String.append_assoc, String.append_right_inj] at h
  exact hf a b r r' h

theorem append (hf : Unambiguous f) (s : String) : Unambiguous fun a => f a ++ s := by
  intro a b r r' h
  simp only [String.append_assoc] at h
  obtain ⟨rfl, hrest⟩ := hf _ _ _ _ h
  exact ⟨rfl, (String.append_right_inj s).mp hrest⟩

end Unambiguous

theorem append_ne_append {s t : String} {c d : Char} (hs : s.toList.head? = some c)
    (ht : t.toList.head? = some d) (hcd : c ≠ d) (r r' : String) : s ++ r ≠ t ++ r' := by
  intro h
  have hhead := congrArg (fun t => t.toList.head?) h
  simp only [String.toList_append, List.head?_append, hs, ht, Option.some_or,
    Option.some.injEq] at hhead
  exact hcd hhead

/-! ## Structures -/

/-- A field of a structure: what stands before it, its text, and what follows. -/
def field (label text rest : String) : String := label ++ (text ++ rest)

theorem field_append {label text rest r : String} :
    field label text rest ++ r = field label text (rest ++ r) := by
  rw [field, field, String.append_assoc, String.append_assoc]

theorem field_inj {β : Type} {f : β → String} (hf : Unambiguous f) {label rest rest' : String}
    {a b : β} (h : field label (f a) rest = field label (f b) rest') : a = b ∧ rest = rest' :=
  hf a b rest rest' ((String.append_right_inj label).mp h)

theorem Unambiguous.field {β : Type} {f : α → String} {g : β → String} {label : String}
    (hf : Unambiguous f) (hg : Unambiguous g) :
    Unambiguous fun p : α × β => Foundations.field label (f p.1) (g p.2) := by
  rintro ⟨a, b⟩ ⟨a', b'⟩ r r' h
  rw [field_append, field_append] at h
  obtain ⟨rfl, hrest⟩ := field_inj hf h
  obtain ⟨rfl, hr⟩ := hg _ _ _ _ hrest
  exact ⟨rfl, hr⟩

theorem Unambiguous.close {f : α → String} {label stop : String} (hf : Unambiguous f) :
    Unambiguous fun a => Foundations.field label (f a) stop :=
  (hf.append stop).prepend label

theorem field_ne {s t : String} {n : ℕ} (h : s.toList[n]? ≠ t.toList[n]?)
    (hs : n < s.toList.length) (ht : n < t.toList.length) (text text' rest rest' : String) :
    field s text rest ≠ field t text' rest' := by
  intro he
  have hn := congrArg (fun u => u.toList[n]?) he
  simp only [field, String.toList_append, List.getElem?_append_left hs,
    List.getElem?_append_left ht] at hn
  exact h hn

/-! ## Terminated texts -/

theorem append_cons_inj_of_notMem {c : α} :
    ∀ {l l' r r' : List α}, c ∉ l → c ∉ l' → l ++ c :: r = l' ++ c :: r' → l = l' ∧ r = r'
  | [], [], _, _, _, _, h => ⟨rfl, (List.cons.inj h).2⟩
  | [], _ :: _, _, _, _, hl', h => absurd (List.cons.inj h).1 (List.ne_of_not_mem_cons hl')
  | _ :: _, [], _, _, hl, _, h => absurd (List.cons.inj h).1.symm (List.ne_of_not_mem_cons hl)
  | a :: l, b :: l', _, _, hl, hl', h => by
      obtain ⟨rfl, hrest⟩ := List.cons.inj h
      obtain ⟨rfl, hr⟩ := append_cons_inj_of_notMem (List.not_mem_of_not_mem_cons hl)
        (List.not_mem_of_not_mem_cons hl') hrest
      exact ⟨rfl, hr⟩

/-- Different texts without a character end at that character. -/
theorem Unambiguous.terminated {f : α → String} {c : Char} (hinj : Function.Injective f)
    (hc : ∀ a, c ∉ (f a).toList) : Unambiguous fun a => f a ++ String.singleton c := by
  intro a b r r' h
  have hlist := congrArg String.toList h
  simp only [String.toList_append, String.toList_singleton, List.append_assoc,
    List.singleton_append] at hlist
  obtain ⟨hab, hr⟩ := append_cons_inj_of_notMem (hc a) (hc b) hlist
  exact ⟨hinj (String.toList_inj.mp hab), String.toList_inj.mp hr⟩

/-! ## Sequences -/

/-- The values of a list one after another, then `stop`. -/
def writeAll (f : α → String) (stop : String) : List α → String
  | [] => stop
  | a :: l => f a ++ writeAll f stop l

theorem unambiguous_writeAll {f : α → String} {stop : String} (hf : Unambiguous f)
    (hstop : Avoids f stop) : Unambiguous (writeAll f stop) := by
  intro l l'
  induction l generalizing l' with
  | nil =>
    intro r r' h
    cases l' with
    | nil => exact ⟨rfl, (String.append_right_inj stop).mp h⟩
    | cons b l' =>
      rw [writeAll, writeAll, String.append_assoc] at h
      exact absurd h.symm (hstop b _ _)
  | cons a l ih =>
    intro r r' h
    cases l' with
    | nil =>
      rw [writeAll, writeAll, String.append_assoc] at h
      exact absurd h (hstop a _ _)
    | cons b l' =>
      simp only [writeAll, String.append_assoc] at h
      obtain ⟨rfl, hrest⟩ := hf _ _ _ _ h
      obtain ⟨rfl, hr⟩ := ih _ _ _ hrest
      exact ⟨rfl, hr⟩

/-- A vector in brackets, with `sep` between its values. -/
def writeVec (sep : String) (f : α → String) : List α → String
  | [] => "[]"
  | a :: l => "[" ++ (f a ++ writeAll (fun b => sep ++ f b) "]" l)

theorem Avoids.prepend {s stop : String} {c d : Char} {f : α → String} (hs : s.toList.head? = some c)
    (hstop : stop.toList.head? = some d) (hcd : c ≠ d) : Avoids (fun a => s ++ f a) stop := by
  intro a r r' h
  rw [String.append_assoc] at h
  exact append_ne_append hs hstop hcd _ _ h

theorem avoids_field {s stop : String} {c d : Char} (hs : s.toList.head? = some c)
    (hstop : stop.toList.head? = some d) (hcd : c ≠ d) (text rest : α → String) :
    Avoids (fun a => field s (text a) (rest a)) stop :=
  Avoids.prepend hs hstop hcd

theorem avoids_writeVec {sep : String} {f : α → String} : Avoids (writeVec sep f) "]" := by
  intro l r r'
  cases l with
  | nil => exact append_ne_append (s := "[]") (c := '[') (d := ']') rfl rfl (by decide) _ _
  | cons a l =>
    rw [writeVec, String.append_assoc]
    exact append_ne_append (c := '[') (d := ']') rfl rfl (by decide) _ _

theorem unambiguous_writeVec {sep : String} {c : Char} {f : α → String} (hf : Unambiguous f)
    (hclose : Avoids f "]") (hsep : sep.toList.head? = some c) (hc : c ≠ ']') :
    Unambiguous (writeVec sep f) := by
  have htail : Unambiguous (writeAll (fun b => sep ++ f b) "]") :=
    unambiguous_writeAll (hf.prepend sep) (Avoids.prepend hsep rfl hc)
  intro l l' r r' h
  have hne : ∀ (a : α) (l : List α) (r r' : String),
      writeVec sep f (a :: l) ++ r ≠ "[]" ++ r' := by
    intro a l r r' h
    have hopen : "[]" ++ r' = "[" ++ ("]" ++ r') := by
      rw [← String.append_assoc]
      rfl
    rw [hopen, writeVec, String.append_assoc, String.append_right_inj,
      String.append_assoc] at h
    exact hclose a _ _ h
  cases l with
  | nil =>
    cases l' with
    | nil => exact ⟨rfl, (String.append_right_inj _).mp h⟩
    | cons b l' => exact absurd h.symm (hne b l' r' r)
  | cons a l =>
    cases l' with
    | nil => exact absurd h (hne a l r r')
    | cons b l' =>
      simp only [writeVec, String.append_assoc, String.append_right_inj] at h
      obtain ⟨rfl, hrest⟩ := hf _ _ _ _ h
      obtain ⟨rfl, hr⟩ := htail _ _ _ _ hrest
      exact ⟨rfl, hr⟩

end NakamotoNode.Foundations
