import Mathlib.Algebra.BigOperators.Group.List.Basic
import Mathlib.Data.Multiset.AddSub
import NakamotoNode.Foundations.Runs

/-! # Channels between the parts of a system

`put` and `take` say what a label puts into a channel and takes from it. A channel is `Fifo` when every
step takes at its head and puts at its end: then what was put is what was taken and what is still there,
in that order (`Fifo.run`). A `Bag` keeps no order. Where only amounts count, what is paid out of a stock
is what was due, less what is left (`Run.balance`). -/

namespace NakamotoNode.Foundations
set_option autoImplicit false

variable {σ ι β : Type} {step : σ → ι → σ → Prop} {put take : ι → Option β} {s t : σ} {ls : List ι}

/-- Taken at the head, put at the end. -/
def Fifo (step : σ → ι → σ → Prop) (put take : ι → Option β) (queue : σ → List β) : Prop :=
  ∀ s a t, step s a t → queue s ++ (put a).toList = (take a).toList ++ queue t

/-- Taken and put anywhere. -/
def Bag (step : σ → ι → σ → Prop) (put take : ι → Option β) (bag : σ → Multiset β) : Prop :=
  ∀ s a t, step s a t → bag s + ((put a).toList : Multiset β) = ((take a).toList : Multiset β) + bag t

theorem filterMap_snoc (f : ι → Option β) (ls : List ι) (a : ι) :
    (ls ++ [a]).filterMap f = ls.filterMap f ++ (f a).toList := by
  rw [List.filterMap_append]
  cases h : f a <;> simp [h]

section Fifo
variable {queue : σ → List β}

theorem Fifo.run (h : Fifo step put take queue) (hrun : Run step s ls t) :
    queue s ++ ls.filterMap put = ls.filterMap take ++ queue t := by
  induction hrun with
  | nil => simp
  | @snoc t u ls a _ ha ih =>
    rw [filterMap_snoc, filterMap_snoc, ← List.append_assoc, ih, List.append_assoc, List.append_assoc,
      h t a u ha]

/-- From an empty channel: what was put is what was taken and what is there. -/
theorem Fifo.put_eq (h : Fifo step put take queue) (hrun : Run step s ls t) (hs : queue s = []) :
    ls.filterMap put = ls.filterMap take ++ queue t := by
  have hall := h.run hrun
  rwa [hs, List.nil_append] at hall

theorem Fifo.mem_put_of_take (h : Fifo step put take queue) (hrun : Run step s ls t)
    (hs : queue s = []) {a : ι} {b : β} (ha : a ∈ ls) (hb : take a = some b) :
    ∃ a' ∈ ls, put a' = some b := by
  have hmem : b ∈ ls.filterMap put := by
    rw [h.put_eq hrun hs]
    exact List.mem_append_left _ (List.mem_filterMap.mpr ⟨a, ha, hb⟩)
  exact List.mem_filterMap.mp hmem

theorem Fifo.mem_put_of_queue (h : Fifo step put take queue) (hrun : Run step s ls t)
    (hs : queue s = []) {b : β} (hb : b ∈ queue t) : ∃ a ∈ ls, put a = some b := by
  have hmem : b ∈ ls.filterMap put := by
    rw [h.put_eq hrun hs]
    exact List.mem_append_right _ hb
  exact List.mem_filterMap.mp hmem

/-- Two channels in a row are one. -/
theorem Fifo.comp {take' : ι → Option β} {queue' : σ → List β} (h : Fifo step put take queue)
    (h' : Fifo step take take' queue') : Fifo step put take' fun s => queue' s ++ queue s := by
  intro s a t hstep
  rw [List.append_assoc, h s a t hstep, ← List.append_assoc, h' s a t hstep, List.append_assoc]

end Fifo

section Bag
variable {bag : σ → Multiset β}

theorem Bag.run (h : Bag step put take bag) (hrun : Run step s ls t) :
    bag s + (ls.filterMap put : Multiset β) = (ls.filterMap take : Multiset β) + bag t := by
  induction hrun with
  | nil => simp
  | @snoc t u ls a _ ha ih =>
    rw [filterMap_snoc, filterMap_snoc, ← Multiset.coe_add, ← Multiset.coe_add, ← Multiset.add_assoc, ih,
      Multiset.add_assoc, Multiset.add_assoc, h t a u ha]

theorem Bag.put_eq (h : Bag step put take bag) (hrun : Run step s ls t) (hs : bag s = 0) :
    (ls.filterMap put : Multiset β) = (ls.filterMap take : Multiset β) + bag t := by
  have hall := h.run hrun
  rwa [hs, Multiset.zero_add] at hall

theorem Bag.mem_put_of_take (h : Bag step put take bag) (hrun : Run step s ls t) (hs : bag s = 0)
    {a : ι} {b : β} (ha : a ∈ ls) (hb : take a = some b) : ∃ a' ∈ ls, put a' = some b := by
  have hmem : b ∈ (ls.filterMap put : Multiset β) := by
    rw [h.put_eq hrun hs]
    exact Multiset.mem_add.mpr (.inl (List.mem_filterMap.mpr ⟨a, ha, hb⟩))
  exact List.mem_filterMap.mp hmem

end Bag

/-- Where every step pays out of a stock what it pays, a run does. -/
theorem Run.balance {M : Type} [AddCommMonoid M] {paid due : ι → M} {stock : σ → M}
    (h : ∀ s a t, step s a t → paid a + stock t = due a + stock s) (hrun : Run step s ls t) :
    (ls.map paid).sum + stock t = (ls.map due).sum + stock s := by
  induction hrun with
  | nil => rfl
  | @snoc t u ls a _ ha ih =>
    rw [List.map_append, List.sum_append, List.map_append, List.sum_append, List.map_singleton,
      List.sum_singleton, List.map_singleton, List.sum_singleton, add_assoc, h t a u ha, add_left_comm, ih,
      ← add_assoc, add_comm (due a)]

end NakamotoNode.Foundations
