import Mathlib.Data.List.Flatten
import Mathlib.Algebra.Order.Group.Nat

/-! # Trees of hashes

A list is hashed level by level: neighbours are paired, and the last of an odd level with itself, until
one is left (`exists_isTable`); the way up from each entry, with its siblings, ends there (`climb_levels`).
Seen as a tree, the result is perfect, and its leaves are the list and then some of it again
(`exists_build`). Where the hashes of its parts do not collide, the hash of a tree tells the tree
(`hash_inj`), and so the list but for what is there again (`padded_eq_iff`, `eq_of_padded`). -/

namespace NakamotoNode.Foundations
set_option autoImplicit false

/-! ## Levels -/

section Levels
variable {γ δ : Type*} (pair : γ → γ → γ)

/-- Neighbours are paired, and the last of an odd number with itself. -/
def pairUp : List γ → List γ
  | [] => []
  | [a] => [pair a a]
  | a :: b :: rest => pair a b :: pairUp rest

theorem length_pairUp : ∀ l : List γ, (pairUp pair l).length = (l.length + 1) / 2
  | [] => by simp [pairUp]
  | [_] => by simp [pairUp]
  | _ :: _ :: rest => by
      rw [pairUp, List.length_cons, length_pairUp rest, List.length_cons, List.length_cons]
      omega

/-- The levels from `l` up. -/
def levels (l : List γ) : List (List γ) :=
  if 1 < l.length then l :: levels (pairUp pair l) else [l]
termination_by l.length
decreasing_by
  rw [length_pairUp]
  omega

/-- What is left at the end. -/
def top (l : List γ) : Option γ := (levels pair l).getLast?.bind List.head?

theorem levels_of_lt {l : List γ} (hlen : 1 < l.length) :
    levels pair l = l :: levels pair (pairUp pair l) := by
  rw [levels, if_pos hlen]

theorem levels_of_not_lt {l : List γ} (hlen : ¬ 1 < l.length) : levels pair l = [l] := by
  rw [levels, if_neg hlen]

theorem levels_ne_nil (l : List γ) : levels pair l ≠ [] := by
  unfold levels
  split <;> exact List.cons_ne_nil _ _

theorem top_of_lt {l : List γ} (hlen : 1 < l.length) : top pair l = top pair (pairUp pair l) := by
  rw [top, levels_of_lt pair hlen, List.getLast?_cons_of_ne_nil (levels_ne_nil pair _), top]

theorem top_of_not_lt {l : List γ} (hlen : ¬ 1 < l.length) : top pair l = l.head? := by
  rw [top, levels_of_not_lt pair hlen]
  rfl

/-! ## The table of the levels -/

theorem exists_of_lt_length_pairUp : ∀ {l : List γ} {j : ℕ}, j < (pairUp pair l).length →
    ∃ a b, l[2 * j]? = some a ∧ l[min (2 * j + 1) (l.length - 1)]? = some b ∧
      (pairUp pair l)[j]? = some (pair a b)
  | [], _, hj => absurd hj (by simp [pairUp])
  | [a], j, hj => by
      obtain rfl : j = 0 := by simpa [pairUp] using hj
      exact ⟨a, a, rfl, rfl, rfl⟩
  | a :: b :: rest, 0, _ => ⟨a, b, rfl, by simp, rfl⟩
  | a :: b :: rest, j + 1, hj => by
      have hj : j < (pairUp pair rest).length := by simpa [pairUp] using hj
      obtain ⟨c, d, hc, hd, hpair⟩ := exists_of_lt_length_pairUp hj
      have hpos : 0 < rest.length := by
        rw [length_pairUp] at hj
        omega
      have hright : min (2 * (j + 1) + 1) ((a :: b :: rest).length - 1) =
          min (2 * j + 1) (rest.length - 1) + 2 := by
        rw [List.length_cons, List.length_cons]
        omega
      exact ⟨c, d, hc, by rw [hright]; exact hd, hpair⟩

/-- `n / 2 ^ (k + 1)`, rounded up, in two steps. -/
theorem half_roundUp (n k : ℕ) :
    ((n + 1) / 2 + 2 ^ k - 1) / 2 ^ k = (n + 2 ^ (k + 1) - 1) / 2 ^ (k + 1) := by
  have hpos := Nat.two_pow_pos k
  have hhalf : (n + 1) / 2 + 2 ^ k - 1 = (n + 2 ^ k * 2 - 1) / 2 := by omega
  rw [hhalf, Nat.div_div_eq_div_mul, Nat.pow_succ, Nat.mul_comm 2]

/-- The table starts with `l`; level `k` has `n / 2 ^ k` entries, rounded up, made of the pairs of the level
before, the last of an odd number with itself; and only the last level has a single entry, `r`. -/
structure IsTable (l : List γ) (table : List (List γ)) (r : γ) : Prop where
  first : table[0]? = some l
  length : ∀ k level, table[k]? = some level → level.length = (l.length + 2 ^ k - 1) / 2 ^ k
  pairs : ∀ k level next, table[k]? = some level → table[k + 1]? = some next →
    ∀ j, j < next.length → ∃ a b, level[2 * j]? = some a ∧
      level[min (2 * j + 1) (level.length - 1)]? = some b ∧ next[j]? = some (pair a b)
  single : ∀ k level, table[k]? = some level → (level.length = 1 ↔ k + 1 = table.length)
  last : table.getLast? = some [r]

theorem IsTable.cons {l : List γ} {r : γ} (hlen : 1 < l.length)
    (h : IsTable pair (pairUp pair l) (levels pair (pairUp pair l)) r) :
    IsTable pair l (levels pair l) r := by
  rw [levels_of_lt pair hlen]
  have hne := levels_ne_nil pair (pairUp pair l)
  constructor
  case first => rfl
  case length =>
    rintro (_ | k) level hlevel
    · obtain rfl := Option.some.inj hlevel
      simp
    · rw [h.length k level hlevel, length_pairUp, half_roundUp]
  case pairs =>
    rintro (_ | k) level next hlevel hnext j hj
    · obtain rfl := Option.some.inj hlevel
      obtain rfl := Option.some.inj (hnext.symm.trans h.first)
      exact exists_of_lt_length_pairUp pair hj
    · exact h.pairs k level next hlevel hnext j hj
  case single =>
    rintro (_ | k) level hlevel
    · obtain rfl := Option.some.inj hlevel
      have hpos := List.length_pos_iff.mpr hne
      rw [List.length_cons]
      omega
    · rw [h.single k level hlevel, List.length_cons, Nat.add_right_cancel_iff]
  case last => rw [List.getLast?_cons_of_ne_nil hne, h.last]

/-- The levels of a list are such a table. -/
theorem exists_isTable {l : List γ} (hne : l ≠ []) :
    ∃ r, top pair l = some r ∧ IsTable pair l (levels pair l) r := by
  induction l using levels.induct pair with
  | case1 l hlen ih =>
    have hnext : pairUp pair l ≠ [] := by
      apply List.ne_nil_of_length_pos
      rw [length_pairUp]
      omega
    obtain ⟨r, htop, htable⟩ := ih hnext
    exact ⟨r, (top_of_lt pair hlen).trans htop, htable.cons pair hlen⟩
  | case2 l hlen =>
    have hpos := List.length_pos_iff.mpr hne
    obtain ⟨r, rfl⟩ := List.length_eq_one_iff.mp (show l.length = 1 by omega)
    rw [levels_of_not_lt pair hlen, top_of_not_lt pair hlen]
    refine ⟨r, rfl, rfl, ?_, ?_, ?_, rfl⟩
    · rintro (_ | k) level hlevel
      · obtain rfl := Option.some.inj hlevel
        simp
      · exact absurd hlevel (by simp)
    · exact fun k level next _ hnext => absurd hnext (by simp)
    · rintro (_ | k) level hlevel
      · obtain rfl := Option.some.inj hlevel
        exact iff_of_true rfl rfl
      · exact absurd hlevel (by simp)

/-! ## The way up -/

/-- The position next to `i`, or `i` itself where it is the last of an odd number. -/
def sibling (level : List γ) (i : ℕ) : ℕ :=
  if i % 2 = 0 then min (i + 1) (level.length - 1) else i - 1

/-- The hash at position `i` is hashed with its sibling on each level but the last. -/
def climb : List (List γ) → ℕ → γ → Option γ
  | [], _, _ => none
  | [_], _, h => some h
  | level :: next :: rest, i, h =>
      level[sibling level i]?.bind fun s =>
        climb (next :: rest) (i / 2) (if i % 2 = 0 then pair h s else pair s h)

/-- The way up ends at the top. -/
theorem climb_levels {l : List γ} {i : ℕ} {h : γ} (hi : l[i]? = some h) :
    climb pair (levels pair l) i h = top pair l := by
  induction l using levels.induct pair generalizing i h with
  | case1 l hlen ih =>
    have hlt : i < l.length := (List.getElem?_eq_some_iff.mp hi).1
    have hup : i / 2 < (pairUp pair l).length := by
      rw [length_pairUp]
      omega
    obtain ⟨a, b, ha, hb, hpair⟩ := exists_of_lt_length_pairUp pair hup
    obtain ⟨next, rest, hnext⟩ := List.exists_cons_of_ne_nil (levels_ne_nil pair (pairUp pair l))
    rw [levels_of_lt pair hlen, top_of_lt pair hlen, hnext, climb, sibling]
    -- the hash is the left one of its pair or the right one
    by_cases heven : i % 2 = 0
    · rw [show 2 * (i / 2) = i by omega] at ha hb
      obtain rfl := Option.some.inj (ha.symm.trans hi)
      rw [if_pos heven, hb, Option.bind_some, if_pos heven, ← hnext]
      exact ih hpair
    · rw [show 2 * (i / 2) = i - 1 by omega] at ha hb
      rw [show min (i - 1 + 1) (l.length - 1) = i by omega] at hb
      obtain rfl := Option.some.inj (hb.symm.trans hi)
      rw [if_neg heven, ha, Option.bind_some, if_neg heven, ← hnext]
      exact ih hpair
  | case2 l hlen =>
    have hlt : i < l.length := (List.getElem?_eq_some_iff.mp hi).1
    obtain ⟨a, rfl⟩ := List.length_eq_one_iff.mp (show l.length = 1 by omega)
    obtain rfl : i = 0 := by simpa using hlt
    obtain rfl := Option.some.inj hi
    rw [levels_of_not_lt pair hlen, top_of_not_lt pair hlen]
    rfl

section Map
variable {pair} {pair' : δ → δ → δ} {f : γ → δ} (hf : ∀ a b, f (pair a b) = pair' (f a) (f b))
include hf

theorem map_pairUp : ∀ l : List γ, (pairUp pair l).map f = pairUp pair' (l.map f)
  | [] => rfl
  | [a] => congrArg (fun x => [x]) (hf a a)
  | a :: b :: rest => by
      rw [pairUp, List.map_cons, hf, map_pairUp rest]
      rfl

theorem map_levels (l : List γ) : (levels pair l).map (List.map f) = levels pair' (l.map f) := by
  induction l using levels.induct pair with
  | case1 l hlen ih =>
    have hmap : 1 < (l.map f).length := by rwa [List.length_map]
    rw [levels_of_lt pair hlen, levels_of_lt pair' hmap, List.map_cons, ih, map_pairUp hf]
  | case2 l hlen =>
    have hmap : ¬ 1 < (l.map f).length := by rwa [List.length_map]
    rw [levels_of_not_lt pair hlen, levels_of_not_lt pair' hmap]
    rfl

theorem map_top (l : List γ) : (top pair l).map f = top pair' (l.map f) := by
  rw [top, top, ← map_levels hf, List.getLast?_map]
  cases (levels pair l).getLast? with
  | none => rfl
  | some level => exact (List.head?_map).symm

end Map

end Levels

/-! ## Trees -/

inductive HashTree (α : Type*) where
  | leaf (a : α)
  | node (left right : HashTree α)
  deriving DecidableEq, Repr

namespace HashTree
variable {α β : Type*}

def leaves : HashTree α → List α
  | leaf a => [a]
  | node left right => left.leaves ++ right.leaves

def hash (hashLeaf : α → β) (hashPair : β → β → β) : HashTree α → β
  | leaf a => hashLeaf a
  | node left right => hashPair (left.hash hashLeaf hashPair) (right.hash hashLeaf hashPair)

/-- All leaves are at depth `n`. -/
def Perfect : ℕ → HashTree α → Prop
  | 0, leaf _ => True
  | n + 1, node left right => Perfect n left ∧ Perfect n right
  | _, _ => False

theorem Perfect.length_leaves : ∀ {n : ℕ} {t : HashTree α}, Perfect n t → t.leaves.length = 2 ^ n
  | 0, leaf _, _ => rfl
  | n + 1, node left right, ⟨hleft, hright⟩ => by
      rw [leaves, List.length_append, hleft.length_leaves, hright.length_leaves, Nat.pow_succ]
      omega

theorem Perfect.eq_of_leaves : ∀ {n : ℕ} {t u : HashTree α}, Perfect n t → Perfect n u →
    t.leaves = u.leaves → t = u
  | 0, leaf _, leaf _, _, _, h => congrArg leaf (List.cons.inj h).1
  | n + 1, node left right, node left' right', ⟨hleft, hright⟩, ⟨hleft', hright'⟩, h => by
      have hlen : left.leaves.length = left'.leaves.length := by
        rw [hleft.length_leaves, hleft'.length_leaves]
      obtain ⟨hl, hr⟩ := List.append_inj h hlen
      rw [hleft.eq_of_leaves hleft' hl, hright.eq_of_leaves hright' hr]

/-- Perfect trees with the same leaves are the same. -/
theorem Perfect.leaves_inj {m n : ℕ} {t u : HashTree α} (ht : Perfect m t) (hu : Perfect n u)
    (h : t.leaves = u.leaves) : t = u := by
  have hpow : 2 ^ m = 2 ^ n := by rw [← ht.length_leaves, h, hu.length_leaves]
  obtain rfl := Nat.pow_right_injective (Nat.le_refl 2) hpow
  exact ht.eq_of_leaves hu h

/-- In a set of trees that has the children of its trees: where hashes of leaves and of pairs do not
collide, trees with the same hash are the same. -/
theorem hash_inj {hashLeaf : α → β} {hashPair : β → β → β} {K : HashTree α → Prop}
    (hchildren : ∀ t u, K (node t u) → K t ∧ K u)
    (hleaf : ∀ a b, K (leaf a) → K (leaf b) → hashLeaf a = hashLeaf b → a = b)
    (hpair : ∀ t u v w, K t → K u → K v → K w →
      hashPair (t.hash hashLeaf hashPair) (u.hash hashLeaf hashPair) =
        hashPair (v.hash hashLeaf hashPair) (w.hash hashLeaf hashPair) →
      t.hash hashLeaf hashPair = v.hash hashLeaf hashPair ∧
        u.hash hashLeaf hashPair = w.hash hashLeaf hashPair)
    (hne : ∀ t u a, K t → K u → K (leaf a) →
      hashPair (t.hash hashLeaf hashPair) (u.hash hashLeaf hashPair) ≠ hashLeaf a) :
    ∀ {t u : HashTree α}, K t → K u → t.hash hashLeaf hashPair = u.hash hashLeaf hashPair → t = u := by
  intro t
  induction t with
  | leaf a =>
    intro u ht hu h
    cases u with
    | leaf b => rw [hleaf a b ht hu h]
    | node left right =>
      obtain ⟨hl, hr⟩ := hchildren left right hu
      exact absurd h.symm (hne left right a hl hr ht)
  | node left right ihl ihr =>
    intro u ht hu h
    obtain ⟨hl, hr⟩ := hchildren left right ht
    cases u with
    | leaf b => exact absurd h (hne left right b hl hr hu)
    | node left' right' =>
      obtain ⟨hl', hr'⟩ := hchildren left' right' hu
      obtain ⟨hleft, hright⟩ := hpair left right left' right' hl hr hl' hr' h
      rw [ihl hl hl' hleft, ihr hr hr' hright]

/-! ## The tree of a list -/

theorem mem_of_node_mem_pairUp {t u : HashTree α} :
    ∀ {ts : List (HashTree α)}, node t u ∈ pairUp node ts → t ∈ ts ∧ u ∈ ts
  | [], h => absurd h List.not_mem_nil
  | [v], h => by
      obtain ⟨rfl, rfl⟩ := HashTree.node.inj (List.mem_singleton.mp h)
      exact ⟨List.mem_singleton_self _, List.mem_singleton_self _⟩
  | v :: w :: rest, h => by
      rcases List.mem_cons.mp h with h | h
      · obtain ⟨rfl, rfl⟩ := HashTree.node.inj h
        exact ⟨by simp, by simp⟩
      · obtain ⟨ht, hu⟩ := mem_of_node_mem_pairUp h
        exact ⟨by simp [ht], by simp [hu]⟩

/-- A tree that is not on the first level comes from two of the level before. -/
theorem children_mem_levels {t u : HashTree α} {ts : List (HashTree α)} (hts : node t u ∉ ts)
    (h : node t u ∈ (levels node ts).flatten) :
    t ∈ (levels node ts).flatten ∧ u ∈ (levels node ts).flatten := by
  induction ts using levels.induct node with
  | case1 ts hlen ih =>
    rw [levels_of_lt node hlen, List.flatten_cons, List.mem_append] at h
    rw [levels_of_lt node hlen, List.flatten_cons, List.mem_append, List.mem_append]
    have h := h.resolve_left hts
    by_cases hnext : node t u ∈ pairUp node ts
    · obtain ⟨ht, hu⟩ := mem_of_node_mem_pairUp hnext
      exact ⟨.inl ht, .inl hu⟩
    · obtain ⟨ht, hu⟩ := ih hnext h
      exact ⟨.inr ht, .inr hu⟩
  | case2 ts hlen =>
    rw [levels_of_not_lt node hlen, List.flatten_singleton] at h
    exact absurd h hts

theorem leaf_notMem_pairUp {a : α} : ∀ ts : List (HashTree α), leaf a ∉ pairUp node ts
  | [] => by simp [pairUp]
  | [_] => by simp [pairUp]
  | _ :: _ :: rest => by
      rw [pairUp, List.mem_cons, not_or]
      exact ⟨by simp, leaf_notMem_pairUp rest⟩

theorem leaf_mem_levels {a : α} {ts : List (HashTree α)} (h : leaf a ∈ (levels node ts).flatten) :
    leaf a ∈ ts := by
  induction ts using levels.induct node with
  | case1 ts hlen ih =>
    rw [levels_of_lt node hlen, List.flatten_cons, List.mem_append] at h
    exact h.resolve_right fun hnext => leaf_notMem_pairUp ts (ih hnext)
  | case2 ts hlen =>
    rw [levels_of_not_lt node hlen, List.flatten_singleton] at h
    exact h

theorem leaves_pairUp : ∀ ts : List (HashTree α),
    ts.flatMap leaves <+: (pairUp node ts).flatMap leaves ∧
      ∀ a ∈ (pairUp node ts).flatMap leaves, a ∈ ts.flatMap leaves
  | [] => ⟨List.prefix_rfl, fun _ h => h⟩
  | [t] => by
      have hpair : (pairUp node [t]).flatMap leaves = t.leaves ++ t.leaves := by
        simp [pairUp, leaves]
      rw [hpair, List.flatMap_singleton]
      exact ⟨List.prefix_append _ _, fun a ha => (List.mem_append.mp ha).elim id id⟩
  | t :: u :: rest => by
      obtain ⟨hpre, hmem⟩ := leaves_pairUp rest
      have hpair : (pairUp node (t :: u :: rest)).flatMap leaves =
          (t.leaves ++ u.leaves) ++ (pairUp node rest).flatMap leaves := rfl
      have hlist : (t :: u :: rest).flatMap leaves =
          (t.leaves ++ u.leaves) ++ rest.flatMap leaves := by simp
      rw [hpair, hlist]
      exact ⟨(List.prefix_append_right_inj _).mpr hpre, fun a ha => List.mem_append.mpr
        ((List.mem_append.mp ha).imp id (hmem a))⟩

theorem perfect_pairUp {n : ℕ} : ∀ {ts : List (HashTree α)}, (∀ t ∈ ts, Perfect n t) →
    ∀ t ∈ pairUp node ts, Perfect (n + 1) t
  | [], _, _, h => absurd h List.not_mem_nil
  | [v], hts, t, h => by
      obtain rfl := List.mem_singleton.mp h
      exact ⟨hts v (by simp), hts v (by simp)⟩
  | v :: w :: rest, hts, t, h => by
      rcases List.mem_cons.mp h with rfl | h
      · exact ⟨hts v (by simp), hts w (by simp)⟩
      · exact perfect_pairUp (fun t ht => hts t (by simp [ht])) t h

theorem exists_top {ts : List (HashTree α)} (hne : ts ≠ []) {n : ℕ} (hts : ∀ t ∈ ts, Perfect n t) :
    ∃ t m, top node ts = some t ∧ t ∈ (levels node ts).flatten ∧ Perfect m t ∧
      ts.flatMap leaves <+: t.leaves ∧ ∀ a ∈ t.leaves, a ∈ ts.flatMap leaves := by
  induction ts using levels.induct node generalizing n with
  | case1 ts hlen ih =>
    have hnext : pairUp node ts ≠ [] := by
      apply List.ne_nil_of_length_pos
      rw [length_pairUp]
      omega
    obtain ⟨t, m, htop, hmem, hperfect, hpre, hleaves⟩ := ih hnext (perfect_pairUp hts)
    obtain ⟨hpair, hpairMem⟩ := leaves_pairUp ts
    refine ⟨t, m, (top_of_lt node hlen).trans htop, ?_, hperfect, hpair.trans hpre,
      fun a ha => hpairMem a (hleaves a ha)⟩
    rw [levels_of_lt node hlen, List.flatten_cons]
    exact List.mem_append_right _ hmem
  | case2 ts hlen =>
    have hpos := List.length_pos_iff.mpr hne
    obtain ⟨t, rfl⟩ := List.length_eq_one_iff.mp (show ts.length = 1 by omega)
    rw [levels_of_not_lt node hlen, top_of_not_lt node hlen, List.flatMap_singleton]
    exact ⟨t, n, rfl, by simp, hts t (by simp), List.prefix_rfl, fun _ ha => ha⟩

/-- The tree over the list; none over the empty one. -/
def build (l : List α) : Option (HashTree α) := top node (l.map leaf)

/-- The trees on its levels. -/
def parts (l : List α) : List (HashTree α) := (levels node (l.map leaf)).flatten

/-- The leaves of the tree. -/
def padded (l : List α) : List α := (build l).elim [] leaves

theorem mem_of_leaf_mem_parts {l : List α} {a : α} (h : leaf a ∈ parts l) : a ∈ l := by
  obtain ⟨b, hb, heq⟩ := List.mem_map.mp (leaf_mem_levels h)
  exact HashTree.leaf.inj heq ▸ hb

theorem children_mem_parts {l : List α} {t u : HashTree α} (h : node t u ∈ parts l) :
    t ∈ parts l ∧ u ∈ parts l := by
  apply children_mem_levels (fun hmem => ?_) h
  obtain ⟨a, -, heq⟩ := List.mem_map.mp hmem
  exact absurd heq (by simp)

theorem build_nil : build ([] : List α) = none := by
  rw [build, List.map_nil, top_of_not_lt node (by simp)]
  rfl

theorem exists_build {l : List α} (hne : l ≠ []) :
    ∃ t m, build l = some t ∧ t ∈ parts l ∧ Perfect m t ∧ l <+: t.leaves ∧ ∀ a ∈ t.leaves, a ∈ l := by
  have hleaves : (l.map leaf).flatMap leaves = l := by
    rw [List.flatMap_map]
    exact List.flatMap_singleton' l
  have hperfect : ∀ t ∈ l.map leaf, Perfect 0 t := by
    intro t ht
    obtain ⟨a, -, rfl⟩ := List.mem_map.mp ht
    trivial
  have hmap : l.map leaf ≠ [] := fun h => hne (List.map_eq_nil_iff.mp h)
  have htop := exists_top hmap hperfect
  rwa [hleaves] at htop

theorem padded_nil : padded ([] : List α) = [] := by
  rw [padded, build_nil]
  rfl

theorem prefix_padded (l : List α) : l <+: padded l := by
  by_cases hne : l = []
  · exact hne ▸ List.nil_prefix
  · obtain ⟨t, m, ht, -, -, hpre, -⟩ := exists_build hne
    rw [padded, ht]
    exact hpre

theorem mem_of_mem_padded {l : List α} {a : α} (h : a ∈ padded l) : a ∈ l := by
  by_cases hne : l = []
  · rw [hne, padded_nil] at h
    exact absurd h List.not_mem_nil
  · obtain ⟨t, m, ht, -, -, -, hmem⟩ := exists_build hne
    rw [padded, ht] at h
    exact hmem a h

/-- The leaves tell the tree. -/
theorem padded_eq_iff {l l' : List α} : padded l = padded l' ↔ build l = build l' := by
  refine ⟨fun h => ?_, fun h => by rw [padded, padded, h]⟩
  have hnil : ∀ {k k' : List α}, k = [] → padded k = padded k' → k = k' := by
    rintro k k' rfl h
    rw [padded_nil] at h
    exact (List.prefix_nil.mp (h ▸ prefix_padded k')).symm
  by_cases hne : l = []
  · rw [hnil hne h]
  by_cases hne' : l' = []
  · rw [hnil hne' h.symm]
  obtain ⟨t, m, ht, -, hperfect, -⟩ := exists_build hne
  obtain ⟨t', m', ht', -, hperfect', -⟩ := exists_build hne'
  rw [padded, padded, ht, ht'] at h
  rw [ht, ht', hperfect.leaves_inj hperfect' h]

/-- A longer list with the same leaves repeats itself. -/
theorem eq_of_padded {l l' : List α} (h : padded l = padded l')
    (hlist : l.length = l'.length ∨ l.Nodup ∧ l'.Nodup) : l = l' := by
  have hlonger : ∀ {k k' : List α}, padded k = padded k' → k'.Nodup → k.length ≤ k'.length → k = k' := by
    intro k k' h hnodup hle
    obtain ⟨rest, rfl⟩ := List.prefix_of_prefix_length_le (prefix_padded k) (h ▸ prefix_padded k') hle
    cases rest with
    | nil => exact (List.append_nil k).symm
    | cons a rest =>
      have ha : a ∈ padded (k ++ a :: rest) := (prefix_padded _).subset (by simp)
      rw [← h] at ha
      exact absurd rfl ((List.nodup_append.mp hnodup).2.2 a (mem_of_mem_padded ha) a (by simp))
  rcases hlist with hlen | ⟨hnodup, hnodup'⟩
  · exact (List.prefix_of_prefix_length_le (prefix_padded l) (h ▸ prefix_padded l')
      (Nat.le_of_eq hlen)).eq_of_length hlen
  · rcases Nat.le_total l.length l'.length with hle | hle
    · exact hlonger h hnodup' hle
    · exact (hlonger h.symm hnodup hle).symm

end HashTree
end NakamotoNode.Foundations
