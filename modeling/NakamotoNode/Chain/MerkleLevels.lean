import NakamotoNode.Chain.Chains
import NakamotoNode.Foundations.HashTree

/-! # The levels of a Merkle tree

The loop of `create_merkle_tree` makes each level of the one before until one hash is left, the root. The
levels are a table in which the way up from each transaction ends at the root (`merkle_table`). -/

namespace NakamotoNode.Chain
open Foundations Foundations.RustStd
set_option autoImplicit false

variable {C : Crates} {txs : List Transaction} {root : String} {tree : MerkleTree}

/-- The hash above two hashes. -/
def pairHash (C : Crates) (a b : String) : String := C.sha256Hex (a ++ b)

theorem merkleLevel_eq (C : Crates) : ∀ level : List String,
    merkleLevel C level = pairUp (pairHash C) level
  | [] => rfl
  | [_] => rfl
  | a :: b :: rest => by
      have hparity : (a :: b :: rest).length % 2 = rest.length % 2 := by
        rw [List.length_cons, List.length_cons]
        omega
      rw [pairUp, ← merkleLevel_eq C rest, merkleLevel, merkleLevel, hparity, chunksExact2, List.map_cons,
        List.cons_append]
      cases rest with
      | nil => rfl
      | cons c rest =>
        rw [List.getLast?_cons_cons, List.getLast?_cons_cons]
        rfl

theorem merkleLevels_eq (C : Crates) (level : List String) :
    merkleLevels C level = levels (pairHash C) level := by
  induction level using levels.induct (pairHash C) with
  | case1 level hlen ih =>
    rw [merkleLevels, if_pos hlen, levels_of_lt _ hlen, merkleLevel_eq, ih]
  | case2 level hlen => rw [merkleLevels, if_neg hlen, levels_of_not_lt _ hlen]

theorem createMerkleTree_levels (hne : txs ≠ []) (h : createMerkleTree C txs = .ok (root, tree)) :
    top (pairHash C) (txs.map fun tx => tx.genHash C) = some root ∧
      tree.hashes = levels (pairHash C) (txs.map fun tx => tx.genHash C) := by
  rw [createMerkleTree, if_neg (by simpa using hne), merkleLevels_eq] at h
  obtain ⟨r, hr, h⟩ := Exec.bind_eq_ok.mp h
  obtain ⟨rfl, rfl⟩ := Prod.mk.inj (Except.ok.inj h)
  exact ⟨Exec.unwrap_eq_ok.mp hr, rfl⟩

theorem exists_createMerkleTree (hne : txs ≠ []) : ∃ root tree,
    createMerkleTree C txs = .ok (root, tree) ∧
      IsTable (pairHash C) (txs.map fun tx => tx.genHash C) tree.hashes root := by
  obtain ⟨root, htop, htable⟩ := exists_isTable (pairHash C)
    (l := txs.map fun tx => tx.genHash C) (by simpa using hne)
  refine ⟨root, ⟨levels (pairHash C) (txs.map fun tx => tx.genHash C)⟩, ?_, htable⟩
  rw [createMerkleTree, if_neg (by simpa using hne), merkleLevels_eq]
  exact Exec.bind_eq_ok.mpr ⟨root, Exec.unwrap_eq_ok.mpr htop, rfl⟩

/-- For every list of transactions but the empty one the Merkle tree is made. Level 0 has their hashes in
order, level `k` has `n / 2 ^ k` entries, rounded up, each the hash of two of the level before, and only
the last level has a single one, the root. From each transaction, hashed with its siblings, the way up ends
at the root. -/
theorem merkle_table (hne : txs ≠ []) : ∃ root tree, createMerkleTree C txs = .ok (root, tree) ∧
    IsTable (pairHash C) (txs.map fun tx => tx.genHash C) tree.hashes root ∧
    ∀ i tx, txs[i]? = some tx → climb (pairHash C) tree.hashes i (tx.genHash C) = some root := by
  obtain ⟨root, tree, hok, htable⟩ := exists_createMerkleTree (C := C) hne
  refine ⟨root, tree, hok, htable, fun i tx htx => ?_⟩
  obtain ⟨htop, hlevels⟩ := createMerkleTree_levels hne hok
  rw [hlevels, ← htop]
  exact climb_levels _ (by rw [List.getElem?_map, htx, Option.map_some])

/-! ## Three transactions -/

/-- The hashes above those of the loan and of what Bob spends of it, above that of the thanks with itself,
and above both. -/
def upperHashes : String × String × String :=
  ("f75f4114a023a33018749dca1cdc3dc1873cd59fa981a8a3465b4450081fcee9",
    "3ac7b6e1f0119d65b7fbb393335ceb50c096f0639d0aaa6eb8180aa52d0d2818",
    "c1143cd4842753dba35d8b68ebc42665417c0aff0ba4b1488927e008c5caf997")

/-- SHA-256 of the texts that are hashed for these transactions. -/
def merkleTable : List (String × String) :=
  [(loan.1.toJson (cratesWith id), loan.2), (spend.1.toJson (cratesWith id), spend.2),
    (thanks.1.toJson (cratesWith id), thanks.2), (loan.2 ++ spend.2, upperHashes.1),
    (thanks.2 ++ thanks.2, upperHashes.2.1), (upperHashes.1 ++ upperHashes.2.1, upperHashes.2.2)]

/-- SHA-256 on these texts; other texts do not collide. -/
@[irreducible] def merkleSha (text : String) : String :=
  ((merkleTable.find? fun e => e.1 = text).map Prod.snd).getD ("SHA-256 of " ++ text)

def merkleCrates : Crates := cratesWith merkleSha

def merkleHashes : List String := merkleTable.map Prod.snd

theorem merkleHashes_nodup : merkleHashes.Nodup := by
  unfold merkleHashes merkleTable
  decide +kernel

theorem merkleHashes_hex {a : String} (h : a ∈ merkleHashes) : a.toList.length = 64 ∧
    a.toList.head? ≠ some '\x7b' ∧ a.toList.head? ≠ some 'S' := by
  have hall : (merkleHashes.all fun a => decide (a.toList.length = 64 ∧
      a.toList.head? ≠ some '\x7b' ∧ a.toList.head? ≠ some 'S')) = true := by
    unfold merkleHashes merkleTable
    decide +kernel
  exact of_decide_eq_true (List.all_eq_true.mp hall a h)

theorem merkleSha_of_find {text a : String}
    (h : (merkleTable.find? fun e => e.1 = text) = some (text, a)) : merkleSha text = a := by
  rw [merkleSha, h]
  rfl

theorem merkleSha_inj {x y : String} (h : merkleSha x = merkleSha y) : x = y := by
  have hmem : ∀ {text : String} {e : String × String},
      (merkleTable.find? fun e => e.1 = text) = some e → e ∈ merkleTable ∧ e.1 = text := by
    intro text e hfind
    exact ⟨List.mem_of_find?_eq_some hfind, by simpa using List.find?_some hfind⟩
  have hother : ∀ {e : String × String} {text : String}, e ∈ merkleTable →
      e.2 ≠ "SHA-256 of " ++ text := by
    intro e text he heq
    refine (merkleHashes_hex (List.mem_map_of_mem he)).2.2 ?_
    rw [heq, String.toList_append]
    rfl
  rw [merkleSha, merkleSha] at h
  cases hx : merkleTable.find? fun e => e.1 = x with
  | none =>
    cases hy : merkleTable.find? fun e => e.1 = y with
    | none =>
      rw [hx, hy] at h
      exact (String.append_right_inj _).mp h
    | some e =>
      rw [hx, hy] at h
      exact absurd h.symm (hother (hmem hy).1)
  | some e =>
    obtain ⟨he, rfl⟩ := hmem hx
    cases hy : merkleTable.find? fun e => e.1 = y with
    | none =>
      rw [hx, hy] at h
      exact absurd h (hother he)
    | some e' =>
      obtain ⟨he', rfl⟩ := hmem hy
      rw [hx, hy] at h
      rw [List.inj_on_of_nodup_map merkleHashes_nodup he he' h]

theorem toJson_three : ¬ loan.1.toJson (cratesWith id) = spend.1.toJson (cratesWith id) ∧
    ¬ loan.1.toJson (cratesWith id) = thanks.1.toJson (cratesWith id) ∧
    ¬ spend.1.toJson (cratesWith id) = thanks.1.toJson (cratesWith id) := by decide +kernel

theorem genHash_merkleCrates {tx : Transaction} {a : String}
    (h : merkleSha (tx.toJson (cratesWith id)) = a) : tx.genHash merkleCrates = a := h

theorem merkleSha_txs : loan.1.genHash merkleCrates = loan.2 ∧
    spend.1.genHash merkleCrates = spend.2 ∧ thanks.1.genHash merkleCrates = thanks.2 := by
  obtain ⟨hloan, hthanks, hspend⟩ := toJson_three
  refine ⟨genHash_merkleCrates (merkleSha_of_find ?_), genHash_merkleCrates (merkleSha_of_find ?_),
    genHash_merkleCrates (merkleSha_of_find ?_)⟩
  · exact List.find?_cons_of_pos (decide_eq_true rfl)
  · rw [merkleTable, List.find?_cons_of_neg (by simpa using hloan)]
    exact List.find?_cons_of_pos (decide_eq_true rfl)
  · rw [merkleTable, List.find?_cons_of_neg (by simpa using hthanks),
      List.find?_cons_of_neg (by simpa using hspend)]
    exact List.find?_cons_of_pos (decide_eq_true rfl)

/-- A text that starts with no brace is not that of a transaction. -/
theorem merkleSha_of_head {text a : String} (hhead : text.toList.head? ≠ some '\x7b')
    (h : ((merkleTable.drop 3).find? fun e => e.1 = text) = some (text, a)) : merkleSha text = a := by
  have hjson : ∀ tx : Transaction, ¬ tx.toJson (cratesWith id) = text := by
    rintro tx rfl
    exact hhead (head_toJson _ tx)
  apply merkleSha_of_find
  rw [merkleTable, List.find?_cons_of_neg (by simpa using hjson loan.1),
    List.find?_cons_of_neg (by simpa using hjson spend.1),
    List.find?_cons_of_neg (by simpa using hjson thanks.1)]
  exact h

theorem pairHash_three : pairHash merkleCrates loan.2 spend.2 = upperHashes.1 ∧
    pairHash merkleCrates thanks.2 thanks.2 = upperHashes.2.1 ∧
    pairHash merkleCrates upperHashes.1 upperHashes.2.1 = upperHashes.2.2 :=
  ⟨merkleSha_of_head (by decide +kernel) (by decide +kernel),
    merkleSha_of_head (by decide +kernel) (by decide +kernel),
    merkleSha_of_head (by decide +kernel) (by decide +kernel)⟩

/-- With the thanks once or twice the levels above are the same. -/
theorem createMerkleTree_three {last : List (Transaction × TxId)}
    (hlast : last = [thanks] ∨ last = [thanks, thanks]) :
    createMerkleTree merkleCrates ((loan :: spend :: last).map Prod.fst) = .ok (upperHashes.2.2,
      { hashes := [(loan :: spend :: last).map Prod.snd, [upperHashes.1, upperHashes.2.1],
        [upperHashes.2.2]] }) := by
  obtain ⟨hloan, hspend, hthanks⟩ := merkleSha_txs
  obtain ⟨hfirst, hsecond, hroot⟩ := pairHash_three
  have hupper : levels (pairHash merkleCrates) [upperHashes.1, upperHashes.2.1] =
      [[upperHashes.1, upperHashes.2.1], [upperHashes.2.2]] := by
    rw [levels_of_lt _ (by simp), pairUp, pairUp, hroot, levels_of_not_lt _ (by simp)]
  have hlevels : merkleLevels merkleCrates ((loan :: spend :: last).map Prod.snd) =
      [(loan :: spend :: last).map Prod.snd, [upperHashes.1, upperHashes.2.1], [upperHashes.2.2]] := by
    rw [merkleLevels_eq, levels_of_lt _ (by simp)]
    rcases hlast with rfl | rfl
    · rw [List.map_cons, List.map_cons, List.map_singleton, pairUp, pairUp, hfirst, hsecond, hupper]
    · rw [List.map_cons, List.map_cons, List.map_cons, List.map_singleton, pairUp, pairUp, pairUp,
        hfirst, hsecond, hupper]
  have hleaves : ((loan :: spend :: last).map Prod.fst).map (fun tx => tx.genHash merkleCrates) =
      (loan :: spend :: last).map Prod.snd := by
    rcases hlast with rfl | rfl <;> simp [hloan, hspend, hthanks]
  rw [createMerkleTree, if_neg (by simp), hleaves, hlevels]
  rfl

theorem merkle_table_three : ∃ tree,
    createMerkleTree merkleCrates [loan.1, spend.1, thanks.1] = .ok (upperHashes.2.2, tree) ∧
    climb (pairHash merkleCrates) tree.hashes 2 thanks.2 = some upperHashes.2.2 := by
  have hthree := createMerkleTree_three (.inl rfl)
  obtain ⟨root, tree, hok, -, hclimb⟩ := merkle_table (C := merkleCrates)
    (List.cons_ne_nil loan.1 [spend.1, thanks.1])
  obtain ⟨rfl, -⟩ := Prod.mk.inj (Except.ok.inj (hok.symm.trans hthree))
  refine ⟨tree, hok, ?_⟩
  rw [← merkleSha_txs.2.2]
  exact hclimb 2 thanks.1 rfl

end NakamotoNode.Chain
