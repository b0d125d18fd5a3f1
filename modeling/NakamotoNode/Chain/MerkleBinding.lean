import NakamotoNode.Chain.Commitment

/-! # What a Merkle root tells

An odd level of a Merkle tree is filled up with its last hash. So the root tells the leaves of the tree,
which are the transactions and then, up to a power of two, the last of them again; it does not tell how
many of the leaves were meant (`merkle_root_binds`). -/

namespace NakamotoNode.Chain
open Foundations Foundations.RustStd HashTree
set_option autoImplicit false

variable {C : Crates} {txs txs' : List Transaction} {root root' : String} {tree tree' : MerkleTree}

/-- The hash of a tree of transactions. -/
def treeHash (C : Crates) : HashTree Transaction → String :=
  HashTree.hash (fun tx => tx.genHash C) (pairHash C)

theorem treeHash_node (C : Crates) (t u : HashTree Transaction) :
    treeHash C (node t u) = pairHash C (treeHash C t) (treeHash C u) := rfl

/-! ## The tree of the model -/

theorem map_leaf_treeHash (C : Crates) (txs : List Transaction) :
    (txs.map leaf).map (treeHash C) = txs.map fun tx => tx.genHash C := by
  rw [List.map_map]
  rfl

/-- The hashes of the Merkle tree are those of the trees on its levels. -/
theorem hashes_eq (hne : txs ≠ []) (h : createMerkleTree C txs = .ok (root, tree)) :
    tree.hashes.flatten = (parts txs).map (treeHash C) := by
  rw [(createMerkleTree_levels hne h).2, parts, List.map_flatten, map_levels (treeHash_node C),
    map_leaf_treeHash]

theorem treeHash_mem (hne : txs ≠ []) (h : createMerkleTree C txs = .ok (root, tree))
    {t : HashTree Transaction} (ht : t ∈ parts txs) : treeHash C t ∈ tree.hashes.flatten := by
  rw [hashes_eq hne h]
  exact List.mem_map_of_mem ht

/-- The root is the hash of the tree over the transactions. -/
theorem root_eq (h : createMerkleTree C txs = .ok (root, tree)) :
    root = (build txs).elim "" (treeHash C) := by
  by_cases hne : txs = []
  · subst hne
    obtain ⟨rfl, -⟩ := Prod.mk.inj (Except.ok.inj h)
    rw [build_nil]
    rfl
  · have htop := (createMerkleTree_levels hne h).1
    rw [← map_leaf_treeHash, ← map_top (treeHash_node C)] at htop
    obtain ⟨t, ht, rfl⟩ := Option.map_eq_some_iff.mp htop
    rw [build, ht]
    rfl

/-! ## Hashes that do not collide -/

/-- On these transactions and hashes, none of them empty, `gen_hash` and the hash of pairs do not collide,
with themselves or each other. -/
structure CollisionFree (C : Crates) (txs : List Transaction) (hashes : List String) : Prop where
  genHash : ∀ tx ∈ txs, ∀ tx' ∈ txs, tx.genHash C = tx'.genHash C → tx = tx'
  pair : ∀ a ∈ hashes, ∀ b ∈ hashes, ∀ c ∈ hashes, ∀ d ∈ hashes,
    C.sha256Hex (a ++ b) = C.sha256Hex (c ++ d) → a = c ∧ b = d
  pair_ne_leaf : ∀ a ∈ hashes, ∀ b ∈ hashes, ∀ tx ∈ txs, C.sha256Hex (a ++ b) ≠ tx.genHash C
  ne_empty : ∀ a ∈ hashes, a ≠ ""

section Binding
variable (hroot : createMerkleTree C txs = .ok (root, tree))
  (hroot' : createMerkleTree C txs' = .ok (root', tree'))
  (h : CollisionFree C (txs ++ txs') (tree.hashes.flatten ++ tree'.hashes.flatten))
include hroot hroot' h

/-- Among the parts of both trees the hash tells the tree. -/
theorem treeHash_inj (hne : txs ≠ []) (hne' : txs' ≠ []) {t t' : HashTree Transaction}
    (ht : t ∈ parts txs) (ht' : t' ∈ parts txs') (heq : treeHash C t = treeHash C t') : t = t' := by
  have hleaf : ∀ tx, leaf tx ∈ parts txs ++ parts txs' → tx ∈ txs ++ txs' := fun tx hmem =>
    List.mem_append.mpr ((List.mem_append.mp hmem).imp mem_of_leaf_mem_parts mem_of_leaf_mem_parts)
  have hchildren : ∀ u v, node u v ∈ parts txs ++ parts txs' →
      u ∈ parts txs ++ parts txs' ∧ v ∈ parts txs ++ parts txs' := by
    intro u v hmem
    rw [List.mem_append, List.mem_append]
    rcases List.mem_append.mp hmem with hmem | hmem
    · obtain ⟨hu, hv⟩ := children_mem_parts hmem
      exact ⟨.inl hu, .inl hv⟩
    · obtain ⟨hu, hv⟩ := children_mem_parts hmem
      exact ⟨.inr hu, .inr hv⟩
  have hhash : ∀ u ∈ parts txs ++ parts txs',
      treeHash C u ∈ tree.hashes.flatten ++ tree'.hashes.flatten := by
    intro u hu
    exact List.mem_append.mpr ((List.mem_append.mp hu).imp (treeHash_mem hne hroot)
      (treeHash_mem hne' hroot'))
  refine hash_inj (K := fun u => u ∈ parts txs ++ parts txs') hchildren
    (fun tx tx' htx htx' => h.genHash _ (hleaf tx htx) _ (hleaf tx' htx'))
    (fun t u v w ht hu hv hw => ?_) (fun t u tx ht hu htx => ?_)
    (List.mem_append_left _ ht) (List.mem_append_right _ ht') heq
  · exact h.pair _ (hhash t ht) _ (hhash u hu) _ (hhash v hv) _ (hhash w hw)
  · exact h.pair_ne_leaf _ (hhash t ht) _ (hhash u hu) _ (hleaf tx htx)

theorem root_eq_iff : root = root' ↔ build txs = build txs' := by
  have hr := root_eq hroot
  have hr' := root_eq hroot'
  refine ⟨fun he => ?_, fun he => by rw [hr, hr', he]⟩
  rw [hr, hr'] at he
  by_cases hne : txs = []
  · by_cases hne' : txs' = []
    · rw [hne, hne']
    · obtain ⟨t', -, ht', hmem', -⟩ := exists_build hne'
      rw [hne, build_nil, ht'] at he
      exact absurd he.symm (h.ne_empty _ (List.mem_append_right _ (treeHash_mem hne' hroot' hmem')))
  obtain ⟨t, m, ht, hmem, -⟩ := exists_build hne
  by_cases hne' : txs' = []
  · rw [hne', build_nil, ht] at he
    exact absurd he (h.ne_empty _ (List.mem_append_left _ (treeHash_mem hne hroot hmem)))
  obtain ⟨t', m', ht', hmem', -⟩ := exists_build hne'
  rw [ht, ht'] at he ⊢
  exact congrArg some (treeHash_inj hroot hroot' h hne hne' hmem hmem' he)

/-- For any two lists, where hashes do not collide: the Merkle roots are equal exactly when the trees have
the same leaves, which are the list and then some of it again; and then the lists are equal, if they are of
one length or repeat no transaction. -/
theorem merkle_root_binds : (root = root' ↔ padded txs = padded txs') ∧
    (∀ l ∈ [txs, txs'], l <+: padded l ∧ padded l ⊆ l) ∧
    (root = root' → txs.length = txs'.length ∨ txs.Nodup ∧ txs'.Nodup → txs = txs') := by
  have hiff : root = root' ↔ padded txs = padded txs' :=
    (root_eq_iff hroot hroot' h).trans padded_eq_iff.symm
  exact ⟨hiff, fun l _ => ⟨prefix_padded l, fun tx => mem_of_mem_padded⟩,
    fun he => eq_of_padded (hiff.mp he)⟩

end Binding

/-! ## Three transactions and four -/

/-- On the hashes of these trees SHA-256 does not collide. -/
theorem collisionFree_three {txs : List Transaction} {hashes : List String}
    (htxs : ∀ tx ∈ txs, tx ∈ [loan.1, spend.1, thanks.1]) (hhashes : ∀ a ∈ hashes, a ∈ merkleHashes) :
    CollisionFree merkleCrates txs hashes := by
  obtain ⟨hloan, hspend, hthanks⟩ := merkleSha_txs
  have hlen : ∀ a ∈ hashes, a.toList.length = 64 := fun a ha => (merkleHashes_hex (hhashes a ha)).1
  constructor
  case genHash =>
    have hentry : ∀ tx ∈ txs, (tx, tx.genHash merkleCrates) ∈ [loan, spend, thanks] := by
      intro tx htx
      have hmem := htxs tx htx
      simp only [List.mem_cons, List.not_mem_nil, or_false] at hmem
      rcases hmem with rfl | rfl | rfl
      · simp [hloan]
      · simp [hspend]
      · simp [hthanks]
    have hnodup : ([loan, spend, thanks].map Prod.snd).Nodup := by decide
    intro tx htx tx' htx' heq
    exact congrArg Prod.fst (List.inj_on_of_nodup_map hnodup (hentry tx htx) (hentry tx' htx') heq)
  case pair =>
    intro a ha b hb c hc d hd heq
    have htext : a ++ b = c ++ d := merkleSha_inj heq
    have hlist := congrArg String.toList htext
    rw [String.toList_append, String.toList_append] at hlist
    obtain ⟨hac, hbd⟩ := List.append_inj hlist (by rw [hlen a ha, hlen c hc])
    exact ⟨String.toList_inj.mp hac, String.toList_inj.mp hbd⟩
  case pair_ne_leaf =>
    intro a ha b hb tx _ heq
    have htext : a ++ b = tx.toJson (cratesWith id) := merkleSha_inj heq
    obtain ⟨hlen, hhead, -⟩ := merkleHashes_hex (hhashes a ha)
    have hjson := head_toJson (cratesWith id) tx
    rw [← htext, String.toList_append, List.head?_append_of_ne_nil _ fun hnil => ?_] at hjson
    · exact hhead hjson
    · rw [hnil] at hlen
      exact absurd hlen (by simp)
  case ne_empty =>
    rintro a ha rfl
    exact absurd (hlen "" ha) (by simp)

theorem merkle_root_binds_three : padded [loan.1, spend.1, thanks.1] =
    padded [loan.1, spend.1, thanks.1, thanks.1] :=
  (merkle_root_binds (createMerkleTree_three (.inl rfl)) (createMerkleTree_three (.inr rfl))
    (collisionFree_three (by simp) (by simp [merkleHashes, merkleTable]))).1.mp rfl

/-- The list with the thanks twice is another one, with the same root. -/
theorem thanks_repeated : ∃ tree tree' : MerkleTree,
    createMerkleTree merkleCrates [loan.1, spend.1, thanks.1] = .ok (upperHashes.2.2, tree) ∧
    createMerkleTree merkleCrates [loan.1, spend.1, thanks.1, thanks.1] = .ok (upperHashes.2.2, tree') ∧
    CollisionFree merkleCrates
      ([loan.1, spend.1, thanks.1] ++ [loan.1, spend.1, thanks.1, thanks.1])
      (tree.hashes.flatten ++ tree'.hashes.flatten) ∧
    [loan.1, spend.1, thanks.1] ≠ [loan.1, spend.1, thanks.1, thanks.1] :=
  ⟨_, _, createMerkleTree_three (.inl rfl), createMerkleTree_three (.inr rfl),
    collisionFree_three (by simp) (by simp [merkleHashes, merkleTable]),
    fun h => absurd (congrArg List.length h) (by simp)⟩

end NakamotoNode.Chain
