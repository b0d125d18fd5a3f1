import NakamotoNode.Chain.LedgerReplay

/-! # A good block is accepted

The converse of `Accepts`: a block that is new, hashes to its id, is signed, repeats no Merkle root
and whose senders can pay (`Good`) is inserted, in both build profiles, as long as the balances of the
tree are far from overflow (`Modest`). -/

namespace NakamotoNode.Chain
open Foundations Foundations.RustStd
set_option autoImplicit false

namespace BlockTree
variable {C : Crates} {profile : Profile} {leadingZeroLen : ℕ} {T T' : BlockTree}
  {block : BlockNode} {v : ℤ}

/-- Every block moves at most `v`, and the finalized balances are no greater than that allows. -/
structure Modest (v : ℤ) (T : BlockTree) : Prop where
  parses : ∀ b, T.Stored b → b.header.blockId ≠ "0" → ∀ tx ∈ b.txs, tx.Parses
  volume_le : ∀ b, T.Stored b → b.header.blockId ≠ "0" → volume b.txs ≤ v
  within : T.finalizedBalanceMap.Within (299792458 + (v + 10) * T.depthOf T.finalizedBlockId)

theorem volume_flatMap_le {l : List BlockNode} (h : ∀ b ∈ l, volume b.txs ≤ v) :
    volume (l.flatMap BlockNode.txs) ≤ v * l.length := by
  induction l with
  | nil => simp
  | cons b l ih =>
    have hb := h b (by simp)
    have hl := ih fun b' hb' => h b' (by simp [hb'])
    rw [List.flatMap_cons, volume_append, List.length_cons]
    push_cast
    linarith

/-! ## The checks succeed -/

theorem verifyBlockAncestry_eq_true (hT : Shape T) {pb : BlockNode} (hpb : T.Stored pb)
    {m : String} {fuel : ℕ} (hfuel : T.depthOf pb.header.blockId < fuel)
    (hroot : ∀ b, T.Stored b → T.Descends b.header.blockId pb.header.blockId →
      b.header.parent ≠ "0" → m ≠ b.header.merkleRoot) :
    T.verifyBlockAncestry m pb fuel = .ok true := by
  obtain ⟨r, hr, hiff⟩ := (verifyBlockAncestry_sat hT hpb m fuel).exists_ok
    (verifyBlockAncestry_ne_outOfFuel hT hpb m hfuel)
  rw [hr, hiff.mpr hroot]

theorem getPendingFinalizationTxs_eq (hT : Inv T) {fuel : ℕ}
    (hfuel : T.depthOf T.workingBlockId < fuel) :
    T.getPendingFinalizationTxs fuel = .ok T.pendingTxs := by
  obtain ⟨r, hr, rfl⟩ := (getPendingFinalizationTxs_sat hT.shape hT.final.working_mem
    hT.final.working_below fuel).exists_ok
    (getPendingFinalizationTxs_ne_outOfFuel hT.shape hT.final.working_below hfuel)
  exact hr

variable (profile) in
/-- The reward walk only raises balances, by at most 10 a block. -/
theorem addRewards_of_within (hT : Shape T) {pb : BlockNode} (hpb : T.Stored pb)
    (hbelow : T.BelowFinal pb.header.blockId) {L : Ledger UserId} {B : ℤ} (hL : L.Within B)
    (hB : B + 10 * T.depthOf pb.header.blockId + 10 < 2 ^ 63) {fuel : ℕ}
    (hfuel : T.depthOf pb.header.blockId < fuel) :
    ∃ r, addRewards profile T L pb fuel = .ok r ∧
      r.1.Within (B + 10 * T.depthOf pb.header.blockId) ∧ ∀ u, L.balance u ≤ r.1.balance u := by
  refine Exec.Sat.exists_ok ?_ (addRewards_ne_outOfFuel hT hpb hbelow L hfuel)
  refine Exec.Sat.loop (I := fun s : Ledger UserId × BlockNode => T.Stored s.2 ∧
    T.BelowFinal s.2.header.blockId ∧
    T.depthOf s.2.header.blockId ≤ T.depthOf pb.header.blockId ∧
    s.1.Within (B + 10 * (T.depthOf pb.header.blockId - T.depthOf s.2.header.blockId)) ∧
    ∀ u, L.balance u ≤ s.1.balance u)
    ?_ fuel (L, pb) ⟨hpb, hbelow, Nat.le_refl _, by simpa using hL, fun _ => Int.le_refl _⟩
  rintro ⟨L₁, b⟩ ⟨hb, hbelow, hle, hL₁, hmono⟩
  dsimp only at hb hbelow hle hL₁ hmono ⊢
  split
  · next hne =>
    obtain ⟨d, hd, hdst, hdbelow, hdp⟩ := hbelow.step hT hb hne
    have hdepth := hT.graded _ _ hdp
    have habs : |(10 : ℤ)| = 10 := by decide
    rw [addBalance_of_within hL₁ _ 10 (by rw [habs]; omega), Exec.ok_bind, hd]
    refine ⟨hdst, hdbelow, by dsimp only; omega, ?_, fun u => ?_⟩
    · apply (hL₁.credit b.header.rewardReceiver 10).mono
      rw [habs]
      dsimp only
      omega
    · dsimp only
      rw [Ledger.balance_credit]
      have := hmono u
      split <;> omega
  · exact ⟨hL₁.mono (by omega), hmono⟩

/-- The block meets the conditions in the comment on `add_block`, and the tree is far from
overflow. -/
structure Good (C : Crates) (leadingZeroLen : ℕ) (v : ℤ) (T : BlockTree) (block : BlockNode) :
    Prop where
  fresh : block.header.blockId ∉ T.allBlocks
  integrity : verifyBlockIntegrity C block leadingZeroLen = .ok true
  parent_mem : block.header.parent ∈ T.allBlocks
  below : T.BelowFinal block.header.parent
  roots : ∀ b, T.Stored b → T.Descends b.header.blockId block.header.parent →
    b.header.parent ≠ "0" → block.header.merkleRoot ≠ b.header.merkleRoot
  parses : ∀ tx ∈ block.txs, tx.Parses
  volume_le : volume block.txs ≤ v
  funded : Funded T.pendingBalance (block.txs.map Transaction.transfer)
  bound : 299792458 + (v + 10) *
    (T.depthOf T.workingBlockId + T.depthOf block.header.parent + 2) < 2 ^ 63

/-- With enough fuel `add_orphan_block` inserts the block, which makes the tree `T₁`, and goes on
with the first orphan that waits for it. -/
def Continues (C : Crates) (profile : Profile) (leadingZeroLen : ℕ) (T : BlockTree)
    (block : BlockNode) (T₁ : BlockTree) : Prop :=
  ∃ N, ∀ fuel, N ≤ fuel → ∀ order,
    addOrphanBlock C profile (fuel + 1) order T block leadingZeroLen =
      match findOrphan order T₁ block.header.blockId with
      | none => .ok T₁
      | some oBlock =>
          addOrphanBlock C profile fuel order.next T₁ oBlock leadingZeroLen >>= fun T =>
          .ok { T with orphans := T.orphans.erase block.header.blockId }

theorem addOrphanBlock_eq_attachBlock (hint : verifyBlockIntegrity C block leadingZeroLen = .ok true)
    (hfresh : block.header.blockId ∉ T.allBlocks) {pb : BlockNode}
    (hpb : T.getBlock block.header.parent = some pb) (fuel : ℕ) (order : IterOrder) :
    addOrphanBlock C profile (fuel + 1) order T block leadingZeroLen =
      attachBlock C profile order
        (fun T oBlock => addOrphanBlock C profile fuel order.next T oBlock leadingZeroLen)
        T block pb fuel := by
  rw [addOrphanBlock, hint, Exec.ok_bind]
  simp only [not_true_eq_false, hfresh, decide_false, Bool.false_eq_true, or_self, if_false]
  rw [hpb]

theorem Accepts.continues {T₁ : BlockTree} (h : Accepts C profile leadingZeroLen T block)
    (hupd : updateBlocktree C profile T block = .ok T₁) :
    Continues C profile leadingZeroLen T block T₁ := by
  obtain ⟨pb, N, hpb, hanc, hbal⟩ := h.connects
  refine ⟨N, fun fuel hfuel order => ?_⟩
  have hanc' := (growing_verifyBlockAncestry T block.header.merkleRoot pb N fuel hfuel).eq
    (by simp [hanc])
  have hgrowing : Exec.Growing (verifiyTransactionsBalance profile T block pb) :=
    growing_verifiyTransactionsBalance T block pb
  have hbal' := (hgrowing N fuel hfuel).eq (by simp [hbal])
  rw [addOrphanBlock_eq_attachBlock h.integrity h.fresh hpb, attachBlock, hanc', hanc,
    Exec.ok_bind, if_neg (by simp), hbal', hbal, Exec.ok_bind, if_neg (by simp), hupd]
  rfl

/-- A new block with a known parent gets to the balance check. -/
structure Candidate (C : Crates) (leadingZeroLen : ℕ) (T : BlockTree) (block : BlockNode) : Prop where
  fresh : block.header.blockId ∉ T.allBlocks
  integrity : verifyBlockIntegrity C block leadingZeroLen = .ok true
  parent_mem : block.header.parent ∈ T.allBlocks
  roots : ∀ b, T.Stored b → T.Descends b.header.blockId block.header.parent →
    b.header.parent ≠ "0" → block.header.merkleRoot ≠ b.header.merkleRoot

theorem Accepts.candidate (h : Accepts C profile leadingZeroLen T block) (hT : Shape T) :
    Candidate C leadingZeroLen T block :=
  ⟨h.fresh, h.integrity, h.parent_mem, fun _ hb hdesc hparent => h.merkleRoot_ne hT hb hdesc hparent⟩

namespace Candidate
variable (h : Candidate C leadingZeroLen T block)
include h

theorem ancestry (hT : Shape T) {pb : BlockNode} (hpb : T.getBlock block.header.parent = some pb)
    {fuel : ℕ} (hfuel : T.depthOf block.header.parent < fuel) :
    T.verifyBlockAncestry block.header.merkleRoot pb fuel = .ok true := by
  obtain ⟨hid, hst⟩ := hT.stored_of_getBlock hpb
  apply verifyBlockAncestry_eq_true hT hst (by rw [hid]; exact hfuel)
  rw [hid]
  exact h.roots

theorem addOrphanBlock_eq (hT : Shape T) {pb : BlockNode}
    (hpb : T.getBlock block.header.parent = some pb) {fuel : ℕ}
    (hfuel : T.depthOf block.header.parent < fuel) (order : IterOrder) :
    addOrphanBlock C profile (fuel + 1) order T block leadingZeroLen =
      verifiyTransactionsBalance profile T block pb fuel >>= fun sufficient =>
        if ¬ sufficient then .ok T
        else
          updateBlocktree C profile T block >>= fun T =>
          match findOrphan order T block.header.blockId with
          | none => .ok T
          | some oBlock =>
              addOrphanBlock C profile fuel order.next T oBlock leadingZeroLen >>= fun T =>
              .ok { T with orphans := T.orphans.erase block.header.blockId } := by
  rw [addOrphanBlock_eq_attachBlock h.integrity h.fresh hpb, attachBlock,
    h.ancestry hT hpb hfuel, Exec.ok_bind]
  exact if_neg (by simp)

theorem accepts (hT : Shape T) {pb : BlockNode} (hpb : T.getBlock block.header.parent = some pb)
    {n : ℕ} (hbal : verifiyTransactionsBalance profile T block pb n = .ok true) :
    Accepts C profile leadingZeroLen T block := by
  let fuel := n + T.depthOf block.header.parent + 1
  have hfuel : n ≤ fuel ∧ T.depthOf block.header.parent < fuel := by omega
  have hgrowing : Exec.Growing (verifiyTransactionsBalance profile T block pb) :=
    growing_verifiyTransactionsBalance T block pb
  have hbal' := (hgrowing n _ hfuel.1).eq (by simp [hbal])
  exact ⟨h.fresh, h.integrity, pb, fuel, hpb, h.ancestry hT hpb hfuel.2, hbal'.trans hbal⟩

end Candidate

theorem sum_transfer_amount (txs : List Transaction) :
    ((txs.map Transaction.transfer).map fun t => |t.amount|).sum = volume txs := by
  rw [List.map_map]
  rfl

theorem parses_of_pending (hT : Inv T)
    (hparse : ∀ b, T.Stored b → b.header.blockId ≠ "0" → ∀ tx ∈ b.txs, tx.Parses) :
    ∀ tx ∈ T.pendingTxs, tx.Parses := by
  intro tx htx
  obtain ⟨b, hb, htx⟩ := List.mem_flatMap.mp htx
  obtain ⟨hst, hid, -⟩ := (mem_branch hT.shape).mp
    (mem_branch_of_mem_segment hT.shape hT.final.working_below hb)
  exact hparse b hst hid tx htx

section Good
variable (hT : Inv T) (hm : Modest v T)
include hT hm

theorem pendingTxs_parse : ∀ tx ∈ T.pendingTxs, tx.Parses := parses_of_pending hT hm.parses

theorem volume_pendingTxs_le : volume T.pendingTxs ≤
    v * (T.depthOf T.workingBlockId - T.depthOf T.finalizedBlockId) := by
  have hseg := branch_eq_segment_append hT.shape hT.final.working_below
  have hlen : (T.segment T.finalizedBlockId T.workingBlockId).length +
      T.depthOf T.finalizedBlockId = T.depthOf T.workingBlockId := by
    rw [← length_branch hT.shape hT.final.working_mem, hseg, List.length_append,
      length_branch hT.shape hT.final.final_mem]
  have hvol : volume T.pendingTxs ≤
      v * (T.segment T.finalizedBlockId T.workingBlockId).length := by
    refine volume_flatMap_le fun b hb => ?_
    obtain ⟨hst, hid, -⟩ := (mem_branch hT.shape).mp
      (mem_branch_of_mem_segment hT.shape hT.final.working_below hb)
    exact hm.volume_le b hst hid
  have hcast : ((T.segment T.finalizedBlockId T.workingBlockId).length : ℤ) =
      T.depthOf T.workingBlockId - T.depthOf T.finalizedBlockId := by omega
  rwa [hcast] at hvol

variable (hgood : Good C leadingZeroLen v T block)
include hgood

variable (profile) in
/-- The balance check succeeds for a block whose senders hold the amounts on top of the pending
transactions. -/
theorem verifiyTransactionsBalance_eq_true {pb : BlockNode}
    (hpb : T.getBlock block.header.parent = some pb) {fuel : ℕ}
    (hwork : T.depthOf T.workingBlockId < fuel) (hpar : T.depthOf block.header.parent < fuel) :
    verifiyTransactionsBalance profile T block pb fuel = .ok true := by
  obtain ⟨hid, hst⟩ := hT.shape.stored_of_getBlock hpb
  have hbound := hgood.bound
  have hv0 : 0 ≤ v := (volume_nonneg _).trans hgood.volume_le
  have hv := hgood.volume_le
  have hpend := volume_pendingTxs_le hT hm
  have hfw := hT.shape.graded.le hT.final.working_below
  have hpd : (0 : ℤ) ≤ v * T.depthOf block.header.parent :=
    mul_nonneg hv0 (Int.natCast_nonneg _)
  have habs : |(10 : ℤ)| = 10 := by decide
  -- the pending transactions, then the rewards of the ancestors
  have hL := hm.within.foldl_transfer (T.pendingTxs.map Transaction.transfer)
  rw [sum_transfer_amount] at hL
  obtain ⟨r, hr, hwithin, hmono⟩ := addRewards_of_within profile hT.shape hst
    (hid ▸ hgood.below) hL (by rw [hid]; linarith) (by rw [hid]; exact hpar)
  rw [hid] at hwithin
  rw [verifiyTransactionsBalance, getPendingFinalizationTxs_eq hT hwork, Exec.ok_bind,
    foldlM_applyTx_of_within hm.within (pendingTxs_parse hT hm) (by linarith), Exec.ok_bind, hr,
    Exec.ok_bind]
  -- the transactions of the block
  have hfund : Funded r.1.balance (block.txs.map Transaction.transfer) := by
    refine hgood.funded.mono fun t _ => ?_
    have := hmono t.sender
    rw [Ledger.balance_foldl_transfer, List.map_map] at this
    exact this
  have hwithin' := hwithin.foldl_transfer (block.txs.map Transaction.transfer)
  rw [sum_transfer_amount] at hwithin'
  dsimp only
  rw [checkTxs_of_within hwithin hgood.parses hfund (by linarith), Exec.ok_bind]
  dsimp only
  rw [addBalance_of_within hwithin' _ 10 (by rw [habs]; linarith), Exec.ok_bind]

/-! ## The update succeeds -/

omit hT in
theorem graft_modest {c : BlockNode} (hc : (T.graft block).Stored c)
    (hroot : c.header.blockId ≠ "0") : (∀ tx ∈ c.txs, tx.Parses) ∧ volume c.txs ≤ v := by
  rw [Stored, getBlock_graft] at hc
  split at hc
  · rw [← Option.some.inj hc]
    exact ⟨hgood.parses, hgood.volume_le⟩
  · exact ⟨hm.parses c hc hroot, hm.volume_le c hc hroot⟩

variable (profile) in
theorem finalize_of_modest {c : BlockNode} (hc : (T.graft block).Stored c)
    (hroot : c.header.blockId ≠ "0") :
    ∃ L₁, finalizeTxs C profile T.finalizedBalanceMap c.txs =
        .ok (L₁, (c.txs.map fun tx => tx.genHash C).toFinset) ∧
      addBalance profile L₁ c.header.rewardReceiver 10 =
        .ok (finalizedBy T.finalizedBalanceMap c) ∧
      (finalizedBy T.finalizedBalanceMap c).Within
        (299792458 + (v + 10) * (T.depthOf T.finalizedBlockId + 1)) := by
  have hbound := hgood.bound
  have hv0 : 0 ≤ v := (volume_nonneg _).trans hgood.volume_le
  obtain ⟨hcparse, hcv⟩ := graft_modest hm hgood hc hroot
  have hfw := hT.shape.graded.le hT.final.working_below
  have hle : (v + 10) * (T.depthOf T.finalizedBlockId + 1 : ℤ) ≤ (v + 10) *
      (T.depthOf T.workingBlockId + T.depthOf block.header.parent + 2) :=
    mul_le_mul_of_nonneg_left (by omega) (by omega)
  have habs : |(10 : ℤ)| = 10 := by decide
  have hL := hm.within.foldl_transfer (c.txs.map Transaction.transfer)
  rw [sum_transfer_amount] at hL
  refine ⟨_, finalizeTxs_of_within C hm.within hcparse (by linarith),
    addBalance_of_within hL _ 10 (by rw [habs]; linarith), ?_⟩
  apply (hL.credit c.header.rewardReceiver 10).mono
  rw [habs]
  linarith

variable (profile) in
theorem finalizeBlock_of_modest :
    ∃ T', finalizeBlock C profile (T.graft block) block = .ok T' := by
  obtain ⟨cs, hcs⟩ := Option.isSome_iff_exists.mp (AList.lookup_isSome.mpr
    (finalized_children_mem hT hgood.fresh hgood.parent_mem hgood.below))
  have hshape := (hT.shape.graft hgood.fresh hgood.parent_mem).2
  rw [finalizeBlock, graft_finalizedBlockId, hcs, Exec.unwrap_some, Exec.ok_bind]
  cases hk : (T.graft block).kDeepBlock 6 block with
  | none => exact ⟨_, rfl⟩
  | some c =>
    dsimp only
    split
    · next hmem =>
      obtain ⟨-, hc, hchild, -⟩ := kDeep_mem_children hT hgood.fresh hgood.parent_mem hcs hk hmem
      obtain ⟨L₁, htxs, hreward, -⟩ := finalize_of_modest profile hT hm hgood hc
        (hshape.parentOf_eq_some.mp hchild).1
      rw [graft_finalizedBalanceMap, htxs, Exec.ok_bind]
      dsimp only
      rw [hreward, Exec.ok_bind]
      exact ⟨_, rfl⟩
    · exact ⟨_, rfl⟩

theorem Inserted.modest (h : Inserted C profile T block T') (hI : Replayed C T) :
    Modest v T' ∧ Replayed C T' := by
  have hshape := h.shape hT.shape hgood.fresh hgood.parent_mem
  have hdepth := h.depthOf_old hgood.fresh hT.final.final_mem
  have hblocks : ∀ c, T'.Stored c → c.header.blockId ≠ "0" →
      (∀ tx ∈ c.txs, tx.Parses) ∧ volume c.txs ≤ v := by
    intro c hc hroot
    rw [Stored, h.getBlock] at hc
    exact graft_modest hm hgood hc hroot
  constructor
  · refine ⟨fun c hc hroot => (hblocks c hc hroot).1, fun c hc hroot => (hblocks c hc hroot).2, ?_⟩
    cases h with
    | hung =>
      rw [graft_finalizedBlockId, hdepth]
      exact hm.within
    | finalized c L L' txIds _ hc hchild _ htxs hreward =>
      obtain ⟨L₁, htxs', hreward', hwithin⟩ := finalize_of_modest profile hT hm hgood
        hc (hshape.parentOf_eq_some.mp hchild).1
      rw [htxs] at htxs'
      obtain ⟨rfl, -⟩ := Prod.mk.inj (Except.ok.inj htxs')
      rw [hreward] at hreward'
      obtain rfl := Except.ok.inj hreward'
      have hcdepth := hshape.graded _ _ hchild
      rw [hdepth] at hcdepth
      dsimp only
      rw [hcdepth]
      push_cast
      exact hwithin
  · refine h.replayed hT hI hgood.fresh hgood.parent_mem fun c hc hroot => ?_
    intro L₁ L₂ ids htxs hreward
    rw [Stored, h.getBlock] at hc
    obtain ⟨L₁', htxs', hreward', -⟩ := finalize_of_modest profile hT hm hgood hc hroot
    rw [htxs] at htxs'
    obtain ⟨rfl, rfl⟩ := Prod.mk.inj (Except.ok.inj htxs')
    rw [hreward] at hreward'
    exact ⟨Except.ok.inj hreward', rfl⟩

variable (profile) in
theorem inserted_of_good (hI : Replayed C T) :
    ∃ T₁, Accepts C profile leadingZeroLen T block ∧ Inserted C profile T block T₁ ∧ Inv T₁ ∧
      Modest v T₁ ∧ Replayed C T₁ ∧ Continues C profile leadingZeroLen T block T₁ := by
  obtain ⟨pb, hpb⟩ := mem_allBlocks_iff.mp hgood.parent_mem
  obtain ⟨hid, hst⟩ := hT.shape.stored_of_getBlock hpb
  have hanc : ∀ fuel, T.depthOf block.header.parent < fuel →
      T.verifyBlockAncestry block.header.merkleRoot pb fuel = .ok true := by
    intro fuel hfuel
    apply verifyBlockAncestry_eq_true hT.shape hst (by rw [hid]; exact hfuel)
    rw [hid]
    exact hgood.roots
  have hbal : ∀ fuel, T.depthOf T.workingBlockId < fuel → T.depthOf block.header.parent < fuel →
      verifiyTransactionsBalance profile T block pb fuel = .ok true :=
    fun _ hwork hpar => verifiyTransactionsBalance_eq_true profile hT hm hgood hpb hwork hpar
  obtain ⟨T₁, hfin⟩ := finalizeBlock_of_modest profile hT hm hgood
  have hupd : updateBlocktree C profile T block = .ok T₁ := by
    rw [updateBlocktree_eq hT.shape hgood.parent_mem, hfin]
  have hacc : Accepts C profile leadingZeroLen T block :=
    ⟨hgood.fresh, hgood.integrity, pb,
      T.depthOf T.workingBlockId + T.depthOf block.header.parent + 1, hpb,
      hanc _ (by omega), hbal _ (by omega) (by omega)⟩
  obtain ⟨hins, hT₁⟩ := hacc.inserted hT hupd
  obtain ⟨hm₁, hI₁⟩ := hins.modest hT hm hgood hI
  exact ⟨T₁, hacc, hins, hT₁, hm₁, hI₁, hacc.continues hupd⟩

end Good

theorem returns_of_continues {T₁ : BlockTree} (hnew : block.header.blockId ∉ T.allBlocks)
    (horphan : block.header.blockId ∉ T.orphans)
    (hcont : Continues C profile leadingZeroLen T block T₁)
    (hnone : ∀ id o, T₁.orphans.lookup id = some o → o.header.parent ≠ block.header.blockId)
    (order : IterOrder) : Returns C profile T ⟨block, leadingZeroLen, order⟩ T₁ := by
  obtain ⟨N, hrun⟩ := hcont
  refine ⟨N, ?_⟩
  rw [addBlock_eq, if_neg (not_or.mpr ⟨hnew, horphan⟩), hrun N (Nat.le_refl N),
    findOrphan_eq_none_iff.mpr hnone]

/-- The same, where all orphans that wait for the block are one, and none waits for that. -/
theorem returns_of_cascade {T₁ T₂ : BlockTree} {o : BlockNode}
    (hnew : block.header.blockId ∉ T.allBlocks) (horphan : block.header.blockId ∉ T.orphans)
    (hcont : Continues C profile leadingZeroLen T block T₁)
    (ho : T₁.orphans.lookup o.header.blockId = some o)
    (hwaits : o.header.parent = block.header.blockId)
    (hone : ∀ id o', T₁.orphans.lookup id = some o' → o'.header.parent = block.header.blockId →
      o' = o)
    (hcont₂ : Continues C profile leadingZeroLen T₁ o T₂)
    (hnone : ∀ id o', T₂.orphans.lookup id = some o' → o'.header.parent ≠ o.header.blockId)
    (order : IterOrder) : Returns C profile T ⟨block, leadingZeroLen, order⟩
      { T₂ with orphans := T₂.orphans.erase block.header.blockId } := by
  obtain ⟨N, hrun⟩ := hcont
  obtain ⟨N₂, hrun₂⟩ := hcont₂
  have hfind := findOrphan_of_unique order ho hwaits hone
  refine ⟨N + N₂ + 1, ?_⟩
  rw [addBlock_eq, if_neg (not_or.mpr ⟨hnew, horphan⟩), hrun _ (by omega), hfind]
  dsimp only
  rw [hrun₂ _ (by omega), findOrphan_eq_none_iff.mpr hnone]
  rfl

theorem returns_store (hnew : block.header.blockId ∉ T.allBlocks)
    (horphan : block.header.blockId ∉ T.orphans)
    (hintegrity : verifyBlockIntegrity C block leadingZeroLen = .ok true)
    (hparent : block.header.parent ∉ T.allBlocks) (order : IterOrder) :
    Returns C profile T ⟨block, leadingZeroLen, order⟩
      { T with orphans := T.orphans.insert block.header.blockId block } := by
  refine ⟨0, ?_⟩
  rw [addBlock_eq, if_neg (not_or.mpr ⟨hnew, horphan⟩), addOrphanBlock, hintegrity, Exec.ok_bind]
  simp [hnew, getBlock_eq_none.mpr hparent]

end BlockTree

end NakamotoNode.Chain
