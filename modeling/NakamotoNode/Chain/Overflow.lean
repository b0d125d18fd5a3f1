import NakamotoNode.Chain.Acceptance

/-! # Exact outcomes of a debug build

Each arithmetic step of the balance check and of finalization returns the exact ledger where its
postings stay within `i64`, and panics elsewhere (`Exec.Decides`). -/

namespace NakamotoNode.Chain
open Foundations Foundations.RustStd
set_option autoImplicit false

/-- What a list of transactions posts. -/
def postings (txs : List Transaction) : List (UserId × ℤ) :=
  (txs.map Transaction.transfer).flatMap Transfer.postings

/-- What a block posts when it becomes final. -/
def BlockNode.postings (b : BlockNode) : List (UserId × ℤ) :=
  Chain.postings b.txs ++ [(b.header.rewardReceiver, 10)]

namespace BlockTree
variable {C : Crates} {T T' : BlockTree} {block : BlockNode}

/-! ## Single steps -/

theorem i64_debug_decides {ε : Type} (overflow : ε) (v : ℤ) :
    Exec.Decides (i64 .debug overflow v) (InI64 v) (· = v) := by
  constructor
  · intro h
    exact ⟨v, i64_of_inI64 .debug h, rfl⟩
  · intro h
    exact ⟨overflow, if_neg h⟩

theorem addBalance_decides (L : Ledger UserId) (u : UserId) (a : ℤ) :
    Exec.Decides (addBalance .debug L u a) (L.Contained InI64 [(u, a)]) (· = L.credit u a) := by
  unfold addBalance
  exact (i64_debug_decides _ _).bind fun _ => Exec.decides_ok rfl

theorem subBalance_decides (L : Ledger UserId) (u : UserId) (a : ℤ) :
    Exec.Decides (subBalance .debug L u a) (L.Contained InI64 [(u, -a)]) (· = L.credit u (-a)) := by
  rw [subBalance, sub_eq_add_neg]
  exact (i64_debug_decides _ _).bind fun _ => Exec.decides_ok rfl

theorem moveAmount_decides (L : Ledger UserId) (tx : Transaction) :
    Exec.Decides (moveAmount .debug L tx tx.amount) (L.Contained InI64 tx.transfer.postings)
      (· = L.transfer tx.transfer) := by
  have hsplit : tx.transfer.postings = [(tx.sender, -tx.amount)] ++ [(tx.receiver, tx.amount)] := rfl
  rw [hsplit, Ledger.contained_append]
  exact (subBalance_decides L _ _).bind fun _ => addBalance_decides _ _ _

theorem applyTx_decides {tx : Transaction} (h : tx.Parses) (L : Ledger UserId) :
    Exec.Decides (applyTx .debug L tx) (L.Contained InI64 tx.transfer.postings)
      (· = L.transfer tx.transfer) := by
  rw [applyTx, h.amount_eq]
  exact moveAmount_decides L tx

/-! ## Lists of transactions -/

theorem postings_cons (tx : Transaction) (txs : List Transaction) :
    postings (tx :: txs) = tx.transfer.postings ++ postings txs := rfl

theorem foldlM_applyTx_decides {txs : List Transaction} (h : ∀ tx ∈ txs, tx.Parses)
    (L : Ledger UserId) :
    Exec.Decides (txs.foldlM (applyTx .debug) L) (L.Contained InI64 (postings txs))
      (· = (txs.map Transaction.transfer).foldl Ledger.transfer L) := by
  induction txs generalizing L with
  | nil => exact Exec.decides_ok rfl
  | cons tx txs ih =>
    rw [List.foldlM_cons, postings_cons]
    exact ((applyTx_decides (h tx (by simp)) L).bind fun _ =>
      ih (fun tx' htx' => h tx' (by simp [htx'])) _).congr Ledger.contained_append.symm

theorem finalizeTxs_decides {txs : List Transaction} (h : ∀ tx ∈ txs, tx.Parses)
    (L : Ledger UserId) :
    Exec.Decides (finalizeTxs C .debug L txs) (L.Contained InI64 (postings txs))
      (· = ((txs.map Transaction.transfer).foldl Ledger.transfer L,
        (txs.map fun tx => tx.genHash C).toFinset)) := by
  suffices hgen : ∀ (txs : List Transaction) (L : Ledger UserId) (ids : Finset TxId),
      (∀ tx ∈ txs, tx.Parses) → Exec.Decides
      (txs.foldlM (fun (s : Ledger UserId × Finset TxId) tx =>
        applyTx .debug s.1 tx >>= fun balances => .ok (balances, insert (tx.genHash C) s.2)) (L, ids))
      (L.Contained InI64 (postings txs))
      (· = ((txs.map Transaction.transfer).foldl Ledger.transfer L,
        ids ∪ (txs.map fun tx => tx.genHash C).toFinset)) by
    have := hgen txs L ∅ h
    rwa [Finset.empty_union] at this
  intro txs
  induction txs with
  | nil => exact fun L ids _ => Exec.decides_ok (by simp)
  | cons tx txs ih =>
    intro L ids h
    rw [List.foldlM_cons, postings_cons, Ledger.contained_append, List.map_cons,
      List.map_cons, List.toFinset_cons, Finset.union_insert, ← Finset.insert_union]
    have hstep : Exec.Decides (applyTx .debug L tx >>= fun balances =>
        .ok (balances, insert (tx.genHash C) ids)) (L.Contained InI64 tx.transfer.postings ∧ True)
        (· = (L.transfer tx.transfer, insert (tx.genHash C) ids)) := by
      refine (applyTx_decides (h tx (by simp)) L).bind fun _ => ?_
      exact Exec.decides_ok rfl
    rw [and_true] at hstep
    exact hstep.bind fun _ => ih _ _ fun tx' htx' => h tx' (by simp [htx'])

/-- The messages that `checkTxs` comes to have amounts, and what it posts stays in range. -/
def ChecksOut : Ledger UserId → List Transaction → Prop
  | _, [] => True
  | L, tx :: txs => tx.Parses ∧ (tx.amount ≤ L.balance tx.sender →
      L.Contained InI64 tx.transfer.postings ∧ ChecksOut (L.transfer tx.transfer) txs)

theorem checkTxs_decides (L : Ledger UserId) (txs : List Transaction) :
    Exec.Decides (checkTxs .debug L txs) (ChecksOut L txs)
      (· = L.pay (txs.map Transaction.transfer)) := by
  induction txs generalizing L with
  | nil => exact Exec.decides_ok rfl
  | cons tx txs ih =>
    rw [checkTxs, ChecksOut, List.map_cons, Ledger.pay]
    by_cases hparse : tx.Parses
    · rw [hparse.amount_eq, Exec.ok_bind, and_iff_right hparse]
      have hamount : tx.transfer.amount = tx.amount := rfl
      have hsender : tx.transfer.sender = tx.sender := rfl
      rw [hamount, hsender]
      split
      · next hlt =>
        refine Exec.Decides.congr (P := True) (Exec.decides_ok rfl) (iff_of_true trivial ?_)
        exact fun hle => absurd hle (by omega)
      · next hle =>
        rw [forall_prop_of_true (by omega)]
        exact (moveAmount_decides L tx).bind fun _ => ih _
    · refine ⟨fun h => absurd h.1 hparse, fun _ => ?_⟩
      obtain ⟨a, ha⟩ | ⟨e, he⟩ | hout := Exec.outcome_cases (extractAmount tx.message)
      · exact absurd ⟨a, ha⟩ hparse
      · exact ⟨e, by rw [he, Exec.panic_bind]⟩
      · exact absurd hout (extractAmount_ne_outOfFuel _)

/-! ## The reward walk -/

/-- The blocks whose rewards are added before the transactions, from `id` upwards. -/
def rewarded (T : BlockTree) (id : BlockId) : List BlockNode :=
  (T.segment T.finalizedBlockId id).dropLast

/-- The block at which the walk stops; its reward is added after the transactions. -/
def walkEnd (T : BlockTree) (id : BlockId) : BlockNode :=
  (T.segment T.finalizedBlockId id).getLast?.getD BlockNode.genesisBlock

def rewardPostings (bs : List BlockNode) : List (UserId × ℤ) :=
  bs.map fun b => (b.header.rewardReceiver, 10)

theorem addRewards_succ (profile : Profile) (T : BlockTree) (L : Ledger UserId) (pb : BlockNode)
    (fuel : ℕ) : addRewards profile T L pb (fuel + 1) =
      if pb.header.parent ≠ T.finalizedBlockId then
        addBalance profile L pb.header.rewardReceiver 10 >>= fun L =>
        Exec.unwrap .rewardParent (T.getBlock pb.header.parent) >>= fun b =>
        addRewards profile T L b fuel
      else .ok (L, pb) := by
  rw [addRewards, Exec.loop]
  dsimp only
  split
  · rw [bind_assoc]
    refine congrArg _ (funext fun L' => ?_)
    rw [bind_assoc]
    rfl
  · rfl

theorem walk_stop (hT : Shape T) {pb : BlockNode} (hpb : T.Stored pb)
    (hstop : pb.header.parent = T.finalizedBlockId) :
    T.rewarded pb.header.blockId = [] ∧ T.walkEnd pb.header.blockId = pb := by
  by_cases hroot : pb.header.blockId = "0"
  · obtain rfl := hT.stored_eq_genesis hpb hroot
    have hseg : T.segment T.finalizedBlockId BlockNode.genesisBlock.header.blockId = [] := by
      rw [← hstop]
      exact segment_self "0"
    rw [rewarded, walkEnd, hseg]
    exact ⟨rfl, rfl⟩
  · have hseg := segment_of_parent hT hpb hroot (a := T.finalizedBlockId) (by rw [hstop])
    rw [hstop, segment_self] at hseg
    rw [rewarded, walkEnd, hseg]
    exact ⟨rfl, rfl⟩

theorem walk_step (hT : Shape T) {pb : BlockNode} (hpb : T.Stored pb)
    (hbelow : T.BelowFinal pb.header.blockId) (hne : pb.header.parent ≠ T.finalizedBlockId) :
    T.rewarded pb.header.blockId = pb :: T.rewarded pb.header.parent ∧
      T.walkEnd pb.header.blockId = T.walkEnd pb.header.parent := by
  obtain ⟨d, hd, hdst, hdbelow, hdp⟩ := hbelow.step hT hpb hne
  obtain ⟨hroot, -⟩ := hT.parentOf_eq_some.mp hdp
  obtain ⟨hdid, -⟩ := hT.stored_of_getBlock hd
  have hle := hT.graded.le (hdbelow.descends hT (Shape.stored_mem hdst))
  rw [hdid] at hle hdbelow
  have hseg := segment_of_parent hT hpb hroot hle
  obtain ⟨c, l, hcons⟩ : ∃ c l, T.segment T.finalizedBlockId pb.header.parent = c :: l := by
    have hdeeper : T.depthOf pb.header.parent ≠ T.depthOf T.finalizedBlockId := fun he =>
      hne (hT.graded.eq_of_le (hdbelow.descends hT (mem_of_getBlock hd)) he.le)
    obtain ⟨n, hn⟩ : ∃ n, T.depthOf pb.header.parent - T.depthOf T.finalizedBlockId = n + 1 :=
      ⟨_, (Nat.succ_pred (by omega)).symm⟩
    rw [segment, hn, branchFrom, hd]
    exact ⟨_, _, rfl⟩
  rw [rewarded, walkEnd, rewarded, walkEnd, hseg, hcons]
  exact ⟨rfl, rfl⟩

theorem addRewards_decides (hT : Shape T) : ∀ {fuel : ℕ} {pb : BlockNode}, T.Stored pb →
    T.BelowFinal pb.header.blockId → ∀ L : Ledger UserId, T.depthOf pb.header.blockId < fuel →
      Exec.Decides (addRewards .debug T L pb fuel)
        (L.Contained InI64 (rewardPostings (T.rewarded pb.header.blockId)))
        (· = (L.post (rewardPostings (T.rewarded pb.header.blockId)),
          T.walkEnd pb.header.blockId))
  | 0, _, _, _, _, hfuel => absurd hfuel (Nat.not_lt_zero _)
  | fuel + 1, pb, hpb, hbelow, L, hfuel => by
      rw [addRewards_succ]
      split
      · next hne =>
        obtain ⟨hrewarded, hend⟩ := walk_step hT hpb hbelow hne
        obtain ⟨d, hd, hdst, hdbelow, hdp⟩ := hbelow.step hT hpb hne
        obtain ⟨hdid, -⟩ := hT.stored_of_getBlock hd
        have hdepth := hT.graded _ _ hdp
        rw [hd, hrewarded, hend, ← hdid]
        refine ((addBalance_decides L _ 10).bind fun _ => ?_).congr
          (and_congr_left fun _ => Ledger.contained_singleton)
        exact addRewards_decides hT hdst hdbelow _ (by omega)
      · next hstop =>
        obtain ⟨hrewarded, hend⟩ := walk_stop hT hpb (not_not.mp hstop)
        rw [hrewarded, hend]
        exact Exec.decides_ok rfl

/-! ## The balance check -/

/-- The balances that the transactions of a block below `id` are checked against. -/
def spendable (T : BlockTree) (id : BlockId) : Ledger UserId :=
  ((T.pendingTxs.map Transaction.transfer).foldl Ledger.transfer T.finalizedBalanceMap).post
    (rewardPostings (T.rewarded id))

/-- The senders hold what the block sends, each at its turn. -/
def Pays (T : BlockTree) (block : BlockNode) : Prop :=
  Funded (T.spendable block.header.parent).balance (block.txs.map Transaction.transfer)

/-- The balance check of the block stays within `i64`, on amounts that parse. -/
structure CheckFits (T : BlockTree) (block : BlockNode) : Prop where
  pending : T.finalizedBalanceMap.Contained InI64
    (postings T.pendingTxs ++ rewardPostings (T.rewarded block.header.parent))
  txs : ChecksOut (T.spendable block.header.parent) block.txs
  reward : T.Pays block → Ledger.Contained InI64
    ((block.txs.map Transaction.transfer).foldl Ledger.transfer (T.spendable block.header.parent))
    [((T.walkEnd block.header.parent).header.rewardReceiver, 10)]

theorem verifiyTransactionsBalance_decides (hT : Inv T) (hparse : ∀ tx ∈ T.pendingTxs, tx.Parses)
    {pb : BlockNode} (hpb : T.getBlock block.header.parent = some pb)
    (hbelow : T.BelowFinal block.header.parent) {fuel : ℕ}
    (hwork : T.depthOf T.workingBlockId < fuel) (hpar : T.depthOf block.header.parent < fuel) :
    Exec.Decides (verifiyTransactionsBalance .debug T block pb fuel) (CheckFits T block)
      (fun r => r = true ↔ T.Pays block) := by
  obtain ⟨hid, hst⟩ := hT.shape.stored_of_getBlock hpb
  have hrewards := addRewards_decides hT.shape hst (by rw [hid]; exact hbelow)
    ((T.pendingTxs.map Transaction.transfer).foldl Ledger.transfer T.finalizedBalanceMap)
    (by rw [hid]; exact hpar)
  rw [hid] at hrewards
  rw [verifiyTransactionsBalance, getPendingFinalizationTxs_eq hT hwork, Exec.ok_bind]
  have hfits : CheckFits T block ↔ T.finalizedBalanceMap.Contained InI64 (postings T.pendingTxs) ∧
      Ledger.Contained InI64
        ((T.pendingTxs.map Transaction.transfer).foldl Ledger.transfer T.finalizedBalanceMap)
        (rewardPostings (T.rewarded block.header.parent)) ∧
      ChecksOut (T.spendable block.header.parent) block.txs ∧ (T.Pays block → Ledger.Contained InI64
        ((block.txs.map Transaction.transfer).foldl Ledger.transfer
          (T.spendable block.header.parent))
        [((T.walkEnd block.header.parent).header.rewardReceiver, 10)]) := by
    rw [← and_assoc, ← Ledger.post_flatMap_postings, ← postings, ← Ledger.contained_append]
    exact ⟨fun h => ⟨h.pending, h.txs, h.reward⟩, fun h => ⟨h.1, h.2.1, h.2.2⟩⟩
  rw [hfits]
  refine (foldlM_applyTx_decides hparse _).bind fun _ => ?_
  refine hrewards.bind fun _ => ?_
  refine (checkTxs_decides _ _).bind fun _ => ?_
  have hspendable : Ledger.post ((T.pendingTxs.map Transaction.transfer).foldl Ledger.transfer
      T.finalizedBalanceMap) (rewardPostings (T.rewarded block.header.parent)) =
        T.spendable block.header.parent := rfl
  rw [hspendable]
  cases hpay : (T.spendable block.header.parent).pay (block.txs.map Transaction.transfer) with
  | none =>
    have hno : ¬ T.Pays block := fun h => by
      rw [Ledger.pay_eq_some_iff.mpr ⟨h, rfl⟩] at hpay
      exact absurd hpay (by simp)
    refine Exec.Decides.congr (P := True) (Exec.decides_ok ?_) (iff_of_true trivial ?_)
    · simp [hno]
    · exact fun h => absurd h hno
  | some L =>
    obtain ⟨hpays, rfl⟩ := Ledger.pay_eq_some_iff.mp hpay
    rw [forall_prop_of_true (show T.Pays block from hpays)]
    refine Exec.Decides.congr (P := _ ∧ True) ((addBalance_decides _ _ 10).bind fun _ => ?_)
      (and_iff_left trivial)
    exact Exec.decides_ok (iff_of_true rfl hpays)

theorem pays_iff_of_ok (hT : Inv T) (hparse : ∀ tx ∈ T.pendingTxs, tx.Parses) {pb : BlockNode}
    (hpb : T.getBlock block.header.parent = some pb) (hbelow : T.BelowFinal block.header.parent)
    {n : ℕ} {r : Bool} (h : verifiyTransactionsBalance .debug T block pb n = .ok r) :
    CheckFits T block ∧ (r = true ↔ T.Pays block) := by
  let fuel := n + T.depthOf T.workingBlockId + T.depthOf block.header.parent + 1
  have hfuel : n ≤ fuel ∧ T.depthOf T.workingBlockId < fuel ∧
      T.depthOf block.header.parent < fuel := by omega
  have h' : verifiyTransactionsBalance .debug T block pb fuel = .ok r :=
    ((growing_verifiyTransactionsBalance T block pb n _ hfuel.1).eq (by simp [h])).trans h
  exact (verifiyTransactionsBalance_decides hT hparse hpb hbelow hfuel.2.1 hfuel.2.2).of_ok h'

theorem exists_verdict (hT : Inv T) (hparse : ∀ tx ∈ T.pendingTxs, tx.Parses) {pb : BlockNode}
    (hpb : T.getBlock block.header.parent = some pb) (hbelow : T.BelowFinal block.header.parent)
    (hfits : CheckFits T block) :
    ∃ N r, T.depthOf block.header.parent < N ∧
      (∀ fuel, N ≤ fuel → verifiyTransactionsBalance .debug T block pb fuel = .ok r) ∧
      (r = true ↔ T.Pays block) := by
  let N := T.depthOf T.workingBlockId + T.depthOf block.header.parent + 1
  have hN : T.depthOf T.workingBlockId < N ∧ T.depthOf block.header.parent < N := by omega
  obtain ⟨r, hr, hiff⟩ :=
    (verifiyTransactionsBalance_decides hT hparse hpb hbelow hN.1 hN.2).returns hfits
  refine ⟨N, r, hN.2, fun fuel hfuel => ?_, hiff⟩
  rw [(growing_verifiyTransactionsBalance T block pb N fuel hfuel).eq (by simp [hr]), hr]

theorem Accepts.pays {leadingZeroLen : ℕ} (h : Accepts C .debug leadingZeroLen T block) (hT : Inv T)
    (hparse : ∀ tx ∈ T.pendingTxs, tx.Parses) : T.Pays block := by
  obtain ⟨pb, n, hpb, -, hbal⟩ := h.connects
  exact (pays_iff_of_ok hT hparse hpb (h.belowFinal hT.shape) hbal).2.mp rfl

/-! ## Far from overflow -/

theorem checksOut_of_within {L : Ledger UserId} {B : ℤ} {txs : List Transaction} (h : L.Within B)
    (hparse : ∀ tx ∈ txs, tx.Parses) (hB : B + volume txs < 2 ^ 63) : ChecksOut L txs := by
  induction txs generalizing L B with
  | nil => trivial
  | cons tx txs ih =>
    have hnonneg := volume_nonneg txs
    rw [volume_cons] at hB
    refine ⟨hparse tx (by simp), fun _ => ⟨?_, ?_⟩⟩
    · exact ((moveAmount_decides L tx).of_ok (moveAmount_of_within h tx (by omega))).1
    · refine ih (h.transfer tx.transfer) (fun tx' htx' => hparse tx' (by simp [htx'])) ?_
      change B + |tx.amount| + volume txs < 2 ^ 63
      omega

/-- In a tree of small balances the check of a small block stays in range. -/
theorem checkFits_of_modest {v : ℤ} (hT : Inv T) (hm : Modest v T)
    (hparent : block.header.parent ∈ T.allBlocks) (hbelow : T.BelowFinal block.header.parent)
    (hparse : ∀ tx ∈ block.txs, tx.Parses) (hvol : volume block.txs ≤ v)
    (hbound : 299792458 + (v + 10) *
      (T.depthOf T.workingBlockId + T.depthOf block.header.parent + 2) < 2 ^ 63) :
    CheckFits T block := by
  obtain ⟨pb, hpb⟩ := mem_allBlocks_iff.mp hparent
  obtain ⟨hid, hst⟩ := hT.shape.stored_of_getBlock hpb
  have hv0 : 0 ≤ v := (volume_nonneg _).trans hvol
  have hpend := volume_pendingTxs_le hT hm
  have hfw := hT.shape.graded.le hT.final.working_below
  have hpd : (0 : ℤ) ≤ v * T.depthOf block.header.parent := mul_nonneg hv0 (Int.natCast_nonneg _)
  have habs : |(10 : ℤ)| = 10 := by decide
  have hpending := (foldlM_applyTx_decides (pendingTxs_parse hT hm) T.finalizedBalanceMap).of_ok
    (foldlM_applyTx_of_within hm.within (pendingTxs_parse hT hm) (by linarith))
  have hL := hm.within.foldl_transfer (T.pendingTxs.map Transaction.transfer)
  rw [sum_transfer_amount] at hL
  obtain ⟨r, hr, hwithin, -⟩ := addRewards_of_within .debug hT.shape hst (hid ▸ hbelow) hL
    (by rw [hid]; linarith) (Nat.lt_succ_self _)
  obtain ⟨hrewards, rfl⟩ := (addRewards_decides hT.shape hst (hid ▸ hbelow) _
    (Nat.lt_succ_self _)).of_ok hr
  rw [hid] at hrewards hwithin
  have hwithin' := hwithin.foldl_transfer (block.txs.map Transaction.transfer)
  rw [sum_transfer_amount] at hwithin'
  constructor
  case pending =>
    rw [Ledger.contained_append, postings, Ledger.post_flatMap_postings]
    exact ⟨hpending.1, hrewards⟩
  case txs => exact checksOut_of_within hwithin hparse (by linarith)
  case reward =>
    exact fun _ => ((addBalance_decides _ _ 10).of_ok
      (addBalance_of_within hwithin' _ 10 (by rw [habs]; linarith))).1

/-! ## Finalization -/

/-- The block that the insertion of a block below `id` makes final, if any. -/
def newFinal (T : BlockTree) (id : BlockId) : Option BlockNode :=
  if T.depthOf id = T.depthOf T.finalizedBlockId + 6 then
    (T.segment T.finalizedBlockId id).getLast?
  else none

theorem newFinal_eq_some (hT : Shape T) {id : BlockId} {c : BlockNode} (hst : T.Stored c)
    (hchild : T.parentOf c.header.blockId = some T.finalizedBlockId)
    (hdesc : T.Descends c.header.blockId id)
    (hdeep : T.depthOf id = T.depthOf T.finalizedBlockId + 6) : T.newFinal id = some c := by
  have hdepth := hT.graded _ _ hchild
  have hclimb := hT.graded.climb_of_descends hdesc
  have hlast : T.segment T.finalizedBlockId id =
      T.branchFrom (T.depthOf id - T.depthOf c.header.blockId) id ++ [c] := by
    rw [segment, ← branchFrom_succ_eq_append hT _ _ _ c hclimb hst]
    congr 1
    omega
  rw [newFinal, if_pos hdeep, hlast, List.getLast?_append]
  rfl

/-- What the insertion of `block` posts on the finalized balances stays within `i64`. -/
def FinalFits (T : BlockTree) (block : BlockNode) : Prop :=
  ∀ c ∈ T.newFinal block.header.parent, T.finalizedBalanceMap.Contained InI64 c.postings

/-- The tree after the insertion of `block`, over the integers. -/
def inserted (C : Crates) (T : BlockTree) (block : BlockNode) : BlockTree :=
  match T.newFinal block.header.parent with
  | none => T.graft block
  | some c =>
      { T.graft block with
        finalizedTxIds := T.finalizedTxIds ∪ (c.txs.map fun tx => tx.genHash C).toFinset
        finalizedBalanceMap := finalizedBy T.finalizedBalanceMap c
        finalizedBlockId := c.header.blockId }

theorem finalized_old (hT : Inv T) (hfresh : block.header.blockId ∉ T.allBlocks)
    (hparent : block.header.parent ∈ T.allBlocks)
    (hdeep : T.depthOf block.header.parent = T.depthOf T.finalizedBlockId + 6) {c : BlockNode}
    (hst : (T.graft block).Stored c)
    (hchild : (T.graft block).parentOf c.header.blockId = some T.finalizedBlockId)
    (hdesc : (T.graft block).Descends c.header.blockId block.header.blockId) :
    T.Stored c ∧ T.parentOf c.header.blockId = some T.finalizedBlockId ∧
      T.Descends c.header.blockId block.header.parent := by
  have hforest := hT.shape.graft_forest hfresh hparent
  have hne : c.header.blockId ≠ block.header.blockId := by
    intro he
    rw [he, hforest.leaf] at hchild
    rw [Option.some.inj hchild] at hdeep
    omega
  refine ⟨?_, ?_, ?_⟩
  · rwa [Stored, getBlock_graft_of_ne hne] at hst
  · rwa [hforest.old _ hne] at hchild
  · exact ((hforest.descends_leaf).mp hdesc).resolve_left fun he => hne he.symm

theorem finalizeBlock_decides (hT : Inv T) (hfresh : block.header.blockId ∉ T.allBlocks)
    (hparent : block.header.parent ∈ T.allBlocks) (hbelow : T.BelowFinal block.header.parent)
    (hparse : ∀ c, T.Stored c → c.header.blockId ≠ "0" → ∀ tx ∈ c.txs, tx.Parses) :
    Exec.Decides (finalizeBlock C .debug (T.graft block) block) (FinalFits T block)
      (· = T.inserted C block) := by
  obtain ⟨cs, hcs⟩ := Option.isSome_iff_exists.mp (AList.lookup_isSome.mpr
    (finalized_children_mem hT hfresh hparent hbelow))
  rw [finalizeBlock, graft_finalizedBlockId, hcs, Exec.unwrap_some, Exec.ok_bind]
  by_cases hdeep : T.depthOf block.header.parent = T.depthOf T.finalizedBlockId + 6
  · obtain ⟨c, hk, hmem⟩ := exists_kDeep_mem_children hT hfresh hparent hbelow hcs hdeep
    obtain ⟨-, hst, hchild, hdesc⟩ := kDeep_mem_children hT hfresh hparent hcs hk hmem
    obtain ⟨hst, hchild, hdesc⟩ := finalized_old hT hfresh hparent hdeep hst hchild hdesc
    have hnew := newFinal_eq_some hT.shape hst hchild hdesc hdeep
    have hfits : FinalFits T block ↔ T.finalizedBalanceMap.Contained InI64 (postings c.txs) ∧
        Ledger.Contained InI64
          ((c.txs.map Transaction.transfer).foldl Ledger.transfer T.finalizedBalanceMap)
          [(c.header.rewardReceiver, 10)] := by
      rw [← Ledger.post_flatMap_postings, ← postings, ← Ledger.contained_append,
        ← BlockNode.postings, FinalFits, hnew]
      simp
    rw [hk, hfits, inserted, hnew]
    dsimp only
    rw [if_pos hmem]
    refine (finalizeTxs_decides (hparse c hst (hT.shape.parentOf_eq_some.mp hchild).1) _).bind
      fun _ => ?_
    refine Exec.Decides.congr (P := _ ∧ True) ((addBalance_decides _ _ 10).bind fun _ => ?_)
      (and_iff_left trivial)
    exact Exec.decides_ok rfl
  · have hnew : T.newFinal block.header.parent = none := if_neg hdeep
    rw [inserted, hnew]
    refine Exec.Decides.congr (P := True) ?_ (iff_of_true trivial (by simp [FinalFits, hnew]))
    cases hk : (T.graft block).kDeepBlock 6 block with
    | none => exact Exec.decides_ok rfl
    | some c =>
      dsimp only
      rw [if_neg fun hmem => hdeep (kDeep_mem_children hT hfresh hparent hcs hk hmem).1]
      exact Exec.decides_ok rfl

theorem updateBlocktree_decides (hT : Inv T) (hfresh : block.header.blockId ∉ T.allBlocks)
    (hparent : block.header.parent ∈ T.allBlocks) (hbelow : T.BelowFinal block.header.parent)
    (hparse : ∀ c, T.Stored c → c.header.blockId ≠ "0" → ∀ tx ∈ c.txs, tx.Parses) :
    Exec.Decides (updateBlocktree C .debug T block) (FinalFits T block)
      (· = T.inserted C block) := by
  rw [updateBlocktree_eq hT.shape hparent]
  exact finalizeBlock_decides hT hfresh hparent hbelow hparse

/-! ## Candidates -/

/-- Neither the check nor the insertion of a candidate block panics. -/
structure Sound (T : BlockTree) (block : BlockNode) : Prop where
  below : T.BelowFinal block.header.parent
  check : CheckFits T block
  final : T.Pays block → FinalFits T block

namespace Candidate
variable {leadingZeroLen : ℕ} (h : Candidate C leadingZeroLen T block) (hT : Inv T)
  (hparse : ∀ c, T.Stored c → c.header.blockId ≠ "0" → ∀ tx ∈ c.txs, tx.Parses)
include h hT hparse

theorem verdict (hbelow : T.BelowFinal block.header.parent) (hfits : CheckFits T block) :
    ∃ pb N r, T.getBlock block.header.parent = some pb ∧ T.depthOf block.header.parent < N ∧
      (∀ fuel, N ≤ fuel → verifiyTransactionsBalance .debug T block pb fuel = .ok r) ∧
      (r = true ↔ T.Pays block) := by
  obtain ⟨pb, hpb⟩ := mem_allBlocks_iff.mp h.parent_mem
  obtain ⟨N, r, hverdict⟩ := exists_verdict hT (parses_of_pending hT hparse) hpb hbelow hfits
  exact ⟨pb, N, r, hpb, hverdict⟩

/-- A candidate that is not paid for changes nothing. -/
theorem unpaid (hbelow : T.BelowFinal block.header.parent) (hfits : CheckFits T block)
    (hno : ¬ T.Pays block) : ∃ N, ∀ fuel, N ≤ fuel → ∀ order,
      addOrphanBlock C .debug (fuel + 1) order T block leadingZeroLen = .ok T := by
  obtain ⟨pb, N, r, hpb, hdepth, hrun, hiff⟩ := h.verdict hT hparse hbelow hfits
  obtain rfl : r = false := Bool.eq_false_iff.mpr fun hr => hno (hiff.mp hr)
  refine ⟨N, fun fuel hfuel order => ?_⟩
  rw [h.addOrphanBlock_eq hT.shape hpb (by omega), hrun fuel hfuel]
  rfl

/-- A candidate that is paid for is inserted. -/
theorem paid (hs : Sound T block) (hpays : T.Pays block) :
    Accepts C .debug leadingZeroLen T block ∧
      updateBlocktree C .debug T block = .ok (T.inserted C block) := by
  obtain ⟨pb, N, r, hpb, hdepth, hrun, hiff⟩ := h.verdict hT hparse hs.below hs.check
  obtain rfl : r = true := hiff.mpr hpays
  exact ⟨h.accepts hT.shape hpb (hrun N (Nat.le_refl N)),
    (updateBlocktree_decides hT h.fresh h.parent_mem hs.below hparse).eq (hs.final hpays)⟩

end Candidate

end BlockTree
end NakamotoNode.Chain
