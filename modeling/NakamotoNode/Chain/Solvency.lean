import NakamotoNode.Chain.Chains
import NakamotoNode.Chain.Finality

/-! # Balances do not become negative

The balance check of a block uses the pending transactions of the working branch, whatever branch
the block is on. Where these give its senders no more than those of its own branch (`OwnFunds`), no
user ever owns less than nothing on any branch (`Solvent`). The amounts themselves are not checked:
a transaction of a negative amount takes money from its receiver, and where no block with one for him
is inserted (`NonnegTo`) a user loses nothing unless he sends. -/

namespace NakamotoNode.Chain
open Foundations Foundations.RustStd
set_option autoImplicit false

namespace BlockTree
variable {C : Crates} {profile : Profile} {leadingZeroLen : ℕ} {T T' : BlockTree}
  {block : BlockNode}

/-! ## What the balance check guarantees -/

theorem balance_foldl_reward (l : List BlockNode) (L : Ledger UserId) (u : UserId) :
    (l.foldl (fun L b => L.credit b.header.rewardReceiver 10) L).balance u =
      L.balance u + (l.map fun b => b.reward u).sum := by
  induction l generalizing L with
  | nil => simp
  | cons b l ih =>
    rw [List.foldl_cons, ih, Ledger.balance_credit, List.map_cons, List.sum_cons, BlockNode.reward]
    ring

theorem sum_reward_branchFrom_le (u : UserId) :
    ∀ {n m : ℕ} (id : BlockId), n ≤ m →
      ((T.branchFrom n id).map fun b => b.reward u).sum ≤
        ((T.branchFrom m id).map fun b => b.reward u).sum
  | 0, m, id, _ => sum_reward_nonneg _ u
  | n + 1, 0, _, hle => absurd hle (by omega)
  | n + 1, m + 1, id, hle => by
      rw [branchFrom, branchFrom]
      cases T.getBlock id with
      | none => exact Int.le_refl _
      | some b =>
        dsimp only
        rw [List.map_cons, List.sum_cons, List.map_cons, List.sum_cons]
        exact Int.add_le_add_left (sum_reward_branchFrom_le u _ (by omega)) _

/-- The pending transactions of the working branch give no sender of the block more than those of
its own branch. -/
def OwnFunds (T : BlockTree) (block : BlockNode) : Prop :=
  ∀ tx ∈ block.txs,
    T.pendingFlow T.workingBlockId tx.sender ≤ T.pendingFlow block.header.parent tx.sender

theorem ownFunds_of_parent (h : block.header.parent = T.workingBlockId) : OwnFunds T block :=
  fun _ _ => by rw [h]

theorem Accepts.funded (h : Accepts C .debug leadingZeroLen T block) (hT : Inv T)
    (hI : Replayed C T) (hown : OwnFunds T block) :
    Funded (T.replay block.header.parent) (block.txs.map Transaction.transfer) := by
  have hdesc := (h.belowFinal hT.shape).descends hT.shape h.parent_mem
  obtain ⟨pb, fuel, hpb, -, hbal⟩ := h.connects
  obtain ⟨hid, hst⟩ := hT.shape.stored_of_getBlock hpb
  obtain ⟨pending, L, L₁, L₂, b, hpending, hL, hL₁, hcheck⟩ :=
    verifiyTransactionsBalance_eq_ok hbal
  have hlist : pending = T.pendingTxs := (getPendingFinalizationTxs_sat hT.shape
    hT.final.working_mem hT.final.working_below fuel).of_ok hpending
  obtain rfl := foldlM_applyTx_debug hL
  obtain ⟨n, hn, rfl⟩ := addRewards_debug hT.shape hst hL₁
  refine (checkTxs_debug hcheck).mono fun t ht => ?_
  obtain ⟨tx, htx, rfl⟩ := List.mem_map.mp ht
  -- the transactions of the working branch, with some rewards of the own branch
  have hbalance := pendingBalance_eq T tx.sender
  rw [pendingBalance, ← hlist] at hbalance
  have hflow := hown tx htx
  rw [hid] at hn ⊢
  have hrewards := sum_reward_branchFrom_le (T := T) tx.sender block.header.parent hn
  have hreplay := replay_eq_pending hT hI hdesc tx.sender
  unfold segment at hreplay
  have hsender : tx.transfer.sender = tx.sender := rfl
  rw [hsender, balance_foldl_reward, Ledger.balance_foldl_transfer, List.map_map]
  simp only [Function.comp_def]
  omega

/-! ## Solvency -/

/-- No amount in the tree is negative. -/
def NonnegAmounts (T : BlockTree) : Prop :=
  ∀ b, T.Stored b → b.header.blockId ≠ "0" → ∀ tx ∈ b.txs, 0 ≤ tx.amount

/-- Nobody owns less than nothing on any branch. -/
structure Solvent (C : Crates) (T : BlockTree) : Prop where
  replayed : Replayed C T
  nonneg : NonnegAmounts T → ∀ id ∈ T.allBlocks, ∀ u, 0 ≤ T.replay id u

theorem Inserted.solvent (h : Inserted C .debug T block T') (hT : Inv T)
    (hacc : Accepts C .debug leadingZeroLen T block) (hI : Solvent C T)
    (hown : OwnFunds T block) : Solvent C T' := by
  refine ⟨h.replayed hT hI.replayed hacc.fresh hacc.parent_mem fun c _ _ => exact_debug C _ c,
    fun hpos id hid u => ?_⟩
  have hold : NonnegAmounts T := by
    intro b hb
    apply hpos b
    have hne : b.header.blockId ≠ block.header.blockId :=
      fun he => hacc.fresh (he ▸ mem_of_getBlock hb)
    rw [Stored, h.getBlock, getBlock_graft_of_ne hne]
    exact hb
  have hreplay := hI.nonneg hold
  rcases h.mem_allBlocks.mp hid with rfl | hid
  · have hfund := hacc.funded hT hI.replayed hown
    have hflow := hfund.nonneg (hreplay _ hacc.parent_mem) (fun t ht => by
      obtain ⟨tx, htx, rfl⟩ := List.mem_map.mp ht
      exact hpos block h.stored (hacc.id_ne_root hT.shape) tx htx) u
    rw [List.map_map] at hflow
    rw [h.replay_leaf hT.shape hacc.fresh hacc.parent_mem, ← add_assoc]
    exact add_nonneg hflow (block.reward_nonneg u)
  · rw [h.replay_old hT.shape hacc.fresh hid]
    exact hreplay id hid u

theorem keeps_solvent (leadingZeroLen : ℕ) :
    Keeps C .debug leadingZeroLen OwnFunds (Solvent C) where
  insert := fun hT hI hacc hG hins => hins.solvent hT hacc hI hG
  orphans := fun {T} os hI => by
    refine ⟨(keeps_replayed (C := C) 0).orphans os hI.replayed, fun hpos id hid u => ?_⟩
    rw [replay, branch_withOrphans]
    exact hI.nonneg hpos id hid u

theorem solvent_genesisTree (C : Crates) : Solvent C genesisTree := by
  refine ⟨replayed_genesisTree C, fun _ id hid u => ?_⟩
  obtain ⟨b, hb⟩ := mem_allBlocks_iff.mp hid
  obtain ⟨rfl, -⟩ := getBlock_genesisTree hb
  rw [replay_root shape_genesisTree]
  exact genesisCredit_nonneg u

/-! ## What a call takes -/

/-- What a call adds to the finalized balances is what the blocks it finalizes bring. -/
theorem balance_of_returns {call : Call} (hT : Reachable C .debug T)
    (h : Returns C .debug T call T') (u : UserId) :
    T'.finalizedBalanceMap.balance u = T.finalizedBalanceMap.balance u +
      ((T'.segment T.finalizedBlockId T'.finalizedBlockId).map
        fun b => b.flow u + b.reward u).sum := by
  have hT' := hT.returns h
  obtain ⟨hinv', hext⟩ := extends_of_run hT.inv (Run.single h)
  rw [(replayed_of_reachable hT').balance, (replayed_of_reachable hT).balance, replay, replay,
    branch_eq_segment_append hinv'.shape hext.final,
    (branch_of_returns hT.inv h hT.inv.final.final_mem).2, List.map_append, List.sum_append]
  ring

/-- The block names no negative amount for `u`. -/
def NonnegTo (u : UserId) (_T : BlockTree) (block : BlockNode) : Prop :=
  ∀ tx ∈ block.txs, tx.receiver = u → 0 ≤ tx.amount

theorem keeps_nonnegTo (u : UserId) (leadingZeroLen : ℕ) :
    Keeps C profile leadingZeroLen (NonnegTo u)
      (fun T => ∀ b, T.Stored b → b.header.blockId ≠ "0" → NonnegTo u T b) where
  insert := fun _ hI _ hG hins b hb hid => by
    rcases hins.stored_cases hb with rfl | hb
    · exact hG
    · exact hI b hb hid
  orphans := fun _ hI => hI

theorem flow_nonneg {b : BlockNode} {u : UserId} (hpos : NonnegTo u T b)
    (hsend : ∀ tx ∈ b.txs, tx.sender ≠ u) : 0 ≤ b.flow u := by
  refine List.sum_nonneg fun x hx => ?_
  obtain ⟨tx, htx, rfl⟩ := List.mem_map.mp hx
  have hs : tx.transfer.sender ≠ u := hsend tx htx
  have ha : tx.transfer.receiver = u → 0 ≤ tx.transfer.amount := hpos tx htx
  rw [Transfer.flow, if_neg hs, sub_zero]
  split
  · next hr => exact ha hr
  · exact Int.le_refl 0

theorem tx_settledChain : ∀ b ∈ settledChain, ∀ tx ∈ b.txs, 0 < tx.amount ∧ tx.sender = alice := by
  intro b hb tx htx
  obtain ⟨e, he, htxs⟩ := txs_minedChain b hb
  rw [htxs, List.mem_singleton] at htx
  subst htx
  rcases List.mem_cons.mp he with rfl | he
  · exact ⟨by rw [Transaction.amount_of_ok loan_amount]; decide, rfl⟩
  · exact ⟨amount_payments e he, (payable_payments e he).sender⟩

end BlockTree

open BlockTree

/-- In a debug build, in every run in which the pending transactions of the working branch give the
senders of an inserted block no more than those of its own branch, and no amount in the tree is
negative, every entry of the finalized balances is non-negative. -/
theorem finalized_balances_nonneg {C : Crates} {calls : List Call} {T : BlockTree}
    (hrun : Run (ReturnsWith C .debug OwnFunds) genesisTree calls T)
    (hpos : ∀ b, T.Stored b → b.header.blockId ≠ "0" → ∀ tx ∈ b.txs, 0 < tx.amount) :
    ∀ u a, T.finalizedBalanceMap.lookup u = some a → 0 ≤ a := by
  obtain ⟨hT, hI⟩ := run_with_keeps hrun (fun _ _ => keeps_solvent _) (solvent_genesisTree C)
  intro u a ha
  have hbal : T.finalizedBalanceMap.balance u = a := by
    rw [Ledger.balance, ha, Option.getD_some]
  rw [← hbal, hI.replayed.balance]
  exact hI.nonneg (fun b hb hid tx htx => (hpos b hb hid tx htx).le) _ hT.final.final_mem u

theorem finalized_balances_nonneg_settledChain : ∃ T : BlockTree,
    T.finalizedBlockId = minedId 'a' ∧ ∀ u a, T.finalizedBalanceMap.lookup u = some a → 0 ≤ a := by
  obtain ⟨T, hrun, hT, -, hfin, -⟩ := settledChain_run .debug
  refine ⟨T, hfin, finalized_balances_nonneg
    (hrun.mono fun _ _ _ h => h.mono fun _ _ => ownFunds_of_parent) fun b hb hid tx htx => ?_⟩
  exact (tx_settledChain b (List.mem_reverse.mp (hT.stored b hb hid)) tx htx).1

section Fork
variable {T : BlockTree}
  (hT : Tip walletCrates 1000 [minedBlock 'a' "0" loan] [minedBlock 'a' "0" loan] T)
include hT

theorem eq_loan_of_stored {b : BlockNode} (hb : T.Stored b) (hid : b.header.blockId ≠ "0") :
    b = minedBlock 'a' "0" loan := List.mem_singleton.mp (hT.stored b hb hid)

theorem bob_le_pendingBalance : 100 ≤ T.pendingBalance bob := by
  have hle := le_pendingBalance hT.inv hT.replayed bob
  have hflow : (minedBlock 'a' "0" loan).flow bob = 100 := (add_zero _).trans flow_loan
  have hcredit := genesisCredit_nonneg bob
  rw [hT.branch, List.map_singleton, List.sum_singleton, hflow] at hle
  omega

theorem good_spend {nonce : Char} (hnonce : nonce ≠ '\x7b')
    (hid : minedId nonce ≠ "0" ∧ minedId nonce ≠ minedId 'a') {w : BlockId} (hw : w ∈ T.allBlocks) :
    Good walletCrates 0 1000 T (minedBlock nonce w spend) := by
  have hshape := hT.inv.shape
  have hamount : spend.1.amount = 100 := Transaction.amount_of_ok spend_amount
  constructor
  case fresh =>
    intro hmem
    obtain ⟨b, hb⟩ := mem_allBlocks_iff.mp hmem
    obtain ⟨he, hst⟩ := hshape.stored_of_getBlock hb
    rw [eq_loan_of_stored hT hst (by rw [he]; exact hid.1)] at he
    exact hid.2 he.symm
  case integrity => exact minedBlock_integrity hnonce w (by simp [wallet])
  case parent_mem => exact hw
  case below => exact .inl (hT.finalizedBlockId_eq_root (by decide))
  case roots =>
    intro b hb _ hparent
    rw [eq_loan_of_stored hT hb (hshape.ne_root_of_parent_ne hb hparent)] at hparent
    exact absurd rfl hparent
  case parses =>
    intro tx htx
    obtain rfl := List.mem_singleton.mp htx
    exact ⟨_, spend_amount⟩
  case volume_le =>
    change volume [spend.1] ≤ 1000
    simp [volume, hamount]
  case funded => exact ⟨hamount.le.trans (bob_le_pendingBalance hT), trivial⟩
  case bound => exact hT.bound_le hw (by norm_num) (by decide)

theorem children_loan : T.childrenMap.lookup "0" = some [minedId 'a'] := by
  have hshape := hT.inv.shape
  refine hshape.children_singleton (hshape.parentOf_eq_some.mpr
    ⟨by decide, _, (hT.mem_line List.mem_cons_self).1, rfl⟩) fun id hid => ?_
  obtain ⟨hne, b, hb, -⟩ := hshape.parentOf_eq_some.mp hid
  obtain ⟨rfl, hst⟩ := hshape.stored_of_getBlock hb
  rw [eq_loan_of_stored hT hst hne]
  rfl

theorem spend_returns (hos : T.orphans = ∅) :
    ∃ T', Returns walletCrates .debug T ⟨minedBlock 'b' "0" spend, 0, asStored⟩ T' ∧
      T'.orphans = ∅ ∧ T'.workingBlockId = minedId 'b' ∧
      Tip walletCrates 1000 [minedBlock 'b' "0" spend, minedBlock 'a' "0" loan]
        [minedBlock 'b' "0" spend] T' := by
  have hgood : Good walletCrates 0 1000 T (minedBlock 'b' "0" spend) :=
    good_spend hT (by decide) (by decide) hT.inv.shape.root_mem
  have hgreater : compare (minedId 'a') (minedId 'b') = .lt := by decide +kernel
  have hbranch : T.branch (minedBlock 'b' "0" spend).header.parent = [] :=
    branch_root hT.inv.shape
  obtain ⟨T', hcall, hos', hwork, htip⟩ := hT.beside .debug hos hgood (children_loan hT) hgreater
    (Nat.le_add_left 1 _) asStored
  rw [hbranch] at htip
  exact ⟨T', hcall, hos', hwork, htip⟩

end Fork

/-- Bob spends his loan on a branch without it, which then becomes final. -/
theorem overdraft : ∃ T, Run (Returns walletCrates .debug) genesisTree
      (delivery ([minedBlock 'a' "0" loan, minedBlock 'b' "0" spend] ++
        minedChain (minedId 'b') (payments ['c', 'd', 'e', 'f', 'g', 'h']))) T ∧
    (∀ b, T.Stored b → b.header.blockId ≠ "0" → ∀ tx ∈ b.txs, 0 < tx.amount) ∧
    T.finalizedBalanceMap.lookup bob = some (-100) := by
  obtain ⟨T₁, hcall₁, hos₁, -, hT₁⟩ := loan_returns .debug
  obtain ⟨T₂, hcall₂, hos₂, hwork₂, hT₂⟩ := spend_returns hT₁ hos₁
  have hnames : ∀ e ∈ payments ['c', 'd', 'e', 'f', 'g', 'h'],
      e.1 ≠ '\x7b' ∧ minedId e.1 ≠ "0" := by decide
  have hfits := minedChain_fits (payments ['c', 'd', 'e', 'f', 'g', 'h']) (minedId 'b')
    [minedBlock 'b' "0" spend, minedBlock 'a' "0" loan]
    (fun e he => ⟨(hnames e he).1, (hnames e he).2, payable_payments e he⟩) (by decide) (by decide)
  obtain ⟨T, hrun, -, hT⟩ := Tip.run .debug asStored _ hT₂ hos₂
    (by rw [hwork₂]; exact hfits) (by norm_num) (by decide)
  refine ⟨T, ((Run.single hcall₁.1).snoc hcall₂).trans (run_of_returnsWith hrun),
    fun b hb hid tx htx => ?_, ?_⟩
  · rcases List.mem_append.mp (hT.stored b hb hid) with hb | hb
    · obtain ⟨e, he, htxs⟩ := txs_minedChain b (List.mem_reverse.mp hb)
      rw [htxs, List.mem_singleton] at htx
      exact htx ▸ amount_payments e he
    · rcases List.mem_cons.mp hb with rfl | hb
      · obtain rfl := List.mem_singleton.mp htx
        exact (Transaction.amount_of_ok spend_amount).symm ▸ by decide
      · obtain rfl := List.mem_singleton.mp hb
        obtain rfl := List.mem_singleton.mp htx
        exact (Transaction.amount_of_ok loan_amount).symm ▸ by decide
  · obtain ⟨b, hb, hparent, -, hbranch⟩ := hT.finalized_of_length rfl
    have hspend : b = minedBlock 'b' "0" spend := by
      refine List.mem_singleton.mp ((List.mem_append.mp hb).resolve_left fun hb => ?_)
      exact parent_minedChain (by decide) (fun e he => (hnames e he).2) b
        (List.mem_reverse.mp hb) hparent
    have hbalance := hT.replayed.balance bob
    rw [replay, hbranch, hspend, bob_after, flow_spend, Ledger.balance] at hbalance
    cases hlookup : T.finalizedBalanceMap.lookup bob with
    | none =>
      rw [hlookup] at hbalance
      exact absurd hbalance (by decide)
    | some a =>
      rw [hlookup] at hbalance
      exact congrArg some hbalance

/-- In a debug build, in every run that inserts no block with a negative amount for `u`, a call lowers
the finalized balance of `u` only where he sends in the blocks that it finalizes. -/
theorem balance_mono_of_nonneg_amounts {C : Crates} {calls : List Call} {call : Call}
    {T T' : BlockTree} {u : UserId}
    (hrun : Run (ReturnsWith C .debug (NonnegTo u)) genesisTree calls T)
    (hcall : ReturnsWith C .debug (NonnegTo u) T call T')
    (hsend : ∀ b ∈ T'.segment T.finalizedBlockId T'.finalizedBlockId, ∀ tx ∈ b.txs,
      tx.sender ≠ u) :
    T.finalizedBalanceMap.balance u ≤ T'.finalizedBalanceMap.balance u := by
  have hT := reachable_iff.mpr ⟨calls, run_of_returnsWith hrun⟩
  obtain ⟨hinv', hext⟩ := extends_of_run hT.inv (Run.single hcall.1)
  have hpos := (run_with_keeps (hrun.snoc hcall) (fun _ _ => keeps_nonnegTo u _) fun b hb hid =>
    absurd (getBlock_genesisTree hb).1 hid).2
  rw [balance_of_returns hT hcall.1 u]
  refine le_add_of_nonneg_right (List.sum_nonneg fun x hx => ?_)
  obtain ⟨b, hb, rfl⟩ := List.mem_map.mp hx
  obtain ⟨hst, hid, -⟩ := (mem_branch hinv'.shape).mp
    (mem_branch_of_mem_segment hinv'.shape hext.final hb)
  exact add_nonneg (flow_nonneg (hpos b hst hid) (hsend b hb)) (b.reward_nonneg u)

theorem balance_mono_of_nonneg_amounts_settledChain : ∃ T T' : BlockTree,
    T.finalizedBlockId = "0" ∧ T'.finalizedBlockId = minedId 'a' ∧
    T.finalizedBalanceMap.balance bob ≤ T'.finalizedBalanceMap.balance bob := by
  obtain ⟨T, T', hrun, hroot, hcall, -, hT', hfin, hbranch, -⟩ := payments_finalize .debug
    'a' 'A' 'B' 'C' 'D' 'E' 'F' payable_loan (by decide) (by decide) (by decide)
  have hpos : ∀ b ∈ settledChain, ∀ tx ∈ b.txs, tx.receiver = bob → 0 ≤ tx.amount :=
    fun b hb tx htx _ => (tx_settledChain b hb tx htx).1.le
  have hlast : minedBlock 'F' (minedId 'E') (payment 5) ∈ settledChain := by
    simp [settledChain, minedChain, payments]
  obtain ⟨hrun', hT, hos⟩ := run_and_of_delivered
    (P := fun b => ∀ tx ∈ b.txs, tx.receiver = bob → 0 ≤ tx.amount) hrun fun call hmem => by
      obtain ⟨b, hb, rfl⟩ := List.mem_map.mp hmem
      exact hpos b (List.mem_append_left [minedBlock 'F' (minedId 'E') (payment 5)] hb)
  obtain ⟨hcall', -⟩ := hcall.and_of_orphans hT hos (hpos _ hlast)
  refine ⟨T, T', hroot, hfin, balance_mono_of_nonneg_amounts
    (hrun'.mono fun _ _ _ h => h.mono fun _ _ h => h.2) (hcall'.mono fun _ _ h => h.2) ?_⟩
  intro b hb tx htx
  rw [hroot, segment_root hT'.inv.shape, hbranch, List.mem_singleton] at hb
  subst hb
  obtain rfl := List.mem_singleton.mp htx
  decide

/-- A transaction of a negative amount: Alice takes from Bob. -/
theorem debt_collected : ∃ T T', Reachable walletCrates .debug T ∧
    Returns walletCrates .debug T ⟨minedBlock 'p' (minedId 'o') (payment 5), 0, asStored⟩ T' ∧
    (∀ b ∈ T'.segment T.finalizedBlockId T'.finalizedBlockId, ∀ tx ∈ b.txs, tx.sender ≠ bob) ∧
    T.finalizedBalanceMap.balance bob = 0 ∧ T'.finalizedBalanceMap.balance bob = -100 := by
  obtain ⟨T, T', hrun, hroot, hcall, -, hT', -, hbranch, -⟩ := payments_finalize .debug
    'j' 'k' 'l' 'm' 'n' 'o' 'p' payable_debt (by decide) (by decide) (by decide)
  have hreach := reachable_iff.mpr ⟨_, run_of_returnsWith hrun⟩
  refine ⟨T, T', hreach, hcall.1, fun b hb tx htx => ?_, ?_, ?_⟩
  · rw [hroot, segment_root hT'.inv.shape, hbranch, List.mem_singleton] at hb
    subst hb
    obtain rfl := List.mem_singleton.mp htx
    decide
  · have hcredit : ¬ alice = bob := by decide
    rw [(replayed_of_reachable hreach).balance, hroot, replay_root hreach.inv.shape,
      genesisCredit_eq, if_neg hcredit]
  · rw [hT'.replayed.balance, replay, hbranch, bob_after, flow_debt]

end NakamotoNode.Chain
