import NakamotoNode.Chain.Panics

/-! # The balance check at the tip

A block on the working block is checked against the finalized balances, the pending transactions and the
rewards of its ancestors but the first above the finalized block, which the check adds after its verdict.
So what it lets pass is paid for in the replay of the chain (`balance_check_sound`), and what is paid for
passes if it does not need that last reward (`balance_check_complete_iff`). -/

namespace NakamotoNode.Chain
open Foundations Foundations.RustStd
set_option autoImplicit false

namespace BlockTree
variable {C : Crates} {T : BlockTree} {block : BlockNode}

/-! ## The replay, block by block -/

/-- The balances after the blocks from the root to `id`, of each the transactions and then the reward. -/
def history (T : BlockTree) (id : BlockId) : Ledger UserId :=
  (T.branch id).reverse.foldl finalizedBy genesisTree.finalizedBalanceMap

theorem balance_foldl_finalizedBy (bs : List BlockNode) (L : Ledger UserId) (u : UserId) :
    (bs.foldl finalizedBy L).balance u =
      L.balance u + (bs.map fun b => b.flow u + b.reward u).sum := by
  induction bs generalizing L with
  | nil => simp
  | cons b bs ih =>
    rw [List.foldl_cons, ih, balance_finalizedBy, List.map_cons, List.sum_cons]
    omega

theorem balance_history (T : BlockTree) (id : BlockId) (u : UserId) :
    (T.history id).balance u = T.replay id u := by
  have hgenesis : genesisTree.finalizedBalanceMap.balance u = genesisCredit u := by
    rw [genesisCredit_eq, genesisTree, Ledger.balance_insert]
    simp [alice, eq_comm]
  rw [history, balance_foldl_finalizedBy, hgenesis, replay, List.map_reverse, List.sum_reverse]

/-- After the blocks up to its parent the senders of the block hold what they send, each at its turn. -/
def PaidFor (T : BlockTree) (block : BlockNode) : Prop :=
  Funded (T.history block.header.parent).balance (block.txs.map Transaction.transfer)

/-! ## The balances of the check -/

/-- The reward of the block next to the finalized one, on the way up from `id`. -/
def topReward (T : BlockTree) (id : BlockId) (u : UserId) : ℤ :=
  (((T.segment T.finalizedBlockId id).getLast?).elim 0 fun b => b.reward u)

/-- The same without that reward. -/
def PaidForBelow (T : BlockTree) (block : BlockNode) : Prop :=
  Funded (fun u => (T.history block.header.parent).balance u - T.topReward block.header.parent u)
    (block.txs.map Transaction.transfer)

theorem topReward_nonneg (T : BlockTree) (id : BlockId) (u : UserId) : 0 ≤ T.topReward id u := by
  unfold topReward
  cases (T.segment T.finalizedBlockId id).getLast? with
  | none => exact Int.le_refl 0
  | some b => exact b.reward_nonneg u

theorem sum_rewarded (T : BlockTree) (id : BlockId) (u : UserId) :
    ((T.rewarded id).map fun b => b.reward u).sum + T.topReward id u =
      ((T.segment T.finalizedBlockId id).map fun b => b.reward u).sum := by
  unfold rewarded topReward
  rcases List.eq_nil_or_concat (T.segment T.finalizedBlockId id) with hnil | ⟨bs, b, hbs⟩
  · rw [hnil]
    rfl
  · rw [hbs, List.concat_eq_append, List.dropLast_concat, List.getLast?_concat, List.map_append, List.sum_append,
      List.map_singleton, List.sum_singleton]
    rfl

theorem balance_post_rewards (bs : List BlockNode) (L : Ledger UserId) (u : UserId) :
    (L.post (rewardPostings bs)).balance u = L.balance u + (bs.map fun b => b.reward u).sum := by
  rw [Ledger.post, rewardPostings, List.foldl_map]
  exact balance_foldl_reward bs L u

/-- On the working block the check sees the replay but for the top reward. -/
theorem balance_spendable (hT : Inv T) (hI : Replayed C T)
    (hparent : block.header.parent = T.workingBlockId) (u : UserId) :
    (T.spendable block.header.parent).balance u =
      (T.history block.header.parent).balance u - T.topReward block.header.parent u := by
  have hpending := pendingBalance_eq T u
  have hreplay := replay_eq_pending hT hI hT.final.working_below u
  have hrewards := sum_rewarded T T.workingBlockId u
  rw [pendingBalance] at hpending
  rw [balance_history, hparent, spendable, balance_post_rewards, Ledger.balance_foldl_transfer,
    List.map_map]
  simp only [Function.comp_def]
  omega

theorem pays_iff_paidForBelow (hT : Inv T) (hI : Replayed C T)
    (hparent : block.header.parent = T.workingBlockId) : T.Pays block ↔ T.PaidForBelow block := by
  rw [Pays, PaidForBelow, funext (balance_spendable hT hI hparent)]

theorem PaidForBelow.paidFor (h : T.PaidForBelow block) : T.PaidFor block := by
  apply Funded.mono h
  intro t _
  have hnonneg := topReward_nonneg T block.header.parent t.sender
  omega

end BlockTree

open BlockTree

section
variable {C : Crates} {T : BlockTree} {block parentBlock : BlockNode}

/-- In a debug build, for each block on the working block: if the check returns true, each of its
transactions names an amount, which its sender owns at its turn, all blocks up to the parent replayed. -/
theorem balance_check_sound (hT : Reachable C .debug T)
    (hparent : block.header.parent = T.workingBlockId)
    (hpb : T.getBlock block.header.parent = some parentBlock) {fuel : ℕ}
    (hcheck : verifiyTransactionsBalance .debug T block parentBlock fuel = .ok true) :
    (∀ tx ∈ block.txs, tx.Parses) ∧ T.PaidFor block := by
  have hbelow : T.BelowFinal block.header.parent := hparent ▸ hT.inv.final.belowFinal
  have hparse := parses_of_pending hT.inv fun b hb hid => hT.parses hb hid
  obtain ⟨pending, L, L₁, L₂, b, -, -, -, hchecked⟩ := verifiyTransactionsBalance_eq_ok hcheck
  refine ⟨parses_of_checkTxs hchecked, ?_⟩
  have hpays := (pays_iff_of_ok hT.inv hparse hpb hbelow hcheck).2.mp rfl
  exact ((pays_iff_paidForBelow hT.inv (replayed_of_reachable hT) hparent).mp hpays).paidFor

theorem balance_check_true_iff (hT : Reachable C .debug T)
    (hparent : block.header.parent = T.workingBlockId)
    (hpb : T.getBlock block.header.parent = some parentBlock) :
    (∃ fuel, verifiyTransactionsBalance .debug T block parentBlock fuel = .ok true) ↔
      T.PaidForBelow block ∧ CheckFits T block := by
  have hbelow : T.BelowFinal block.header.parent := hparent ▸ hT.inv.final.belowFinal
  have hparse := parses_of_pending hT.inv fun b hb hid => hT.parses hb hid
  rw [← pays_iff_paidForBelow hT.inv (replayed_of_reachable hT) hparent]
  constructor
  · rintro ⟨fuel, hcheck⟩
    obtain ⟨hfits, hiff⟩ := pays_iff_of_ok hT.inv hparse hpb hbelow hcheck
    exact ⟨hiff.mp rfl, hfits⟩
  · rintro ⟨hpays, hfits⟩
    obtain ⟨N, r, -, hrun, hiff⟩ := exists_verdict hT.inv hparse hpb hbelow hfits
    obtain rfl : r = true := hiff.mpr hpays
    exact ⟨N, hrun N (Nat.le_refl N)⟩

/-- In a debug build, for each block on the working block: it passes the check whenever it is paid for in
the replay, if and only if, paid for in the replay, it is so without the reward of the block next to the
finalized one, and the arithmetic of the check stays within `i64`, on amounts that parse. -/
theorem balance_check_complete_iff (hT : Reachable C .debug T)
    (hparent : block.header.parent = T.workingBlockId)
    (hpb : T.getBlock block.header.parent = some parentBlock) :
    (T.PaidFor block →
        ∃ fuel, verifiyTransactionsBalance .debug T block parentBlock fuel = .ok true) ↔
      (T.PaidFor block → T.PaidForBelow block ∧ CheckFits T block) :=
  imp_congr_right fun _ => balance_check_true_iff hT hparent hpb

end

/-! ## Two blocks of the test wallets -/

theorem topReward_root {T : BlockTree} (hT : Shape T) (hfin : T.finalizedBlockId = "0") (id : BlockId)
    (u : UserId) : T.topReward id u = ((T.branch id).getLast?.elim 0 fun b => b.reward u) := by
  rw [topReward, hfin, segment_root hT]

/-- The settled chain but for its last block, which passes the check. -/
theorem last_block_checked : ∃ T parentBlock fuel, Reachable walletCrates .debug T ∧
    T.workingBlockId = minedId 'E' ∧ T.getBlock (minedId 'E') = some parentBlock ∧
    verifiyTransactionsBalance .debug T (minedBlock 'F' (minedId 'E') (payment 5)) parentBlock
      fuel = .ok true := by
  have hnames : ∀ e ∈ ('a', loan) :: payments ['A', 'B', 'C', 'D', 'E'],
      e.1 ≠ '\x7b' ∧ minedId e.1 ≠ "0" := by decide
  have hpay : ∀ e ∈ ('a', loan) :: payments ['A', 'B', 'C', 'D', 'E'], Payable e.2 :=
    List.forall_mem_cons.mpr ⟨payable_loan, payable_payments⟩
  obtain ⟨T, hrun, -, hT⟩ := minedChain_run .debug _ (by decide)
    (fun e he => ⟨(hnames e he).1, (hnames e he).2, hpay e he⟩) (by decide) (by decide)
  have hwork : T.workingBlockId = minedId 'E' := hT.working_eq_head rfl
  have hfits : Fits walletCrates 0 1000 (minedId 'E')
      (minedChain "0" (('a', loan) :: payments ['A', 'B', 'C', 'D', 'E'])).reverse
      (minedBlock 'F' (minedId 'E') (payment 5)) :=
    minedBlock_fits (by decide) (by decide) (payable_payment 5) (by decide) (by decide)
  obtain ⟨-, hacc, -⟩ := hT.insert .debug (by rw [hwork]; exact hfits) (by decide)
  obtain ⟨parentBlock, fuel, hpb, -, hcheck⟩ := hacc.connects
  exact ⟨T, parentBlock, fuel, reachable_iff.mpr ⟨_, run_of_returnsWith hrun⟩, hwork, hpb, hcheck⟩

theorem balance_check_complete_last : ∃ T parentBlock fuel, T.workingBlockId = minedId 'E' ∧
    T.PaidFor (minedBlock 'F' (minedId 'E') (payment 5)) ∧
    verifiyTransactionsBalance .debug T (minedBlock 'F' (minedId 'E') (payment 5)) parentBlock
      fuel = .ok true := by
  obtain ⟨T, parentBlock, fuel, hreach, hwork, hpb, hcheck⟩ := last_block_checked
  obtain ⟨hpaid, hfits⟩ : T.PaidForBelow (minedBlock 'F' (minedId 'E') (payment 5)) ∧
      CheckFits T (minedBlock 'F' (minedId 'E') (payment 5)) :=
    (balance_check_true_iff hreach hwork.symm hpb).mp ⟨fuel, hcheck⟩
  obtain ⟨n, hn⟩ := (balance_check_complete_iff hreach hwork.symm hpb).mpr (fun _ => ⟨hpaid, hfits⟩)
    hpaid.paidFor
  exact ⟨T, parentBlock, n, hwork, hpaid.paidFor, hn⟩

theorem balance_check_sound_last : ∃ T : BlockTree, T.workingBlockId = minedId 'E' ∧
    T.PaidFor (minedBlock 'F' (minedId 'E') (payment 5)) := by
  obtain ⟨T, parentBlock, fuel, hreach, hwork, hpb, hcheck⟩ := last_block_checked
  exact ⟨T, hwork, (balance_check_sound hreach hwork.symm hpb hcheck).2⟩

/-- Charles sends on what he got for the block with the loan. -/
def thanksBlock : BlockNode where
  header :=
    { parent := minedId 'a', merkleRoot := thanks.2, timestamp := 1,
      blockId := "37ad926a8dc9fa9aa946af11a5c40cc6cd9c57988d654686350ea49b6c79ac59",
      nonce := "q", rewardReceiver := charles }
  transactionsBlock := { merkleTree := { hashes := [[thanks.2]] }, transactions := [thanks.1] }

theorem thanks_amount : extractAmount thanks.1.message = .ok 10 := by rfl

section Thanks
variable {T : BlockTree}
  (hT : Tip walletCrates 1000 [minedBlock 'a' "0" loan] [minedBlock 'a' "0" loan] T)
  (hwork : T.workingBlockId = minedId 'a')
include hT hwork

theorem branch_loan : T.branch (minedId 'a') = [minedBlock 'a' "0" loan] := hwork ▸ hT.branch

theorem history_thanks : (T.history (minedId 'a')).balance charles = 10 := by
  have hflow : (minedBlock 'a' "0" loan).flow charles + (minedBlock 'a' "0" loan).reward charles = 10 := by
    decide
  have hcredit : ¬ alice = charles := by decide
  rw [balance_history, replay, branch_loan hT hwork, genesisCredit_eq, if_neg hcredit,
    List.map_singleton, List.sum_singleton, hflow]
  rfl

theorem topReward_thanks : T.topReward (minedId 'a') charles = 10 := by
  rw [topReward_root hT.inv.shape (hT.finalizedBlockId_eq_root (by decide)), branch_loan hT hwork]
  decide

theorem thanks_paidFor : T.PaidFor thanksBlock := by
  refine ⟨?_, trivial⟩
  have hamount : thanks.1.transfer.amount = 10 := Transaction.amount_of_ok thanks_amount
  rw [hamount]
  exact (history_thanks hT hwork).ge

theorem thanks_not_paidForBelow : ¬ T.PaidForBelow thanksBlock := by
  rintro ⟨hle, -⟩
  have hamount : thanks.1.transfer.amount = 10 := Transaction.amount_of_ok thanks_amount
  have hhistory := history_thanks hT hwork
  have htop := topReward_thanks hT hwork
  change thanks.1.transfer.amount ≤
    (T.history (minedId 'a')).balance charles - T.topReward (minedId 'a') charles at hle
  omega

theorem thanks_checkFits : CheckFits T thanksBlock := by
  have hparent : thanksBlock.header.parent ∈ T.allBlocks := by
    change minedId 'a' ∈ T.allBlocks
    rw [← hwork]
    exact hT.inv.final.working_mem
  refine checkFits_of_modest hT.inv hT.modest hparent
    (.inl (hT.finalizedBlockId_eq_root (by decide))) (fun tx htx => ?_) ?_
    (hT.bound_le hparent (by norm_num) (by decide))
  · obtain rfl := List.mem_singleton.mp htx
    exact ⟨_, thanks_amount⟩
  · have hamount := Transaction.amount_of_ok thanks_amount
    change volume [thanks.1] ≤ 1000
    simp [volume, hamount]

end Thanks

/-- The reward of the block with the loan is owned and does not count. -/
theorem reward_refused : ∃ T parentBlock, Reachable walletCrates .debug T ∧
    thanksBlock.header.parent = T.workingBlockId ∧
    T.getBlock thanksBlock.header.parent = some parentBlock ∧ T.PaidFor thanksBlock ∧
    ∃ fuel, verifiyTransactionsBalance .debug T thanksBlock parentBlock fuel = .ok false := by
  obtain ⟨T, hcall, -, hwork, hT⟩ := loan_returns .debug
  have hreach : Reachable walletCrates .debug T := reachable_iff.mpr ⟨_, Run.single hcall.1⟩
  have hparse := parses_of_pending hT.inv fun b hb hid => hreach.parses hb hid
  obtain ⟨parentBlock, hpb⟩ := mem_allBlocks_iff.mp hT.inv.final.working_mem
  rw [hwork] at hpb
  obtain ⟨N, r, -, hrun, hiff⟩ := exists_verdict hT.inv hparse hpb
    (.inl (hT.finalizedBlockId_eq_root (by decide))) (thanks_checkFits hT hwork)
  rw [pays_iff_paidForBelow hT.inv hT.replayed hwork.symm] at hiff
  obtain rfl : r = false :=
    Bool.eq_false_iff.mpr fun h => thanks_not_paidForBelow hT hwork (hiff.mp h)
  exact ⟨T, parentBlock, hreach, hwork.symm, hpb, thanks_paidFor hT hwork, N, hrun N (Nat.le_refl N)⟩

end NakamotoNode.Chain
