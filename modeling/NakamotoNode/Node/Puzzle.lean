import NakamotoNode.Chain.Integrity
import NakamotoNode.Chain.Panics
import NakamotoNode.Node.Refresh

/-! # Puzzles

`create_puzzle` of `bin_nakamoto/src/nakamoto.rs` and what a solution of its puzzle is: the miner puts
the solution's nonce and hash into the block of the puzzle and adds it to its own chain. The block
passes the checks of a single block (`completed_integrity`); whether its senders can pay is not looked
at before (`own_block_stored_iff`). -/

namespace NakamotoNode.Node
open Foundations Foundations.RustStd Chain Chain.BlockTree
set_option autoImplicit false

/-- The places where `create_puzzle` can panic. -/
inductive PuzzlePanic where
  /-- in the chain, or in the Merkle tree -/
  | chain (e : Panic)
  /-- `filter_tx`: `pool_tx_map.get(tx_id).unwrap()` -/
  | poolTx
  deriving DecidableEq, Repr

section
variable (C : Crates)

/-- `create_puzzle` after its reads: the puzzle and the block, less its nonce and its id. -/
def puzzleOf (workingBlockId : BlockId) (rewardReceiver : UserId) (filteredTx : List Transaction) :
    Exec Panic (String × BlockNode) :=
  createMerkleTree C filteredTx >>= fun (merkleRoot, merkleTree) =>
  let puzzle : Puzzle :=
    { rewardReceiver := rewardReceiver, merkleRoot := merkleRoot, parent := workingBlockId }
  let preBlock : BlockNode :=
    { header :=
        { parent := workingBlockId, merkleRoot := merkleRoot, timestamp := 1, blockId := "",
          nonce := "", rewardReceiver := rewardReceiver }
      transactionsBlock := { merkleTree := merkleTree, transactions := filteredTx } }
  .ok (puzzle.toJson C, preBlock)

/-- `create_puzzle`, the chain and the pool staying as they are between its reads. -/
def createPuzzle (chain : BlockTree) (txPool : TxPool) (txCount : ℕ) (rewardReceiver : UserId)
    (fuel : ℕ) : Exec PuzzlePanic (String × BlockNode) :=
  let workingBlockId := chain.workingBlockId
  Exec.mapPanic .chain (chain.getPendingFinalizationTxs fuel) >>= fun excludingTxs =>
  Exec.unwrap .poolTx (txPool.filterTx txCount excludingTxs) >>= fun filteredTx =>
  Exec.mapPanic .chain (puzzleOf C workingBlockId rewardReceiver filteredTx)

structure PuzzleSolution where
  puzzle : String
  nonce : String
  hash : BlockId
  deriving DecidableEq, Repr

/-- One try of a worker of `solve_puzzle`. -/
def tryNonce (leadingZeroLen : ℕ) (puzzle nonce : String) : Option PuzzleSolution :=
  let challenge := nonce ++ puzzle
  let answer := C.sha256Hex challenge
  if startsWith answer (String.ofList (List.replicate leadingZeroLen '0')) then
    some { puzzle := puzzle, nonce := nonce, hash := answer }
  else none

end

/-- The block of the puzzle with the solution filled in. -/
def completed (preBlock : BlockNode) (solution : PuzzleSolution) : BlockNode :=
  { preBlock with
    header := { preBlock.header with blockId := solution.hash, nonce := solution.nonce } }

variable {C : Crates} {profile : Profile} {s : Shared} {events : List Event}
  {preBlock : BlockNode} {puzzle nonce : String} {solution : PuzzleSolution} {z txCount fuel : ℕ}
  {rewardReceiver : UserId}

/-! ## What the puzzle is about -/

theorem puzzleOf_eq_ok {workingBlockId : BlockId} {filteredTx : List Transaction}
    (h : puzzleOf C workingBlockId rewardReceiver filteredTx = .ok (puzzle, preBlock)) :
    preBlock.header.parent = workingBlockId ∧ preBlock.txs = filteredTx ∧
      puzzle = preBlock.puzzle.toJson C ∧
      createMerkleTree C filteredTx =
        .ok (preBlock.header.merkleRoot, preBlock.transactionsBlock.merkleTree) := by
  obtain ⟨⟨root, tree⟩, hmerkle, h⟩ := Exec.bind_eq_ok.mp h
  obtain ⟨rfl, rfl⟩ := Prod.mk.inj (Except.ok.inj h)
  exact ⟨rfl, rfl, rfl, hmerkle⟩

theorem createPuzzle_eq_ok (h : createPuzzle C s.chain s.txPool txCount rewardReceiver fuel =
    .ok (puzzle, preBlock)) : ∃ excludingTxs filteredTx,
      s.chain.getPendingFinalizationTxs fuel = .ok excludingTxs ∧
      s.txPool.filterTx txCount excludingTxs = some filteredTx ∧
      puzzleOf C s.chain.workingBlockId rewardReceiver filteredTx = .ok (puzzle, preBlock) := by
  obtain ⟨excludingTxs, hpending, h⟩ := Exec.bind_eq_ok.mp h
  obtain ⟨filteredTx, hfilter, h⟩ := Exec.bind_eq_ok.mp h
  exact ⟨excludingTxs, filteredTx, Exec.mapPanic_eq_ok.mp hpending, Exec.unwrap_eq_ok.mp hfilter,
    Exec.mapPanic_eq_ok.mp h⟩

theorem tryNonce_eq_some (h : tryNonce C z puzzle nonce = some solution) :
    solution.puzzle = puzzle ∧ solution.hash = C.sha256Hex (solution.nonce ++ puzzle) ∧
      startsWith solution.hash (String.ofList (List.replicate z '0')) = true := by
  rw [tryNonce] at h
  split at h
  · next hzeros =>
    obtain rfl := Option.some.inj h
    exact ⟨rfl, rfl, hzeros⟩
  · exact absurd h (by simp)

theorem allVerifySig_of_forall {txs : List Transaction} (h : ∀ tx ∈ txs, tx.verifySig C = .ok true) :
    allVerifySig C txs = .ok true := by
  induction txs with
  | nil => rfl
  | cons tx txs ih =>
    rw [allVerifySig, h tx List.mem_cons_self, Exec.ok_bind, if_pos rfl]
    exact ih fun tx' htx' => h tx' (List.mem_cons_of_mem _ htx')

/-- A solved puzzle gives a block that passes the checks of a single block. -/
theorem completed_integrity (hsigs : ∀ tx ∈ preBlock.txs, tx.verifySig C = .ok true)
    (hhash : solution.hash = C.sha256Hex (solution.nonce ++ preBlock.puzzle.toJson C))
    (hzeros : startsWith solution.hash (String.ofList (List.replicate z '0')) = true) :
    verifyBlockIntegrity C (completed preBlock solution) z = .ok true := by
  have hid : (completed preBlock solution).header.blockId =
      (completed preBlock solution).computedBlockId C := hhash
  have hlead : (completed preBlock solution).validLeadingZeroLen z = true := hzeros
  exact verifyBlockIntegrity_eq_true.mpr ⟨hid, hlead, allVerifySig_of_forall hsigs⟩

/-! ## The chain of a node -/

theorem reachable_of_run {s₀ : Shared} (h₀ : Shared.new = .ok s₀)
    (hrun : Run (Step C profile) s₀ events s) : Reachable C profile s.chain := by
  rw [Shared.new_eq] at h₀
  obtain rfl := Except.ok.inj h₀
  refine hrun.invariant (I := fun s => Reachable C profile s.chain) (fun t e t' ht hstep => ?_)
    reachable_genesisTree
  cases hstep with
  | addBlock hcall => exact ht.returns hcall
  | addTx => exact ht
  | readSince => exact ht
  | readBlocks => exact ht
  | removeTxs => exact ht

/-- In a debug build, for every chain and pool that a node reaches: the block that completes its own
puzzle is stored by its own chain exactly when it is there already, or it is new, no ancestor below
the first block has its Merkle root, its senders hold what it sends, each at its turn, and the
arithmetic of the checks stays in range on amounts that parse. -/
theorem own_block_stored_iff {s₀ : Shared} (h₀ : Shared.new = .ok s₀)
    (hrun : Run (Step C .debug) s₀ events s)
    (hpuzzle : createPuzzle C s.chain s.txPool txCount rewardReceiver fuel = .ok (puzzle, preBlock))
    (hsolved : tryNonce C z puzzle nonce = some solution) (order : IterOrder) :
    (∃ chain, Returns C .debug s.chain ⟨completed preBlock solution, z, order⟩ chain ∧
      chain.Stored (completed preBlock solution)) ↔
    s.chain.Stored (completed preBlock solution) ∨
      (solution.hash ∉ s.chain.allBlocks ∧ solution.hash ∉ s.chain.orphans ∧
        (∀ b, s.chain.Stored b → s.chain.Descends b.header.blockId s.chain.workingBlockId →
          b.header.parent ≠ "0" → preBlock.header.merkleRoot ≠ b.header.merkleRoot) ∧
        s.chain.Pays (completed preBlock solution) ∧
        ∀ chain b, Checks C z order s.chain (completed preBlock solution) chain b →
          Sound chain b) := by
  have h := follows_of_run h₀ hrun
  obtain ⟨excludingTxs, filteredTx, -, hfilter, hof⟩ := createPuzzle_eq_ok hpuzzle
  obtain ⟨hparent, htxs, rfl, -⟩ := puzzleOf_eq_ok hof
  have hsigs : ∀ tx ∈ preBlock.txs, tx.verifySig C = .ok true := fun tx htx =>
    (TxPool.mem_filterTx h.txPool hfilter (htxs ▸ htx)).2.2
  obtain ⟨-, hhash, hzeros⟩ := tryNonce_eq_some hsolved
  have hint := completed_integrity hsigs hhash hzeros
  have hparent' : (completed preBlock solution).header.parent = s.chain.workingBlockId := hparent
  rw [returns_stored_iff (reachable_of_run h₀ hrun) (signed_of_integrity hint) order]
  refine or_congr_right ⟨?_, ?_⟩
  · rintro ⟨hcand, horphan, hpays, hall⟩
    exact ⟨hcand.fresh, horphan, hparent' ▸ hcand.roots, hpays, hall⟩
  · rintro ⟨hfresh, horphan, hroots, hpays, hall⟩
    refine ⟨⟨hfresh, hint, ?_, ?_⟩, horphan, hpays, hall⟩
    · rw [hparent']
      exact h.chain.final.working_mem
    · rw [hparent']
      exact hroots

/-! ## Puzzles of one transaction -/

/-- The block of a puzzle of one transaction. -/
def unminedBlock (parent : BlockId) (entry : Transaction × TxId) : BlockNode where
  header :=
    { parent := parent, merkleRoot := entry.2, timestamp := 1, blockId := "", nonce := "",
      rewardReceiver := charles }
  transactionsBlock := { merkleTree := { hashes := [[entry.2]] }, transactions := [entry.1] }

def minedSolution (nonce : Char) (parent : BlockId) (entry : Transaction × TxId) :
    PuzzleSolution where
  puzzle := (unminedBlock parent entry).puzzle.toJson walletCrates
  nonce := String.singleton nonce
  hash := minedId nonce

theorem completed_unminedBlock (nonce : Char) (parent : BlockId) (entry : Transaction × TxId) :
    completed (unminedBlock parent entry) (minedSolution nonce parent entry) =
      minedBlock nonce parent entry := rfl

theorem puzzleOf_single (parent : BlockId) {entry : Transaction × TxId}
    (hentry : entry.1.genHash walletCrates = entry.2) :
    puzzleOf walletCrates parent charles [entry.1] =
      .ok ((unminedBlock parent entry).puzzle.toJson walletCrates, unminedBlock parent entry) := by
  have hmerkle : createMerkleTree walletCrates [entry.1] = .ok (entry.2, ⟨[[entry.2]]⟩) := by
    rw [createMerkleTree, if_neg (by simp), List.map_singleton, hentry, merkleLevels,
      if_neg (by simp)]
    rfl
  rw [puzzleOf, hmerkle]
  rfl

theorem tryNonce_mined {c : Char} (hc : c ≠ '\x7b') (parent : BlockId)
    (entry : Transaction × TxId) :
    tryNonce walletCrates 0 ((unminedBlock parent entry).puzzle.toJson walletCrates)
      (String.singleton c) = some (minedSolution c parent entry) := by
  have hid := computedBlockId_minedBlock hc parent entry
  have hhash : walletCrates.sha256Hex (String.singleton c ++
      (unminedBlock parent entry).puzzle.toJson walletCrates) = minedId c := hid
  rw [tryNonce, hhash]
  exact if_pos (by simp [startsWith])

/-- A new pool that has taken these transactions. -/
def poolOf (entries : List (Transaction × TxId)) : TxPool :=
  { TxPool.new with
    poolTxMap := entries.foldl (fun txs entry => txs.insert entry.2 entry.1) TxPool.new.poolTxMap
    poolTxIds := entries.map Prod.snd }

/-- A new pool with one transaction. -/
def poolWith (entry : Transaction × TxId) : TxPool := poolOf [entry]

section Pools
variable {entries : List (Transaction × TxId)} {entry : Transaction × TxId}

theorem poolOf_snoc : poolOf (entries ++ [entry]) = { poolOf entries with
    poolTxMap := (poolOf entries).poolTxMap.insert entry.2 entry.1
    poolTxIds := (poolOf entries).poolTxIds ++ [entry.2] } := by
  simp [poolOf, List.foldl_append]

theorem mem_poolOf {id : TxId} : id ∈ (poolOf entries).poolTxMap ↔ id ∈ entries.map Prod.snd := by
  induction entries using List.reverseRecOn with
  | nil => exact iff_of_false (AList.notMem_empty id) List.not_mem_nil
  | append_singleton entries entry ih =>
    rw [poolOf_snoc, AList.mem_insert, ih, List.map_append, List.mem_append, or_comm]
    exact or_congr_right List.mem_singleton.symm

theorem mem_poolWith (entry : Transaction × TxId) : entry.2 ∈ (poolWith entry).poolTxMap :=
  mem_poolOf.mpr (List.mem_singleton.mpr rfl)

theorem txs_poolOf (h : (entries.map Prod.snd).Nodup) :
    (poolOf entries).txs = entries.map Prod.fst := by
  induction entries using List.reverseRecOn with
  | nil => rfl
  | append_singleton entries entry ih =>
    rw [List.map_append] at h
    obtain ⟨hentries, -, hnot⟩ := List.nodup_append.mp h
    -- the entries before keep their transactions, since their ids are others
    have hold : ∀ id ∈ (poolOf entries).poolTxIds,
        (poolOf (entries ++ [entry])).poolTxMap.lookup id = (poolOf entries).poolTxMap.lookup id := by
      intro id hid
      rw [poolOf_snoc]
      exact AList.lookup_insert_ne (hnot id hid entry.2 (List.mem_singleton.mpr rfl))
    have hnew : (poolOf (entries ++ [entry])).poolTxMap.lookup entry.2 = some entry.1 := by
      rw [poolOf_snoc]
      exact AList.lookup_insert _
    have hids : (poolOf (entries ++ [entry])).poolTxIds =
        (poolOf entries).poolTxIds ++ [entry.2] := by rw [poolOf_snoc]
    rw [TxPool.txs, hids, List.filterMap_append, List.filterMap_congr hold,
      List.filterMap_cons_some (f := fun id => AList.lookup id _) hnew, List.filterMap_nil,
      List.map_append, List.map_singleton, ← ih hentries]
    rfl

theorem addTx_poolOf (hmem : entry ∈ wallet) (hentry : entry.1.genHash walletCrates = entry.2)
    (hnew : entry.2 ∉ entries.map Prod.snd) (hlen : entries.length < maxTxPool) :
    (poolOf entries).addTx walletCrates entry.1 = .ok (true, poolOf (entries ++ [entry])) := by
  have hfresh : entry.2 ∉ (poolOf entries).poolTxMap := mt mem_poolOf.mp hnew
  have hkept : entry.2 ∉ (poolOf entries).removedTxIds := Finset.notMem_empty _
  have hroom : (poolOf entries).poolTxIds.length < maxTxPool := by
    change (entries.map Prod.snd).length < maxTxPool
    rwa [List.length_map]
  rw [TxPool.addTx, verifySig_of_wallet hmem, Exec.ok_bind, hentry, poolOf_snoc]
  exact if_pos (by simp [hfresh, hkept, hroom])

theorem filterTx_poolOf (h : (entries.map Prod.snd).Nodup) (maxCount : ℕ)
    (excludingTxs : List Transaction) : (poolOf entries).filterTx maxCount excludingTxs =
      some (if 0 < maxCount then
        ((entries.map Prod.fst).filter fun tx => tx ∉ excludingTxs).take maxCount
      else (entries.map Prod.fst).filter fun tx => tx ∉ excludingTxs) := by
  rw [← txs_poolOf h]
  exact TxPool.filterFrom_eq (fun id hid => mem_poolOf.mpr hid) []

theorem addTx_poolWith (hmem : entry ∈ wallet) (hentry : entry.1.genHash walletCrates = entry.2) :
    TxPool.new.addTx walletCrates entry.1 = .ok (true, poolWith entry) :=
  show (poolOf []).addTx walletCrates entry.1 = .ok (true, poolOf ([] ++ [entry])) from
    addTx_poolOf hmem hentry List.not_mem_nil (by decide)

theorem filterTx_poolWith {excludingTxs : List Transaction} (hnot : entry.1 ∉ excludingTxs) :
    (poolWith entry).filterTx 1 excludingTxs = some [entry.1] := by
  have hids : ([entry].map Prod.snd).Nodup := List.nodup_singleton entry.2
  rw [poolWith, filterTx_poolOf hids, if_pos Nat.one_pos, List.map_singleton,
    List.filter_cons_of_pos (by simpa using hnot)]
  rfl

end Pools

theorem createPuzzle_poolWith {entry : Transaction × TxId}
    (hentry : entry.1.genHash walletCrates = entry.2) :
    createPuzzle walletCrates genesisTree (poolWith entry) 1 charles 1 =
      .ok ((unminedBlock "0" entry).puzzle.toJson walletCrates, unminedBlock "0" entry) := by
  have hpending : genesisTree.getPendingFinalizationTxs 1 = .ok [] := rfl
  rw [createPuzzle, hpending, Exec.mapPanic_ok, Exec.ok_bind,
    filterTx_poolWith List.not_mem_nil, Exec.unwrap_some, Exec.ok_bind,
    show genesisTree.workingBlockId = "0" from rfl, puzzleOf_single "0" hentry]
  rfl

theorem run_addTx {entry : Transaction × TxId} (hmem : entry ∈ wallet)
    (hentry : entry.1.genHash walletCrates = entry.2) (profile : Profile) :
    Run (Step walletCrates profile) ⟨genesisTree, TxPool.new, .idle⟩ [.addTx entry.1]
      ⟨genesisTree, poolWith entry, .idle⟩ :=
  Run.single (Step.addTx (addTx_poolWith hmem hentry))

/-! ## A block that its senders can pay, and one that they cannot -/

theorem own_block_stored_loan : ∃ chain,
    Returns walletCrates .debug genesisTree ⟨minedBlock 'a' "0" loan, 0, asStored⟩ chain ∧
      chain.Stored (minedBlock 'a' "0" loan) := by
  have hcand := candidate_genesisTree (c := 'a') (by decide) (by decide) payable_loan.signed
  have hiff := own_block_stored_iff Shared.new_eq (run_addTx payable_loan.signed genHash_loan .debug)
    (createPuzzle_poolWith genHash_loan) (tryNonce_mined (c := 'a') (by decide) "0" loan) asStored
  rw [completed_unminedBlock] at hiff
  refine hiff.mpr (.inr ⟨hcand.fresh, by simp [genesisTree], hcand.roots, ⟨?_, trivial⟩,
    fun T b hchecks => ?_⟩)
  · have hle : loan.1.amount ≤ (genesisTree.spendable "0").balance alice := by
      rw [spendable_genesisTree, genesisCredit_eq, if_pos rfl, Transaction.amount_of_ok loan_amount]
      decide
    exact hle
  · obtain ⟨rfl, rfl⟩ := checks_genesisTree hchecks
    exact sound_genesisTree rfl loan_fits.parses loan_fits.volume_le

/-- Bob owns nothing, but the pool takes his transaction, and the miner makes a block of it that its
own chain does not take. -/
theorem own_block_rejected :
    Shared.new = .ok ⟨genesisTree, TxPool.new, .idle⟩ ∧
    Run (Step walletCrates .debug) ⟨genesisTree, TxPool.new, .idle⟩ [.addTx spend.1]
      ⟨genesisTree, poolWith spend, .idle⟩ ∧
    createPuzzle walletCrates genesisTree (poolWith spend) 1 charles 1 =
      .ok ((unminedBlock "0" spend).puzzle.toJson walletCrates, unminedBlock "0" spend) ∧
    tryNonce walletCrates 0 ((unminedBlock "0" spend).puzzle.toJson walletCrates)
      (String.singleton 'b') =
      some (minedSolution 'b' "0" spend) ∧
    completed (unminedBlock "0" spend) (minedSolution 'b' "0" spend) = minedBlock 'b' "0" spend ∧
    Returns walletCrates .debug genesisTree ⟨minedBlock 'b' "0" spend, 0, asStored⟩ genesisTree ∧
    ¬ ∃ chain, Returns walletCrates .debug genesisTree ⟨minedBlock 'b' "0" spend, 0, asStored⟩
      chain ∧ chain.Stored (minedBlock 'b' "0" spend) := by
  have hmem : spend ∈ wallet := by simp [wallet]
  have hcand := candidate_genesisTree (c := 'b') (by decide) (by decide) hmem
  have hamount : spend.1.amount = 100 := Transaction.amount_of_ok spend_amount
  have hcall : Returns walletCrates .debug genesisTree ⟨minedBlock 'b' "0" spend, 0, asStored⟩
      genesisTree := by
    refine returns_unpaid reachable_genesisTree hcand (by simp [genesisTree]) (.inl rfl)
      (sound_genesisTree rfl ?_ ?_).check ?_ asStored
    · intro tx htx
      obtain rfl := List.mem_singleton.mp htx
      exact ⟨_, spend_amount⟩
    · change volume [spend.1] ≤ 1000
      simp [volume, hamount]
    · rintro ⟨hle, -⟩
      have hle' : spend.1.amount ≤ (genesisTree.spendable "0").balance bob := hle
      rw [spendable_genesisTree, genesisCredit_eq, if_neg (by decide)] at hle'
      omega
  refine ⟨Shared.new_eq, run_addTx hmem genHash_spend .debug, createPuzzle_poolWith genHash_spend,
    tryNonce_mined (by decide) "0" spend, rfl, hcall, ?_⟩
  rintro ⟨chain, hreturns, hst⟩
  obtain rfl := returns_unique hcall hreturns
  exact hcand.fresh (mem_of_getBlock hst)

end NakamotoNode.Node
