import NakamotoNode.Chain.FinalizedBlocks
import NakamotoNode.Node.TxPool

/-! # The refresh of the pool

The chain and the transaction pool are shared by the threads of a node, each under a lock of its own.
The miner thread brings the pool up to date in three locked steps: it reads the pool's last
finalized block, asks the chain for the finalized blocks since, and removes their transactions.
Blocks and transactions arrive between any two of them. `Follows` is what holds in between. -/

namespace NakamotoNode.Node
open Foundations Foundations.RustStd Chain Chain.BlockTree
set_option autoImplicit false

/-- Where the miner thread is in its refresh, with what it has read. -/
inductive Refresh where
  | idle
  | since (sinceBlockId : BlockId)
  | blocks (finalizedBlocks : List BlockNode)

structure Shared where
  chain : BlockTree
  txPool : TxPool
  refresh : Refresh

/-- One locked step. A call of `add_tx` that panics poisons the lock of the pool, which ends the run. -/
inductive Event where
  | addBlock (call : Call)
  | addTx (tx : Transaction)
  | readSince
  | readBlocks
  | removeTxs (finalizedBlocks : List BlockNode)

def Shared.new : Exec Panic Shared :=
  BlockTree.new >>= fun chain => .ok { chain := chain, txPool := TxPool.new, refresh := .idle }

inductive Step (C : Crates) (profile : Profile) : Shared → Event → Shared → Prop
  | addBlock {s : Shared} {call : Call} {chain : BlockTree}
      (h : Returns C profile s.chain call chain) :
      Step C profile s (.addBlock call) { s with chain := chain }
  | addTx {s : Shared} {tx : Transaction} {added : Bool} {txPool : TxPool}
      (h : s.txPool.addTx C tx = .ok (added, txPool)) :
      Step C profile s (.addTx tx) { s with txPool := txPool }
  | readSince {s : Shared} (h : s.refresh = .idle) :
      Step C profile s .readSince { s with refresh := .since s.txPool.lastFinalizedBlockId }
  | readBlocks {s : Shared} {sinceBlockId : BlockId} {finalizedBlocks : List BlockNode} {fuel : ℕ}
      (h : s.refresh = .since sinceBlockId)
      (hblocks : s.chain.getFinalizedBlocksSince sinceBlockId fuel = .ok finalizedBlocks) :
      Step C profile s .readBlocks { s with refresh := .blocks finalizedBlocks }
  | removeTxs {s : Shared} {finalizedBlocks : List BlockNode}
      (h : s.refresh = .blocks finalizedBlocks) :
      Step C profile s (.removeTxs finalizedBlocks)
        { s with
          txPool := s.txPool.removeTxsFromFinalizedBlocks C finalizedBlocks
          refresh := .idle }

/-- The blocks that a step hands to the pool. -/
def Event.handed : Event → List BlockNode
  | .removeTxs finalizedBlocks => finalizedBlocks
  | _ => []

/-- The blocks that the refreshes of a run hand to the pool, in their order. -/
def handed (events : List Event) : List BlockNode := events.flatMap Event.handed

theorem handed_append (events later : List Event) :
    handed (events ++ later) = handed events ++ handed later := List.flatMap_append

theorem handed_snoc (events : List Event) (e : Event) :
    handed (events ++ [e]) = handed events ++ e.handed := by
  rw [handed_append, handed, handed, List.flatMap_singleton]

theorem handed_snoc_of_nil (events : List Event) {e : Event} (he : e.handed = []) :
    handed (events ++ [e]) = handed events := by
  rw [handed_snoc, he, List.append_nil]

variable {C : Crates} {profile : Profile} {s s' : Shared} {events : List Event} {e : Event}

/-! ## The invariant -/

/-- What the miner thread has read is where the pool stands, or leads from there to a block that is
final. -/
def Shared.Pending (s : Shared) : Prop :=
  match s.refresh with
  | .idle => True
  | .since sinceBlockId => sinceBlockId = s.txPool.lastFinalizedBlockId
  | .blocks finalizedBlocks => ∃ f, s.chain.Descends s.txPool.lastFinalizedBlockId f ∧
      s.chain.Descends f s.chain.finalizedBlockId ∧
      finalizedBlocks = (s.chain.segment s.txPool.lastFinalizedBlockId f).reverse

structure Follows (C : Crates) (events : List Event) (s : Shared) : Prop where
  chain : BlockTree.Inv s.chain
  finalTxIds : FinalTxIds C s.chain
  txPool : TxPool.Inv C s.txPool
  last : s.chain.Descends s.txPool.lastFinalizedBlockId s.chain.finalizedBlockId
  path : handed events = (s.chain.branch s.txPool.lastFinalizedBlockId).reverse
  removed : ∀ id, TxPool.HasTx C (handed events) id → id ∈ s.txPool.removedTxIds
  pending : s.Pending

theorem Shared.new_eq :
    Shared.new = .ok { chain := genesisTree, txPool := TxPool.new, refresh := .idle } := by
  rw [Shared.new, BlockTree.new_eq]
  rfl

theorem follows_new : Follows C [] { chain := genesisTree, txPool := TxPool.new, refresh := .idle } where
  chain := inv_genesisTree
  finalTxIds := finalTxIds_genesisTree C
  txPool := TxPool.inv_new C
  last := .refl _
  path := by
    show [] = (genesisTree.branch "0").reverse
    rw [branch_root shape_genesisTree, List.reverse_nil]
  removed := fun _ h => by
    obtain ⟨b, hb, -⟩ := h
    exact absurd hb (by simp [handed])
  pending := trivial

namespace Follows

theorem last_mem (h : Follows C events s) : s.txPool.lastFinalizedBlockId ∈ s.chain.allBlocks :=
  h.chain.shape.mem_of_descends h.chain.final.final_mem h.last

theorem addBlock {call : Call} {chain : BlockTree} (h : Follows C events s)
    (hcall : Returns C profile s.chain call chain) :
    Follows C (events ++ [.addBlock call]) { s with chain := chain } := by
  obtain ⟨hchain, hext⟩ := extends_of_run h.chain (Run.single hcall)
  have hids := (returns_keeps (keeps_finalTxIds _) (returnsWith_true hcall) h.chain h.finalTxIds).2
  have hshape := h.chain.shape
  have hevents := handed_snoc_of_nil events (e := .addBlock call) rfl
  refine ⟨hchain, hids, h.txPool, (hext.descends h.last).trans hext.final, ?_, ?_, ?_⟩
  · rw [hevents, hext.branch_eq hshape hchain.shape h.last_mem]
    exact h.path
  · rw [hevents]
    exact h.removed
  · have hpending := h.pending
    rw [Shared.Pending] at hpending ⊢
    dsimp only
    split at hpending
    · trivial
    · exact hpending
    · obtain ⟨f, hlast, hfinal, hblocks⟩ := hpending
      refine ⟨f, hext.descends hlast, (hext.descends hfinal).trans hext.final, ?_⟩
      rw [hblocks, hext.segment_eq hshape hchain.shape
        (hshape.mem_of_descends h.chain.final.final_mem hfinal) hlast]

theorem addTx {tx : Transaction} {added : Bool} {txPool : TxPool} (h : Follows C events s)
    (hadd : s.txPool.addTx C tx = .ok (added, txPool)) :
    Follows C (events ++ [.addTx tx]) { s with txPool := txPool } := by
  obtain ⟨hlast, hremoved⟩ := TxPool.addTx_last hadd
  have hevents := handed_snoc_of_nil events (e := .addTx tx) rfl
  refine ⟨h.chain, h.finalTxIds, h.txPool.addTx hadd, ?_, ?_, ?_, ?_⟩
  · rw [hlast]
    exact h.last
  · rw [hevents, hlast]
    exact h.path
  · rw [hevents, hremoved]
    exact h.removed
  · have hpending := h.pending
    rw [Shared.Pending] at hpending ⊢
    dsimp only
    rw [hlast]
    exact hpending

theorem readSince (h : Follows C events s) : Follows C (events ++ [.readSince])
    { s with refresh := .since s.txPool.lastFinalizedBlockId } := by
  have hevents := handed_snoc_of_nil events (e := .readSince) rfl
  exact ⟨h.chain, h.finalTxIds, h.txPool, h.last, hevents ▸ h.path, hevents ▸ h.removed, rfl⟩

theorem read_eq {sinceBlockId : BlockId} {finalizedBlocks : List BlockNode} {fuel : ℕ}
    (h : Follows C events s) (hrefresh : s.refresh = .since sinceBlockId)
    (hblocks : s.chain.getFinalizedBlocksSince sinceBlockId fuel = .ok finalizedBlocks) :
    finalizedBlocks =
      (s.chain.segment s.txPool.lastFinalizedBlockId s.chain.finalizedBlockId).reverse := by
  have hpending := h.pending
  rw [Shared.Pending, hrefresh] at hpending
  rw [hpending] at hblocks
  exact (getFinalizedBlocksSince_eq_ok_iff h.chain h.last).mp ⟨fuel, hblocks⟩

theorem readBlocks {sinceBlockId : BlockId} {finalizedBlocks : List BlockNode} {fuel : ℕ}
    (h : Follows C events s) (hrefresh : s.refresh = .since sinceBlockId)
    (hblocks : s.chain.getFinalizedBlocksSince sinceBlockId fuel = .ok finalizedBlocks) :
    Follows C (events ++ [.readBlocks]) { s with refresh := .blocks finalizedBlocks } := by
  have hevents := handed_snoc_of_nil events (e := .readBlocks) rfl
  exact ⟨h.chain, h.finalTxIds, h.txPool, h.last, hevents ▸ h.path, hevents ▸ h.removed,
    s.chain.finalizedBlockId, h.last, .refl _, h.read_eq hrefresh hblocks⟩

/-- The pool moves to the last of the blocks it is handed. -/
theorem last_removeTxs (h : Follows C events s) {f : BlockId}
    (hlast : s.chain.Descends s.txPool.lastFinalizedBlockId f) :
    (s.txPool.removeTxsFromFinalizedBlocks C
      (s.chain.segment s.txPool.lastFinalizedBlockId f).reverse).lastFinalizedBlockId = f := by
  rcases segment_cases h.chain.shape hlast with ⟨hfl, hnil⟩ | ⟨b, l, hcons, hb⟩
  · rw [hnil]
    exact hfl.symm
  · rw [hcons, List.reverse_cons, TxPool.last_removeTxsFromFinalizedBlocks, hb]

theorem removeTxs {finalizedBlocks : List BlockNode} (h : Follows C events s)
    (hrefresh : s.refresh = .blocks finalizedBlocks) :
    Follows C (events ++ [.removeTxs finalizedBlocks])
      { s with
        txPool := s.txPool.removeTxsFromFinalizedBlocks C finalizedBlocks
        refresh := .idle } := by
  have hpending := h.pending
  rw [Shared.Pending, hrefresh] at hpending
  obtain ⟨f, hlast, hfinal, rfl⟩ := hpending
  have hmoved := h.last_removeTxs hlast
  have hevents := handed_snoc events
    (.removeTxs (s.chain.segment s.txPool.lastFinalizedBlockId f).reverse)
  unfold Event.handed at hevents
  obtain ⟨-, -, hremoved⟩ := TxPool.removeTxsFromFinalizedBlocks_spec (C := C)
    (s.chain.segment s.txPool.lastFinalizedBlockId f).reverse s.txPool
  refine ⟨h.chain, h.finalTxIds, h.txPool.remove _, ?_, ?_, fun id hid => ?_, trivial⟩
  · dsimp only
    rw [hmoved]
    exact hfinal
  · dsimp only
    rw [hmoved, hevents, h.path, ← List.reverse_append,
      branch_eq_segment_append h.chain.shape hlast]
  · dsimp only
    rw [hremoved]
    obtain ⟨b, hb, htx⟩ := hid
    rw [hevents, List.mem_append] at hb
    rcases hb with hb | hb
    · exact .inl (h.removed id ⟨b, hb, htx⟩)
    · exact .inr ⟨b, hb, htx⟩

theorem step (h : Follows C events s) (hstep : Step C profile s e s') :
    Follows C (events ++ [e]) s' := by
  cases hstep with
  | addBlock hcall => exact h.addBlock hcall
  | addTx hadd => exact h.addTx hadd
  | readSince => exact h.readSince
  | readBlocks hrefresh hblocks => exact h.readBlocks hrefresh hblocks
  | removeTxs hrefresh => exact h.removeTxs hrefresh

theorem run (h : Follows C events s) {later : List Event}
    (hrun : Run (Step C profile) s later s') : Follows C (events ++ later) s' := by
  induction hrun with
  | nil =>
    rw [List.append_nil]
    exact h
  | snoc _ hstep ih =>
    rw [← List.append_assoc]
    exact ih.step hstep

end Follows

theorem Follows.extends (h : Follows C events s) {later : List Event}
    (hrun : Run (Step C profile) s later s') : Extends s.chain s'.chain := by
  refine (hrun.invariant (I := fun t => (∃ events, Follows C events t) ∧ Extends s.chain t.chain)
    ?_ ⟨⟨events, h⟩, .refl _⟩).2
  rintro t e t' ⟨⟨events', ht⟩, hext⟩ hstep
  refine ⟨⟨_, ht.step hstep⟩, ?_⟩
  cases hstep with
  | addBlock hcall => exact hext.trans (extends_of_run ht.chain (Run.single hcall)).2
  | addTx => exact hext
  | readSince => exact hext
  | readBlocks => exact hext
  | removeTxs => exact hext

theorem follows_of_run {s₀ : Shared} (h₀ : Shared.new = .ok s₀)
    (hrun : Run (Step C profile) s₀ events s) : Follows C events s := by
  rw [Shared.new_eq] at h₀
  obtain rfl := Except.ok.inj h₀
  exact follows_new.run hrun

/-! ## A refresh that no block interrupts -/

/-- What the miner thread has read leads to the finalized block. -/
def Shared.Current (s : Shared) : Prop :=
  match s.refresh with
  | .blocks finalizedBlocks => finalizedBlocks =
      (s.chain.segment s.txPool.lastFinalizedBlockId s.chain.finalizedBlockId).reverse
  | _ => True

namespace Follows

theorem current_step (h : Follows C events s) (hs : s.Current) (hstep : Step C profile s e s')
    (he : ∀ call, e ≠ .addBlock call) : s'.Current := by
  cases hstep with
  | addBlock => exact absurd rfl (he _)
  | addTx hadd =>
    rw [Shared.Current] at hs ⊢
    dsimp only
    rw [(TxPool.addTx_last hadd).1]
    exact hs
  | readSince => trivial
  | readBlocks hrefresh hblocks => exact h.read_eq hrefresh hblocks
  | removeTxs => trivial

theorem current_run (h : Follows C events s) (hs : s.Current) {later : List Event}
    (hrun : Run (Step C profile) s later s') (hlater : ∀ call, Event.addBlock call ∉ later) :
    s'.Current := by
  have hguarded := hrun.guarded_of_forall (P := fun e => ∀ call, e ≠ .addBlock call)
    fun e he call hcall => hlater call (hcall ▸ he)
  refine (hguarded.invariant (I := fun s => (∃ events, Follows C events s) ∧ s.Current) ?_
    ⟨⟨events, h⟩, hs⟩).2
  rintro t e t' ⟨⟨events', ht⟩, hcur⟩ ⟨hstep, he⟩
  exact ⟨⟨_, ht.step hstep⟩, ht.current_step hcur hstep he⟩

/-- The finalized transactions that were removed, and are not in the pool, once it has caught up. -/
theorem finalTxIds_subset (h : Follows C events s)
    (hlast : s.txPool.lastFinalizedBlockId = s.chain.finalizedBlockId) :
    s.chain.finalizedTxIds ⊆ s.txPool.removedTxIds := by
  intro id hid
  rw [h.finalTxIds, List.mem_toFinset, List.mem_map] at hid
  obtain ⟨tx, htx, rfl⟩ := hid
  obtain ⟨b, hb, htx⟩ := List.mem_flatMap.mp htx
  refine h.removed _ ⟨b, ?_, tx, htx, rfl⟩
  rw [h.path, hlast, List.mem_reverse]
  exact hb

end Follows

/-- In every run of the calls of `add_block` and `add_tx` and the steps of the refresh: the pool's
last finalized block is on the path to the chain's, and the chain answers when it is asked for the
blocks since; the blocks handed to the pool are those of the path up to its last finalized block, each
once and in the order of the chain; the ids of their transactions are removed. A refresh whose
removal sees the chain its read has seen leaves the pool at the finalized block, with every finalized
id removed and none in the pool. -/
theorem pool_follows_chain {s₀ : Shared} (h₀ : Shared.new = .ok s₀)
    (hrun : Run (Step C profile) s₀ events s) :
    s.chain.Descends s.txPool.lastFinalizedBlockId s.chain.finalizedBlockId ∧
    s.chain.AnswersSince s.txPool.lastFinalizedBlockId ∧
    (∀ sinceBlockId, s.refresh = .since sinceBlockId → s.chain.AnswersSince sinceBlockId) ∧
    handed events = (s.chain.branch s.txPool.lastFinalizedBlockId).reverse ∧
    (handed events).Nodup ∧
    handed events <+: (s.chain.branch s.chain.finalizedBlockId).reverse ∧
    (∀ b, s.chain.Stored b → b.header.blockId ≠ s.chain.rootId →
      s.chain.Descends b.header.blockId s.txPool.lastFinalizedBlockId →
      ∀ tx ∈ b.txs, tx.genHash C ∈ s.txPool.removedTxIds) ∧
    ∀ {s₁ s₂ s₃ : Shared} {later : List Event} {finalizedBlocks : List BlockNode},
      Step C profile s .readBlocks s₁ → Run (Step C profile) s₁ later s₂ →
      (∀ call, Event.addBlock call ∉ later) → Step C profile s₂ (.removeTxs finalizedBlocks) s₃ →
      s₃.txPool.lastFinalizedBlockId = s₃.chain.finalizedBlockId ∧
      handed (events ++ [.readBlocks] ++ later ++ [.removeTxs finalizedBlocks]) =
        (s₃.chain.branch s₃.chain.finalizedBlockId).reverse ∧
      s₃.chain.finalizedTxIds ⊆ s₃.txPool.removedTxIds ∧
      ∀ id ∈ s₃.txPool.poolTxIds, id ∉ s₃.chain.finalizedTxIds := by
  have h := follows_of_run h₀ hrun
  have hshape := h.chain.shape
  refine ⟨h.last, answersSince h.chain h.last, fun sinceBlockId hsince => ?_, h.path, ?_, ?_,
    fun b hb hroot hdesc tx htx => ?_, ?_⟩
  · have hpending := h.pending
    rw [Shared.Pending, hsince] at hpending
    rw [hpending]
    exact answersSince h.chain h.last
  · rw [h.path]
    exact List.nodup_reverse.mpr (branch_nodup hshape h.last_mem)
  · rw [h.path, branch_eq_segment_append hshape h.last, List.reverse_append]
    exact List.prefix_append _ _
  · refine h.removed _ ⟨b, ?_, tx, htx, rfl⟩
    rw [hshape.root_id] at hroot
    rw [h.path, List.mem_reverse]
    exact (mem_branch hshape).mpr ⟨hb, hroot, hdesc⟩
  · intro s₁ s₂ s₃ later finalizedBlocks hread hlater hno hremove
    have h₁ := h.step hread
    have h₂ := h₁.run hlater
    have hcurrent : s₁.Current := by
      cases hread with
      | readBlocks hrefresh hblocks => exact h.read_eq hrefresh hblocks
    have hcurrent₂ := h₁.current_run hcurrent hlater hno
    have h₃ := h₂.step hremove
    have hlast : s₃.txPool.lastFinalizedBlockId = s₃.chain.finalizedBlockId := by
      cases hremove with
      | removeTxs hrefresh =>
        rw [Shared.Current, hrefresh] at hcurrent₂
        dsimp only at hcurrent₂ ⊢
        rw [hcurrent₂]
        exact h₂.last_removeTxs h₂.last
    refine ⟨hlast, ?_, h₃.finalTxIds_subset hlast, fun id hid hfin => ?_⟩
    · rw [h₃.path, hlast]
    · exact h₃.txPool.kept id hid (h₃.finalTxIds_subset hlast hfin)

/-! ## A run with a refresh -/

theorem run_addBlocks {T T' : BlockTree} {calls : List Call}
    (hrun : Run (Returns C profile) T calls T') (P : TxPool) (refresh : Refresh) :
    Run (Step C profile) { chain := T, txPool := P, refresh := refresh }
      (calls.map .addBlock) { chain := T', txPool := P, refresh := refresh } :=
  hrun.map (fun T => Shared.mk T P refresh) Event.addBlock fun _ _ _ hcall => Step.addBlock hcall

/-- The pool after a refresh that nothing interrupts. -/
def Shared.refreshed (C : Crates) (s : Shared) : Shared :=
  { s with
    txPool := s.txPool.removeTxsFromFinalizedBlocks C
      (s.chain.segment s.txPool.lastFinalizedBlockId s.chain.finalizedBlockId).reverse }

theorem Follows.refreshes (h : Follows C events s) (profile : Profile)
    (hidle : s.refresh = .idle) : ∃ s₁ s₂,
    Step C profile s .readSince s₁ ∧ Step C profile s₁ .readBlocks s₂ ∧
    Step C profile s₂ (.removeTxs
      (s.chain.segment s.txPool.lastFinalizedBlockId s.chain.finalizedBlockId).reverse)
      (s.refreshed C) := by
  obtain ⟨fuel, hblocks⟩ := (getFinalizedBlocksSince_eq_ok_iff h.chain h.last).mpr rfl
  refine ⟨_, _, .readSince hidle, .readBlocks rfl hblocks, ?_⟩
  have hstep : Step C profile { s with refresh := .blocks (s.chain.segment
      s.txPool.lastFinalizedBlockId s.chain.finalizedBlockId).reverse } _ _ := Step.removeTxs rfl
  rw [← hidle] at hstep
  exact hstep

theorem pool_follows_settledChain : ∃ (s : Shared) (events : List Event),
    s.txPool.lastFinalizedBlockId = minedId 'a' ∧ handed events = [minedBlock 'a' "0" loan] ∧
    s.chain.finalizedTxIds ⊆ s.txPool.removedTxIds ∧ loan.2 ∈ s.txPool.removedTxIds := by
  obtain ⟨T, hrun, -, -, hfin, hbranch⟩ := settledChain_run .debug
  have hrun₀ := run_addBlocks (run_of_returnsWith hrun) TxPool.new .idle
  obtain ⟨s₁, s₂, hsince, hread, hremove⟩ :=
    Follows.refreshes (follows_of_run Shared.new_eq hrun₀) .debug rfl
  obtain ⟨-, -, -, -, -, -, -, hfresh⟩ := pool_follows_chain Shared.new_eq (hrun₀.snoc hsince)
  obtain ⟨hlast, hhanded, hids, -⟩ := hfresh hread (.nil _) (by simp) hremove
  have hall := follows_of_run Shared.new_eq (((hrun₀.snoc hsince).snoc hread).snoc hremove)
  have hchain : (Shared.refreshed walletCrates ⟨T, TxPool.new, .idle⟩).chain = T := rfl
  rw [List.append_nil, hchain, hbranch, List.reverse_singleton] at hhanded
  refine ⟨_, _, hlast.trans hfin, hhanded, hids,
    hall.removed _ ⟨minedBlock 'a' "0" loan, ?_, loan.1, List.mem_singleton_self _, genHash_loan⟩⟩
  rw [hhanded]
  exact List.mem_singleton_self _

end NakamotoNode.Node
