import NakamotoNode.Chain.Shape
import NakamotoNode.Chain.Balances

/-! # The walks along parent links

`verify_block_ancestry`, `get_pending_finalization_txs`, the reward walk of
`verifiy_transactions_balance` and the six steps of `finalize_block` all climb from a stored block.
For each: what it can return and which panics it can end in (`_sat`), a fuel that is enough
(`_ne_outOfFuel`), and that more fuel changes nothing (`growing_`). -/

namespace NakamotoNode.Chain
open Foundations Foundations.RustStd
set_option autoImplicit false

/-- A single path: `p` is the parent of the first block, and each block that of the next. -/
def IsPath : BlockId → List BlockNode → Prop
  | _, [] => True
  | p, b :: bs => b.header.parent = p ∧ IsPath b.header.blockId bs

theorem IsPath.parent_mem {p : BlockId} {bs : List BlockNode} (h : IsPath p bs) {c : BlockNode}
    (hc : c ∈ bs) : c.header.parent = p ∨ ∃ b ∈ bs, b.header.blockId = c.header.parent := by
  induction bs generalizing p with
  | nil => exact absurd hc (by simp)
  | cons b bs ih =>
    rcases List.mem_cons.mp hc with rfl | hc
    · exact .inl h.1
    · rcases ih h.2 hc with he | ⟨b', hb', he⟩
      · exact .inr ⟨b, by simp, he.symm⟩
      · exact .inr ⟨b', by simp [hb'], he⟩

theorem isPath_append_cons {p : BlockId} {b : BlockNode} {bs bs' : List BlockNode} :
    IsPath p (bs ++ b :: bs') ↔ IsPath p (bs ++ [b]) ∧ IsPath b.header.blockId bs' := by
  induction bs generalizing p with
  | nil => simp [IsPath]
  | cons b' bs ih => simp only [List.cons_append, IsPath, ih, and_assoc]

namespace BlockTree

/-- The block is in the tree, under its own id. -/
def Stored (T : BlockTree) (b : BlockNode) : Prop := T.getBlock b.header.blockId = some b

/-- `n` blocks upwards, `id` first. -/
def branchFrom (T : BlockTree) : ℕ → BlockId → List BlockNode
  | 0, _ => []
  | n + 1, id =>
      match T.getBlock id with
      | some b => b :: T.branchFrom n b.header.parent
      | none => []

/-- The blocks on the path from `id` up to the root, the root left out. -/
def branch (T : BlockTree) (id : BlockId) : List BlockNode := T.branchFrom (T.depthOf id) id

/-- The blocks on the path from `id` up to `a`, `a` left out. -/
def segment (T : BlockTree) (a id : BlockId) : List BlockNode :=
  T.branchFrom (T.depthOf id - T.depthOf a) id

variable {T : BlockTree}

namespace Shape

theorem stored_of_getBlock (h : Shape T) {id : BlockId} {b : BlockNode}
    (hb : T.getBlock id = some b) : b.header.blockId = id ∧ T.Stored b := by
  have hid := h.all_keyed id b hb
  refine ⟨hid, ?_⟩
  rw [Stored, hid, hb]

theorem stored_eq_genesis (h : Shape T) {b : BlockNode} (hb : T.Stored b)
    (hid : b.header.blockId = "0") : b = BlockNode.genesisBlock :=
  h.getBlock_root_parent (hid ▸ hb)

theorem ne_root_of_parent_ne (h : Shape T) {b : BlockNode} (hb : T.Stored b)
    (hp : b.header.parent ≠ "0") : b.header.blockId ≠ "0" := by
  intro hid
  obtain rfl := h.stored_eq_genesis hb hid
  exact hp rfl

theorem stored_parent (h : Shape T) {b : BlockNode} (hb : T.Stored b)
    (hid : b.header.blockId ≠ "0") :
    ∃ pb, T.getBlock b.header.parent = some pb ∧ T.Stored pb ∧
      pb.header.blockId = b.header.parent ∧
      T.parentOf b.header.blockId = some pb.header.blockId := by
  obtain ⟨pb, hpb⟩ := mem_allBlocks_iff.mp (h.parent_mem _ b hb hid)
  obtain ⟨hpid, hpst⟩ := h.stored_of_getBlock hpb
  exact ⟨pb, hpb, hpst, hpid, by rw [hpid]; exact h.parentOf_of_getBlock hb hid⟩

theorem stored_parent_of_descends (h : Shape T) {b : BlockNode} (hb : T.Stored b) {a : BlockId}
    (hab : T.Descends a b.header.blockId) (hne : b.header.blockId ≠ a) :
    ∃ pb, T.getBlock b.header.parent = some pb ∧ T.Stored pb ∧
      pb.header.blockId = b.header.parent ∧
      T.parentOf b.header.blockId = some pb.header.blockId ∧ T.Descends a pb.header.blockId := by
  have hroot : b.header.blockId ≠ "0" := by
    intro he
    rw [he] at hab hne
    exact hne (h.eq_root_of_descends hab).symm
  obtain ⟨pb, hpb, hpst, hpid, hparent⟩ := h.stored_parent hb hroot
  exact ⟨pb, hpb, hpst, hpid, hparent,
    ((Forest.descends_iff_of_parent hparent).mp hab).resolve_left hne⟩

theorem stored_mem {b : BlockNode} (hb : T.Stored b) : b.header.blockId ∈ T.allBlocks :=
  mem_of_getBlock hb

end Shape

/-! ## Branches -/

theorem branchFrom_congr {T' : BlockTree} (hall : T'.allBlocks = T.allBlocks) :
    ∀ (n : ℕ) (id : BlockId), T'.branchFrom n id = T.branchFrom n id
  | 0, _ => rfl
  | n + 1, id => by
      rw [branchFrom, branchFrom, getBlock, hall, ← getBlock]
      cases T.getBlock id with
      | none => rfl
      | some b => exact congrArg (b :: ·) (branchFrom_congr hall n _)

theorem branch_congr {T' : BlockTree} (hall : T'.allBlocks = T.allBlocks)
    (hdepth : T'.blockDepth = T.blockDepth) (id : BlockId) : T'.branch id = T.branch id := by
  rw [branch, branch, depthOf, hdepth, ← depthOf]
  exact branchFrom_congr hall _ id

theorem branch_withOrphans (os : AList fun _ : BlockId => BlockNode) :
    BlockTree.branch { T with orphans := os } = T.branch := funext (branch_congr rfl rfl)

theorem branchFrom_succ_eq_append (h : Shape T) :
    ∀ (n : ℕ) (id a : BlockId) (b : BlockNode), Forest.climb T.parentOf n id = some a →
      T.getBlock a = some b → T.branchFrom (n + 1) id = T.branchFrom n id ++ [b]
  | 0, id, a, b, hclimb, hb => by
      obtain rfl : id = a := Option.some.inj hclimb
      simp [branchFrom, hb]
  | n + 1, id, a, b, hclimb, hb => by
      obtain ⟨p, hp, hclimb⟩ := Option.bind_eq_some_iff.mp hclimb
      obtain ⟨hid, c, hc, rfl⟩ := h.parentOf_eq_some.mp hp
      rw [branchFrom, hc, branchFrom, hc]
      simp only [List.cons_append, List.cons.injEq, true_and]
      exact branchFrom_succ_eq_append h n _ a b hclimb hb

theorem branch_of_parent (h : Shape T) {id : BlockId} {b : BlockNode} (hb : T.getBlock id = some b)
    (hid : id ≠ "0") : T.branch id = b :: T.branch b.header.parent := by
  rw [branch, h.depth_succ id b hb hid, branchFrom, hb]
  rfl

@[simp] theorem branch_root (h : Shape T) : T.branch "0" = [] := by
  rw [branch, h.depthOf_root]
  rfl

theorem segment_root (h : Shape T) (id : BlockId) : T.segment "0" id = T.branch id := by
  rw [segment, h.depthOf_root, Nat.sub_zero, branch]

theorem segment_self (a : BlockId) : T.segment a a = [] := by
  rw [segment, Nat.sub_self]
  rfl

theorem branchFrom_climb_succ (h : Shape T) {w : BlockId} {b : BlockNode} (hb : T.Stored b)
    (hdesc : T.Descends b.header.blockId w) {k : ℕ}
    (hk : T.depthOf b.header.blockId = k + 1) :
    T.branchFrom (T.depthOf w - k) w =
      T.branchFrom (T.depthOf w - T.depthOf b.header.blockId) w ++ [b] := by
  have hle := h.graded.le hdesc
  rw [show T.depthOf w - k = (T.depthOf w - T.depthOf b.header.blockId) + 1 by omega]
  exact branchFrom_succ_eq_append h _ _ _ b (h.graded.climb_of_descends hdesc) hb

theorem segment_of_parent (h : Shape T) {a id : BlockId} {b : BlockNode}
    (hb : T.getBlock id = some b) (hid : id ≠ "0") (hle : T.depthOf a ≤ T.depthOf b.header.parent) :
    T.segment a id = b :: T.segment a b.header.parent := by
  rw [segment, h.depth_succ id b hb hid, Nat.succ_sub hle, branchFrom, hb]
  rfl

theorem branch_eq_segment_append (h : Shape T) {a id : BlockId} (hdesc : T.Descends a id) :
    T.branch id = T.segment a id ++ T.branch a := by
  induction hdesc using Relation.ReflTransGen.head_induction_on with
  | refl => rw [segment_self, List.nil_append]
  | @head x p hp hpa ih =>
    obtain ⟨hx, b, hb, rfl⟩ := h.parentOf_eq_some.mp hp
    have hseg := segment_of_parent h hb hx (h.graded.le hpa)
    rw [branch_of_parent h hb hx, ih, hseg, List.cons_append]

theorem length_branch (h : Shape T) {id : BlockId} (hid : id ∈ T.allBlocks) :
    (T.branch id).length = T.depthOf id := by
  induction hd : T.depthOf id generalizing id with
  | zero => rw [branch, hd, branchFrom, List.length_nil]
  | succ n ih =>
    have hroot : id ≠ "0" := by
      rintro rfl
      rw [h.depthOf_root] at hd
      omega
    obtain ⟨b, hb⟩ := mem_allBlocks_iff.mp hid
    have hdepth := h.depth_succ id b hb hroot
    rw [branch_of_parent h hb hroot, List.length_cons,
      ih (h.parent_mem id b hb hroot) (by omega)]

theorem mem_branch (h : Shape T) {id : BlockId} {b : BlockNode} :
    b ∈ T.branch id ↔ T.Stored b ∧ b.header.blockId ≠ "0" ∧ T.Descends b.header.blockId id := by
  induction hd : T.depthOf id generalizing id with
  | zero =>
    rw [branch, hd, branchFrom]
    simp only [List.not_mem_nil, false_iff]
    rintro ⟨hb, hid, hdesc⟩
    have := h.graded.le hdesc
    have := h.depth_succ _ b hb hid
    omega
  | succ n ih =>
    have hroot : id ≠ "0" := by
      rintro rfl
      rw [h.depthOf_root] at hd
      omega
    cases hget : T.getBlock id with
    | none =>
      rw [branch, hd, branchFrom, hget]
      simp only [List.not_mem_nil, false_iff]
      rintro ⟨hb, -, hdesc⟩
      have hnone : T.parentOf id = none := by
        rw [parentOf, hget]
        split <;> rfl
      have hid := (Forest.descends_root_iff hnone).mp hdesc
      rw [hid, hb] at hget
      exact absurd hget (by simp)
    | some c =>
      have hp := h.parentOf_of_getBlock hget hroot
      have hdepth := h.depth_succ id c hget hroot
      have hc := h.stored_of_getBlock hget
      have hiff : T.Descends b.header.blockId id ↔
          id = b.header.blockId ∨ T.Descends b.header.blockId c.header.parent :=
        Forest.descends_iff_of_parent hp
      rw [branch_of_parent h hget hroot, List.mem_cons, ih (by omega), hiff]
      constructor
      · rintro (rfl | ⟨hb, hid, hdesc⟩)
        · exact ⟨hc.2, hc.1 ▸ hroot, .inl hc.1.symm⟩
        · exact ⟨hb, hid, .inr hdesc⟩
      · rintro ⟨hb, hid, hself | hdesc⟩
        · rw [Stored, ← hself, hget] at hb
          exact .inl (Option.some.inj hb).symm
        · exact .inr ⟨hb, hid, hdesc⟩

theorem mem_branch_of_mem_segment (h : Shape T) {a id : BlockId} (hdesc : T.Descends a id)
    {b : BlockNode} (hb : b ∈ T.segment a id) : b ∈ T.branch id := by
  rw [branch_eq_segment_append h hdesc]
  exact List.mem_append_left _ hb

/-! ## `verify_block_ancestry` -/

theorem growing_verifyBlockAncestry (T : BlockTree) (m : String) (pb : BlockNode) :
    Exec.Growing (T.verifyBlockAncestry m pb) := Exec.growing_loop _ _

/-- The walk tells whether every ancestor at depth two or more has another Merkle root. -/
theorem verifyBlockAncestry_sat (h : Shape T) {pb : BlockNode} (hpb : T.Stored pb) (m : String)
    (fuel : ℕ) :
    Exec.Sat (T.verifyBlockAncestry m pb fuel)
      (fun r => r = true ↔ ∀ b, T.Stored b → T.Descends b.header.blockId pb.header.blockId →
        b.header.parent ≠ "0" → m ≠ b.header.merkleRoot)
      (fun _ => False) := by
  -- the blocks deeper than the current one have been compared
  refine Exec.Sat.loop (I := fun c => T.Stored c ∧
    T.Descends c.header.blockId pb.header.blockId ∧
    ∀ b, T.Stored b → T.Descends b.header.blockId pb.header.blockId →
      T.depthOf c.header.blockId < T.depthOf b.header.blockId → m ≠ b.header.merkleRoot)
    ?_ fuel pb ⟨hpb, .refl _, fun b _ hdesc hlt => absurd (h.graded.le hdesc) (by omega)⟩
  rintro c ⟨hc, hcdesc, hdone⟩
  split
  · next hparent =>
    rw [h.root_id] at hparent
    split
    · next hm => exact ⟨fun hr => absurd hr (by simp), fun hall => absurd hm (hall c hc hcdesc hparent)⟩
    · next hm =>
      have hroot := h.ne_root_of_parent_ne hc hparent
      obtain ⟨d, hd, hdst, hdid, hdp⟩ := h.stored_parent hc hroot
      rw [hd]
      refine ⟨hdst, Forest.Descends.trans (.of_parent hdp) hcdesc, fun b hb hbdesc hlt => ?_⟩
      have hdepth := h.graded _ _ hdp
      rcases Nat.lt_or_ge (T.depthOf c.header.blockId) (T.depthOf b.header.blockId) with hlt' | hge
      · exact hdone b hb hbdesc hlt'
      · have hid : b.header.blockId = c.header.blockId :=
          h.graded.unique hbdesc hcdesc (by omega)
        rw [Stored, hid, hc] at hb
        rw [← Option.some.inj hb]
        exact hm
  · next hparent =>
    rw [h.root_id, not_not] at hparent
    refine ⟨fun _ b hb hbdesc hbparent => ?_, fun _ => rfl⟩
    have hbroot := h.ne_root_of_parent_ne hb hbparent
    rcases Nat.lt_or_ge (T.depthOf c.header.blockId) (T.depthOf b.header.blockId) with hlt | hge
    · exact hdone b hb hbdesc hlt
    · -- the current block is a child of the root or the root itself
      have hbc : T.Descends b.header.blockId c.header.blockId :=
        h.graded.descends_of_le hbdesc hcdesc hge
      by_cases hcroot : c.header.blockId = "0"
      · rw [hcroot] at hbc
        exact absurd (h.eq_root_of_descends hbc) hbroot
      · have hp := h.parentOf_of_getBlock hc hcroot
        rw [hparent] at hp
        rcases (Forest.descends_iff_of_parent hp).mp hbc with hself | hbr
        · rw [Stored, ← hself, hc] at hb
          rw [← Option.some.inj hb] at hbparent
          exact absurd hparent hbparent
        · exact absurd (h.eq_root_of_descends hbr) hbroot

theorem verifyBlockAncestry_ne_outOfFuel (h : Shape T) {pb : BlockNode} (hpb : T.Stored pb)
    (m : String) {fuel : ℕ} (hfuel : T.depthOf pb.header.blockId < fuel) :
    T.verifyBlockAncestry m pb fuel ≠ Exec.outOfFuel := by
  refine Exec.loop_ne_outOfFuel (I := T.Stored) (fun c => T.depthOf c.header.blockId)
    (fun c _ => ?_) (fun c c' hc hbody => ?_) fuel pb hpb hfuel
  · split
    · split
      · exact Exec.ok_ne_outOfFuel _
      · exact Exec.bind_ne_outOfFuel (Exec.unwrap_ne_outOfFuel _ _) fun _ _ =>
          Exec.ok_ne_outOfFuel _
    · exact Exec.ok_ne_outOfFuel _
  · split at hbody
    · next hparent =>
      rw [h.root_id] at hparent
      split at hbody
      · exact absurd (Except.ok.inj hbody) (by simp)
      · obtain ⟨d, hd, hdst, hdid, hdp⟩ := h.stored_parent hc (h.ne_root_of_parent_ne hc hparent)
        rw [hd] at hbody
        obtain rfl : d = c' := Sum.inl.inj (Except.ok.inj hbody)
        have := h.graded _ _ hdp
        exact ⟨hdst, by omega⟩
    · exact absurd (Except.ok.inj hbody) (by simp)

/-! ## `get_pending_finalization_txs` -/

theorem growing_getPendingFinalizationTxs (T : BlockTree) :
    Exec.Growing T.getPendingFinalizationTxs :=
  (Exec.growing_const _).bind fun _ => Exec.growing_loop _ _

/-- The walk from the working block ends at the finalized block, wherever that is above it. -/
theorem getPendingFinalizationTxs_sat (h : Shape T) (hw : T.workingBlockId ∈ T.allBlocks)
    (hdesc : T.Descends T.finalizedBlockId T.workingBlockId) (fuel : ℕ) :
    Exec.Sat (T.getPendingFinalizationTxs fuel)
      (fun r => r = (T.segment T.finalizedBlockId T.workingBlockId).flatMap BlockNode.txs)
      (fun _ => False) := by
  obtain ⟨w, hget⟩ := mem_allBlocks_iff.mp hw
  obtain ⟨hwid, hwst⟩ := h.stored_of_getBlock hget
  rw [getPendingFinalizationTxs, hget, Exec.unwrap_some, Exec.ok_bind]
  refine Exec.Sat.loop (I := fun s => T.Stored s.2 ∧
    T.Descends s.2.header.blockId T.workingBlockId ∧
    T.Descends T.finalizedBlockId s.2.header.blockId ∧
    s.1 = (T.branchFrom (T.depthOf T.workingBlockId - T.depthOf s.2.header.blockId)
      T.workingBlockId).flatMap BlockNode.txs) ?_ fuel ([], w) ⟨hwst, ?_, ?_, ?_⟩
  · rintro ⟨txs, b⟩ ⟨hb, hbw, hfb, htxs⟩
    dsimp only at hb hbw hfb htxs ⊢
    split
    · next hne =>
      obtain ⟨d, hd, hdst, -, hdp, hfd⟩ := h.stored_parent_of_descends hb hfb hne
      rw [hd]
      refine ⟨hdst, Forest.Descends.trans (.of_parent hdp) hbw, hfd, ?_⟩
      dsimp only
      rw [branchFrom_climb_succ h hb hbw (h.graded _ _ hdp), List.flatMap_append, htxs]
      simp
    · next he =>
      rw [not_not] at he
      change txs = _
      rw [htxs, he, segment]
  · rw [hwid]
    exact .refl _
  · rw [hwid]
    exact hdesc
  · simp [hwid, branchFrom]

theorem getPendingFinalizationTxs_ne_outOfFuel (h : Shape T)
    (hdesc : T.Descends T.finalizedBlockId T.workingBlockId) {fuel : ℕ}
    (hfuel : T.depthOf T.workingBlockId < fuel) :
    T.getPendingFinalizationTxs fuel ≠ Exec.outOfFuel := by
  unfold getPendingFinalizationTxs
  refine Exec.bind_ne_outOfFuel (Exec.unwrap_ne_outOfFuel _ _) fun w hw => ?_
  obtain ⟨hwid, hwst⟩ := h.stored_of_getBlock (Exec.unwrap_eq_ok.mp hw)
  refine Exec.loop_ne_outOfFuel (I := fun s : List Transaction × BlockNode =>
      T.Stored s.2 ∧ T.Descends T.finalizedBlockId s.2.header.blockId)
    (fun s => T.depthOf s.2.header.blockId) (fun s _ => ?_) (fun s s' hs hbody => ?_) fuel
    ([], w) ⟨hwst, by rw [hwid]; exact hdesc⟩ (by dsimp only; rw [hwid]; exact hfuel)
  · dsimp only
    split
    · exact Exec.bind_ne_outOfFuel (Exec.unwrap_ne_outOfFuel _ _) fun _ _ =>
        Exec.ok_ne_outOfFuel _
    · exact Exec.ok_ne_outOfFuel _
  · obtain ⟨txs, b⟩ := s
    obtain ⟨hb, hfb⟩ := hs
    dsimp only at hb hfb hbody ⊢
    split at hbody
    · next hne =>
      obtain ⟨d, hd, hdst, -, hdp, hfd⟩ := h.stored_parent_of_descends hb hfb hne
      rw [hd] at hbody
      obtain rfl : (txs ++ b.txs, d) = s' := Sum.inl.inj (Except.ok.inj hbody)
      have := h.graded _ _ hdp
      exact ⟨⟨hdst, hfd⟩, by
        dsimp only
        omega⟩
    · exact absurd (Except.ok.inj hbody) (by simp)

/-! ## The reward walk -/

/-- The reward walk meets the finalized block on its way up from `id`. -/
def BelowFinal (T : BlockTree) (id : BlockId) : Prop :=
  T.finalizedBlockId = "0" ∨ (T.Descends T.finalizedBlockId id ∧ id ≠ T.finalizedBlockId)

theorem BelowFinal.descends (h : Shape T) {id : BlockId} (hid : id ∈ T.allBlocks)
    (hbelow : T.BelowFinal id) : T.Descends T.finalizedBlockId id := by
  rcases hbelow with hf | ⟨hf, -⟩
  · rw [hf]
    exact h.descends_root hid
  · exact hf

theorem BelowFinal.step (h : Shape T) {b : BlockNode} (hb : T.Stored b)
    (hbelow : T.BelowFinal b.header.blockId) (hne : b.header.parent ≠ T.finalizedBlockId) :
    ∃ d, T.getBlock b.header.parent = some d ∧ T.Stored d ∧ T.BelowFinal d.header.blockId ∧
      T.parentOf b.header.blockId = some d.header.blockId := by
  have hroot : b.header.blockId ≠ "0" := by
    intro he
    obtain rfl := h.stored_eq_genesis hb he
    rcases hbelow with hf | ⟨hf, hf'⟩
    · exact hne hf.symm
    · exact hf' (h.eq_root_of_descends hf).symm
  obtain ⟨d, hd, hdst, hdid, hdp⟩ := h.stored_parent hb hroot
  refine ⟨d, hd, hdst, hbelow.imp_right fun hf => ⟨?_, ?_⟩, hdp⟩
  · exact ((Forest.descends_iff_of_parent hdp).mp hf.1).resolve_left hf.2
  · rw [hdid]
    exact hne

/-- The end of the walk is a child of the finalized block. -/
theorem belowFinal_of_parent (h : Shape T) {b : BlockNode} (hb : T.Stored b)
    (hparent : b.header.parent = T.finalizedBlockId) {id : BlockId}
    (hdesc : T.Descends b.header.blockId id) : T.BelowFinal id := by
  by_cases hroot : b.header.blockId = "0"
  · obtain rfl := h.stored_eq_genesis hb hroot
    exact .inl hparent.symm
  · have hp := h.parentOf_of_getBlock hb hroot
    rw [hparent] at hp
    refine .inr ⟨Forest.Descends.trans (.of_parent hp) hdesc, fun he => ?_⟩
    have h₁ := h.graded _ _ hp
    have h₂ := h.graded.le hdesc
    rw [he] at h₂
    omega

theorem growing_addRewards (profile : Profile) (T : BlockTree) (L : Ledger UserId)
    (pb : BlockNode) : Exec.Growing (addRewards profile T L pb) := Exec.growing_loop _ _

/-- A walk that ends has met the finalized block, and no lookup fails on the way. -/
theorem addRewards_sat (h : Shape T) {profile : Profile} {pb : BlockNode} (hpb : T.Stored pb)
    (L : Ledger UserId) (fuel : ℕ) :
    Exec.Sat (addRewards profile T L pb fuel) (fun _ => T.BelowFinal pb.header.blockId)
      (fun e => profile = .debug ∧ e = .balanceOverflow) := by
  refine Exec.Sat.loop (I := fun s : Ledger UserId × BlockNode => T.Stored s.2 ∧
    T.Descends s.2.header.blockId pb.header.blockId) ?_ fuel (L, pb) ⟨hpb, .refl _⟩
  rintro ⟨L, b⟩ ⟨hb, hbdesc⟩
  dsimp only at hb hbdesc ⊢
  split
  · refine (addBalance_sat profile L _ 10).bind fun L' _ => ?_
    by_cases hroot : b.header.blockId = "0"
    · -- the genesis block is its own parent
      obtain rfl := h.stored_eq_genesis hb hroot
      have hget : T.getBlock BlockNode.genesisBlock.header.parent =
          some BlockNode.genesisBlock := h.root_block
      rw [hget]
      exact ⟨hb, hbdesc⟩
    · obtain ⟨d, hd, hdst, hdid, hdp⟩ := h.stored_parent hb hroot
      rw [hd]
      exact ⟨hdst, Forest.Descends.trans (.of_parent hdp) hbdesc⟩
  · next hfin => exact belowFinal_of_parent h hb (not_not.mp hfin) hbdesc

/-- The rewards a debug walk adds: those of some blocks from `pb` upwards. -/
theorem addRewards_debug (h : Shape T) {pb b : BlockNode} (hpb : T.Stored pb)
    {L L' : Ledger UserId} {fuel : ℕ}
    (hrun : addRewards .debug T L pb fuel = .ok (L', b)) :
    ∃ n, n ≤ T.depthOf pb.header.blockId - T.depthOf T.finalizedBlockId ∧
      L' = (T.branchFrom n pb.header.blockId).foldl
        (fun L b => L.credit b.header.rewardReceiver 10) L := by
  have hbelow := (addRewards_sat h hpb L fuel).of_ok hrun
  have hsat : Exec.Sat (addRewards .debug T L pb fuel) (fun r => ∃ n,
      n ≤ T.depthOf pb.header.blockId - T.depthOf T.finalizedBlockId ∧
      r.1 = (T.branchFrom n pb.header.blockId).foldl
        (fun L b => L.credit b.header.rewardReceiver 10) L) (fun _ => True) := by
    refine Exec.Sat.loop (I := fun s : Ledger UserId × BlockNode => T.Stored s.2 ∧
      T.BelowFinal s.2.header.blockId ∧ T.Descends s.2.header.blockId pb.header.blockId ∧
      s.1 = (T.branchFrom (T.depthOf pb.header.blockId - T.depthOf s.2.header.blockId)
        pb.header.blockId).foldl (fun L b => L.credit b.header.rewardReceiver 10) L)
      ?_ fuel (L, pb) ⟨hpb, hbelow, .refl _, by simp [branchFrom]⟩
    rintro ⟨L₁, b⟩ ⟨hb, hbelow, hbdesc, hL₁⟩
    dsimp only at hb hbelow hbdesc hL₁ ⊢
    split
    · next hne =>
      obtain ⟨d, hd, hdst, hdbelow, hdp⟩ := hbelow.step h hb hne
      refine Exec.Sat.bind (P := fun L₂ => L₂ = L₁.credit b.header.rewardReceiver 10)
        (Exec.sat_iff.mpr ⟨fun L₂ hL₂ => addBalance_debug hL₂, fun _ _ => trivial⟩)
        fun L₂ hL₂ => ?_
      rw [hd]
      refine ⟨hdst, hdbelow, Forest.Descends.trans (.of_parent hdp) hbdesc, ?_⟩
      dsimp only
      rw [branchFrom_climb_succ h hb hbdesc (h.graded _ _ hdp), List.foldl_append, ← hL₁, hL₂]
      rfl
    · have hle := h.graded.le (hbelow.descends h (Shape.stored_mem hb))
      exact ⟨_, Nat.sub_le_sub_left hle _, hL₁⟩
  exact hsat.of_ok hrun

theorem addRewards_step_ne_outOfFuel {profile : Profile} (T : BlockTree) (balances : Ledger UserId)
    (parentBlock : BlockNode) :
    (if parentBlock.header.parent ≠ T.finalizedBlockId then
        addBalance profile balances parentBlock.header.rewardReceiver 10 >>= fun balances =>
        Exec.unwrap .rewardParent (T.getBlock parentBlock.header.parent) >>= fun block =>
        .ok (.inl (balances, block))
      else .ok (.inr (balances, parentBlock)) :
      Exec Panic ((Ledger UserId × BlockNode) ⊕ (Ledger UserId × BlockNode))) ≠ Exec.outOfFuel := by
  split
  · exact Exec.bind_ne_outOfFuel (addBalance_ne_outOfFuel _ _ _) fun _ _ =>
      Exec.bind_ne_outOfFuel (Exec.unwrap_ne_outOfFuel _ _) fun _ _ => Exec.ok_ne_outOfFuel _
  · exact Exec.ok_ne_outOfFuel _

theorem addRewards_ne_outOfFuel (h : Shape T) {profile : Profile} {pb : BlockNode}
    (hpb : T.Stored pb) (hbelow : T.BelowFinal pb.header.blockId) (L : Ledger UserId) {fuel : ℕ}
    (hfuel : T.depthOf pb.header.blockId < fuel) :
    addRewards profile T L pb fuel ≠ Exec.outOfFuel := by
  refine Exec.loop_ne_outOfFuel (I := fun s : Ledger UserId × BlockNode =>
      T.Stored s.2 ∧ T.BelowFinal s.2.header.blockId)
    (fun s => T.depthOf s.2.header.blockId) (fun s _ => ?_) (fun s s' hs hbody => ?_) fuel
    (L, pb) ⟨hpb, hbelow⟩ hfuel
  · exact addRewards_step_ne_outOfFuel T s.1 s.2
  · obtain ⟨L, b⟩ := s
    obtain ⟨hb, hbelow⟩ := hs
    dsimp only at hb hbelow hbody ⊢
    split at hbody
    · next hne =>
      obtain ⟨L', -, hbody⟩ := Exec.bind_eq_ok.mp hbody
      obtain ⟨d, hd, hdst, hdbelow, hdp⟩ := hbelow.step h hb hne
      rw [hd] at hbody
      obtain rfl : (L', d) = s' := Sum.inl.inj (Except.ok.inj hbody)
      have := h.graded _ _ hdp
      exact ⟨⟨hdst, hdbelow⟩, by
        dsimp only
        omega⟩
    · exact absurd (Except.ok.inj hbody) (by simp)

/-- A release walk from any other block goes round and round at the genesis block. -/
theorem addRewards_release_eq_outOfFuel (h : Shape T) {pb : BlockNode} (hpb : T.Stored pb)
    (hbelow : ¬ T.BelowFinal pb.header.blockId) (L : Ledger UserId) (fuel : ℕ) :
    addRewards .release T L pb fuel = Exec.outOfFuel := by
  have hsat : Exec.Sat (addRewards .release T L pb fuel) _ _ := addRewards_sat h hpb L fuel
  obtain ⟨r, hr⟩ | ⟨e, he⟩ | hout := Exec.outcome_cases (addRewards .release T L pb fuel)
  · exact absurd (hsat.of_ok hr) hbelow
  · exact absurd (hsat.of_panic he).1 (by simp)
  · exact hout

/-! ## Six parents up -/

/-- The climb of `finalize_block` ends `k` blocks up, at the genesis block or in its forest. -/
theorem kDeepBlock_eq_some (h : Shape T) :
    ∀ {k : ℕ} {b c : BlockNode}, T.Stored b → T.kDeepBlock k b = some c →
      T.Stored c ∧ T.Descends c.header.blockId b.header.blockId ∧
      (c.header.blockId = "0" ∨
        T.depthOf b.header.blockId = T.depthOf c.header.blockId + k)
  | 0, b, c, hb, hk => by
      obtain rfl : b = c := Option.some.inj hk
      exact ⟨hb, .refl _, .inr rfl⟩
  | k + 1, b, c, hb, hk => by
      unfold kDeepBlock at hk
      split at hk
      · exact absurd hk (by simp)
      · obtain ⟨d, hd, hk⟩ := Option.bind_eq_some_iff.mp hk
        by_cases hroot : b.header.blockId = "0"
        · obtain rfl := h.stored_eq_genesis hb hroot
          obtain rfl : BlockNode.genesisBlock = d := Option.some.inj (h.root_block.symm.trans hd)
          obtain ⟨hc, hdesc, -⟩ := kDeepBlock_eq_some h hb hk
          exact ⟨hc, hdesc, .inl (h.eq_root_of_descends hdesc)⟩
        · obtain ⟨d', hd', hdst, hdid, hdp⟩ := h.stored_parent hb hroot
          obtain rfl : d = d' := Option.some.inj (hd.symm.trans hd')
          obtain ⟨hc, hdesc, hdepth⟩ := kDeepBlock_eq_some h hdst hk
          have := h.graded _ _ hdp
          refine ⟨hc, .step hdp hdesc, hdepth.imp_right fun hd => ?_⟩
          omega

/-- From a block `k + 1` below the finalized one the climb ends at a child of it. -/
theorem kDeepBlock_of_depth (h : Shape T) :
    ∀ {k : ℕ} {b : BlockNode}, T.Stored b →
      T.Descends T.finalizedBlockId b.header.blockId →
      T.depthOf b.header.blockId = T.depthOf T.finalizedBlockId + k + 1 →
      ∃ c, T.kDeepBlock k b = some c ∧ T.parentOf c.header.blockId = some T.finalizedBlockId
  | 0, b, hb, hdesc, hdepth => by
      obtain ⟨c, hc, hcb⟩ := Forest.exists_child hdesc fun he => by
        rw [he] at hdepth
        omega
      have hcdepth := h.graded _ _ hc
      have hbc := h.graded.eq_of_le hcb (by omega)
      exact ⟨b, rfl, hbc ▸ hc⟩
  | k + 1, b, hb, hdesc, hdepth => by
      have hne : b.header.blockId ≠ T.finalizedBlockId := by
        intro he
        rw [he] at hdepth
        omega
      obtain ⟨d, hd, hdst, hdid, hdp, hfd⟩ := h.stored_parent_of_descends hb hdesc hne
      have hddepth := h.graded _ _ hdp
      obtain ⟨c, hk, hc⟩ := kDeepBlock_of_depth h hdst hfd (k := k) (by omega)
      refine ⟨c, ?_, hc⟩
      rw [kDeepBlock, if_neg, hd]
      · exact hk
      · intro he
        rw [← hdid] at he
        rw [he] at hddepth
        omega

end BlockTree

end NakamotoNode.Chain
