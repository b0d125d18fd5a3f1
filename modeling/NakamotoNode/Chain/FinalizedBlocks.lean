import NakamotoNode.Chain.Finality

/-! # The finalized blocks since a block

`get_finalized_blocks_since` walks from the finalized block up to a given one. Given an ancestor of the
finalized block (or that itself) it returns the blocks in between, the oldest first
(`getFinalizedBlocksSince_sat`). Branches of stored blocks stay as the tree is extended, and the
finalized ids are those of the transactions on the finalized branch, in both build profiles. -/

namespace NakamotoNode.Chain
open Foundations Foundations.RustStd
set_option autoImplicit false

/-- The places where `get_finalized_blocks_since` can panic. -/
inductive SincePanic where
  /-- `get_block(finalized_block_id).unwrap()` -/
  | finalizedBlock
  /-- `panic!("Given block id is not finalized")` -/
  | notFinalized
  /-- `get_block(parent).unwrap()` -/
  | parent
  deriving DecidableEq, Repr

namespace BlockTree
variable {C : Crates} {profile : Profile} {T T' : BlockTree} {a : BlockId}

/-- The first `if` compares two `Option`s, `None` being the least. -/
def getFinalizedBlocksSince (T : BlockTree) (sinceBlockId : BlockId) (fuel : ℕ) :
    Exec SincePanic (List BlockNode) :=
  Exec.unwrap .finalizedBlock (T.getBlock T.finalizedBlockId) >>= fun block =>
  if Option.lt (· < ·) (T.blockDepth.lookup T.finalizedBlockId) (T.blockDepth.lookup sinceBlockId) then
    Exec.panic .notFinalized
  else if block.header.blockId = sinceBlockId then .ok []
  else
    Exec.loop (fun (s : List BlockNode × BlockNode) =>
      let (fBlocks, block) := s
      let fBlocks := block :: fBlocks
      if block.header.parent = sinceBlockId ∨ block.header.parent = T.rootId then
        .ok (.inr fBlocks)
      else
        Exec.unwrap .parent (T.getBlock block.header.parent) >>= fun block =>
        .ok (.inl (fBlocks, block))) fuel ([], block)

/-! ## The walk -/

theorem depth_not_lt (hT : Inv T) (hdesc : T.Descends a T.finalizedBlockId) (ha : a ∈ T.allBlocks) :
    ¬ Option.lt (· < ·) (T.blockDepth.lookup T.finalizedBlockId) (T.blockDepth.lookup a) := by
  rw [hT.shape.depth_lookup hT.final.final_mem, hT.shape.depth_lookup ha]
  exact Nat.not_lt.mpr (hT.shape.graded.le hdesc)

theorem Shape.mem_of_descends (hT : Shape T) {id : BlockId} (hid : id ∈ T.allBlocks)
    (hdesc : T.Descends a id) : a ∈ T.allBlocks := by
  induction hdesc using Relation.ReflTransGen.head_induction_on with
  | refl => exact hid
  | head hp _ ih => exact ih (hT.mem_of_parentOf hp).2

section Walk
variable (hT : Inv T) (hdesc : T.Descends a T.finalizedBlockId)
include hT hdesc

theorem getFinalizedBlocksSince_sat (fuel : ℕ) :
    Exec.Sat (T.getFinalizedBlocksSince a fuel)
      (fun fBlocks => fBlocks = (T.segment a T.finalizedBlockId).reverse) (fun _ => False) := by
  have hshape := hT.shape
  obtain ⟨f, hf⟩ := mem_allBlocks_iff.mp hT.final.final_mem
  obtain ⟨hfid, hfst⟩ := hshape.stored_of_getBlock hf
  rw [getFinalizedBlocksSince, hf, Exec.unwrap_some, Exec.ok_bind,
    if_neg (depth_not_lt hT hdesc (hshape.mem_of_descends hT.final.final_mem hdesc))]
  split
  · next he =>
    rw [← he, hfid, Exec.sat_ok, segment_self, List.reverse_nil]
  · next hne =>
    -- the blocks met so far are those from the finalized one down to, not with, the current one
    refine Exec.Sat.loop (I := fun s : List BlockNode × BlockNode => T.Stored s.2 ∧
      T.Descends s.2.header.blockId T.finalizedBlockId ∧ T.Descends a s.2.header.blockId ∧
      s.2.header.blockId ≠ a ∧ s.1 = (T.branchFrom
        (T.depthOf T.finalizedBlockId - T.depthOf s.2.header.blockId) T.finalizedBlockId).reverse)
      ?_ fuel ([], f) ⟨hfst, by rw [hfid]; exact .refl _, by rw [hfid]; exact hdesc, hne, ?_⟩
    · rintro ⟨fBlocks, b⟩ ⟨hb, hbf, hab, hba, hfBlocks⟩
      dsimp only at hb hbf hab hba hfBlocks ⊢
      obtain ⟨d, hd, hdst, hdid, hdp, had⟩ := hshape.stored_parent_of_descends hb hab hba
      have hcons : b :: fBlocks = (T.branchFrom (T.depthOf T.finalizedBlockId -
          T.depthOf d.header.blockId) T.finalizedBlockId).reverse := by
        rw [branchFrom_climb_succ hshape hb hbf (hshape.graded _ _ hdp), List.reverse_append,
          hfBlocks]
        rfl
      split
      · next hstop =>
        have hend : d.header.blockId = a := by
          rw [hdid]
          rcases hstop with he | he
          · exact he
          · rw [hdid, he, hshape.root_id] at had
            rw [he, hshape.root_id, hshape.eq_root_of_descends had]
        exact hcons.trans (by rw [hend, segment])
      · next hgo =>
        rw [not_or] at hgo
        rw [hd]
        exact ⟨hdst, Forest.Descends.trans (.of_parent hdp) hbf, had,
          fun he => hgo.1 (hdid ▸ he), hcons⟩
    · simp [hfid, branchFrom]

theorem getFinalizedBlocksSince_ne_outOfFuel {fuel : ℕ}
    (hfuel : T.depthOf T.finalizedBlockId < fuel) :
    T.getFinalizedBlocksSince a fuel ≠ Exec.outOfFuel := by
  have hshape := hT.shape
  refine Exec.bind_ne_outOfFuel (Exec.unwrap_ne_outOfFuel _ _) fun f hf => ?_
  obtain ⟨hfid, hfst⟩ := hshape.stored_of_getBlock (Exec.unwrap_eq_ok.mp hf)
  split
  · exact Exec.panic_ne_outOfFuel _
  split
  · exact Exec.ok_ne_outOfFuel _
  · next hne =>
    refine Exec.loop_ne_outOfFuel (I := fun s : List BlockNode × BlockNode => T.Stored s.2 ∧
        T.Descends a s.2.header.blockId ∧ s.2.header.blockId ≠ a)
      (fun s => T.depthOf s.2.header.blockId) (fun s _ => ?_) (fun s s' hs hbody => ?_) fuel
      ([], f) ⟨hfst, by rw [hfid]; exact hdesc, hne⟩ (by dsimp only; rw [hfid]; exact hfuel)
    · dsimp only
      split
      · exact Exec.ok_ne_outOfFuel _
      · exact Exec.bind_ne_outOfFuel (Exec.unwrap_ne_outOfFuel _ _) fun _ _ =>
          Exec.ok_ne_outOfFuel _
    · obtain ⟨fBlocks, b⟩ := s
      obtain ⟨hb, hab, hba⟩ := hs
      dsimp only at hb hab hba hbody ⊢
      split at hbody
      · exact absurd (Except.ok.inj hbody) (by simp)
      · next hgo =>
        rw [not_or] at hgo
        obtain ⟨d, hd, hdst, hdid, hdp, had⟩ := hshape.stored_parent_of_descends hb hab hba
        rw [hd] at hbody
        obtain rfl : (b :: fBlocks, d) = s' := Sum.inl.inj (Except.ok.inj hbody)
        have := hshape.graded _ _ hdp
        exact ⟨⟨hdst, had, fun he => hgo.1 (hdid ▸ he)⟩, by dsimp only; omega⟩

theorem getFinalizedBlocksSince_eq_ok_iff {fBlocks : List BlockNode} :
    (∃ fuel, T.getFinalizedBlocksSince a fuel = .ok fBlocks) ↔
      fBlocks = (T.segment a T.finalizedBlockId).reverse := by
  constructor
  · rintro ⟨fuel, h⟩
    exact (getFinalizedBlocksSince_sat hT hdesc fuel).of_ok h
  · rintro rfl
    obtain ⟨r, hr, rfl⟩ := (getFinalizedBlocksSince_sat hT hdesc _).exists_ok
      (getFinalizedBlocksSince_ne_outOfFuel hT hdesc (Nat.lt_succ_self _))
    exact ⟨_, hr⟩

end Walk

/-- `get_finalized_blocks_since` answers: it does not panic and comes to an end. -/
def AnswersSince (T : BlockTree) (sinceBlockId : BlockId) : Prop :=
  (∀ fuel e, T.getFinalizedBlocksSince sinceBlockId fuel ≠ Exec.panic e) ∧
    ∃ fuel fBlocks, T.getFinalizedBlocksSince sinceBlockId fuel = .ok fBlocks

theorem answersSince (hT : Inv T) (hdesc : T.Descends a T.finalizedBlockId) : T.AnswersSince a := by
  refine ⟨fun fuel e he => (getFinalizedBlocksSince_sat hT hdesc fuel).of_panic he, ?_⟩
  obtain ⟨fuel, h⟩ := (getFinalizedBlocksSince_eq_ok_iff hT hdesc).mpr rfl
  exact ⟨fuel, _, h⟩

theorem getFinalizedBlocksSince_panics (hT : Inv T) (ha : a ∈ T.allBlocks)
    (hdeep : T.depthOf T.finalizedBlockId < T.depthOf a) (fuel : ℕ) :
    T.getFinalizedBlocksSince a fuel = Exec.panic .notFinalized := by
  obtain ⟨f, hf⟩ := mem_allBlocks_iff.mp hT.final.final_mem
  rw [getFinalizedBlocksSince, hf, Exec.unwrap_some, Exec.ok_bind, if_pos]
  rw [hT.shape.depth_lookup hT.final.final_mem, hT.shape.depth_lookup ha]
  exact hdeep

/-! ## Segments -/

theorem segment_cases (hT : Shape T) {id : BlockId} (hdesc : T.Descends a id) :
    (id = a ∧ T.segment a id = []) ∨
      ∃ b l, T.segment a id = b :: l ∧ b.header.blockId = id := by
  rcases Forest.descends_iff.mp hdesc with rfl | ⟨p, hp, hap⟩
  · exact .inl ⟨rfl, segment_self id⟩
  · obtain ⟨hroot, b, hb, rfl⟩ := hT.parentOf_eq_some.mp hp
    exact .inr ⟨b, _, segment_of_parent hT hb hroot (hT.graded.le hap),
      (hT.stored_of_getBlock hb).1⟩

theorem branch_nodup (hT : Shape T) {id : BlockId} (hid : id ∈ T.allBlocks) :
    (T.branch id).Nodup := by
  obtain ⟨b, hb⟩ := mem_allBlocks_iff.mp hid
  by_cases hroot : id = "0"
  · rw [hroot, branch_root hT]
    exact List.nodup_nil
  · have hdepth := hT.depth_succ id b hb hroot
    rw [branch_of_parent hT hb hroot, List.nodup_cons]
    refine ⟨fun hmem => ?_, branch_nodup hT (hT.parent_mem id b hb hroot)⟩
    have hle := hT.graded.le ((mem_branch hT).mp hmem).2.2
    rw [hT.all_keyed id b hb] at hle
    omega
termination_by T.depthOf id
decreasing_by omega

/-! ## Later trees -/

section Extends
variable (h : Extends T T')
include h

theorem Extends.mem {id : BlockId} (hid : id ∈ T.allBlocks) : id ∈ T'.allBlocks := by
  obtain ⟨b, hb⟩ := mem_allBlocks_iff.mp hid
  exact mem_of_getBlock (h.getBlock id b hb)

theorem Extends.parentOf_eq {id : BlockId} (hid : id ∈ T.allBlocks) :
    T'.parentOf id = T.parentOf id := by
  obtain ⟨b, hb⟩ := mem_allBlocks_iff.mp hid
  rw [parentOf, parentOf, h.rootId, hb, h.getBlock id b hb]

theorem Extends.descends_iff (hT : Shape T) {id : BlockId} (hid : id ∈ T.allBlocks) :
    T'.Descends a id ↔ T.Descends a id := by
  refine ⟨fun hdesc => ?_, h.descends⟩
  induction hdesc using Relation.ReflTransGen.head_induction_on with
  | refl => exact .refl _
  | head hp _ ih =>
    rw [h.parentOf_eq hid] at hp
    exact .step hp (ih (hT.mem_of_parentOf hp).2)

theorem Extends.branch_eq (hT : Shape T) (hT' : Shape T') {id : BlockId} (hid : id ∈ T.allBlocks) :
    T'.branch id = T.branch id := by
  obtain ⟨b, hb⟩ := mem_allBlocks_iff.mp hid
  by_cases hroot : id = "0"
  · rw [hroot, branch_root hT, branch_root hT']
  · have hdepth := hT.depth_succ id b hb hroot
    rw [branch_of_parent hT hb hroot, branch_of_parent hT' (h.getBlock id b hb) hroot,
      Extends.branch_eq hT hT' (hT.parent_mem id b hb hroot)]
termination_by T.depthOf id
decreasing_by omega

theorem Extends.segment_eq (hT : Shape T) (hT' : Shape T') {id : BlockId} (hid : id ∈ T.allBlocks)
    (hdesc : T.Descends a id) : T'.segment a id = T.segment a id := by
  have hnew := branch_eq_segment_append hT' (h.descends hdesc)
  rw [h.branch_eq hT hT' hid, h.branch_eq hT hT' (hT.mem_of_descends hid hdesc),
    branch_eq_segment_append hT hdesc] at hnew
  exact (List.append_cancel_right hnew).symm

end Extends

/-! ## The finalized ids -/

/-- The finalized ids are those of the transactions of the finalized branch. -/
def FinalTxIds (C : Crates) (T : BlockTree) : Prop :=
  T.finalizedTxIds = ((T.branchTxs T.finalizedBlockId).map fun tx => tx.genHash C).toFinset

theorem keeps_finalTxIds (leadingZeroLen : ℕ) :
    Keeps C profile leadingZeroLen (fun _ _ => True) (FinalTxIds C) where
  insert := fun {T block T'} hT hI hacc _ hins => by
    have hfin := hT.final.final_mem
    have hshape := hins.shape hT.shape hacc.fresh hacc.parent_mem
    have hbranch := hins.branch_old hT.shape hacc.fresh hfin
    cases hins with
    | hung =>
      rw [FinalTxIds, branchTxs, graft_finalizedBlockId, hbranch]
      exact hI
    | finalized c L L' txIds _ hc hchild _ htxs =>
      obtain ⟨hroot, c', hc', hcparent⟩ := hshape.parentOf_eq_some.mp hchild
      obtain rfl : c = c' := Option.some.inj (hc.symm.trans hc')
      have hcons := branch_of_parent hshape hc' hroot
      rw [hcparent, hbranch] at hcons
      rw [FinalTxIds, branchTxs]
      dsimp only
      rw [hcons, hI, (finalizeTxs_eq_ok htxs).2, branchTxs, List.flatMap_cons, List.map_append,
        List.toFinset_append, Finset.union_comm]
  orphans := fun {T} os hI => by
    rw [FinalTxIds, branchTxs, branch_withOrphans]
    exact hI

theorem finalTxIds_genesisTree (C : Crates) : FinalTxIds C genesisTree :=
  (replayed_genesisTree C).txIds

end BlockTree
end NakamotoNode.Chain
