import NakamotoNode.Chain.Chains

/-! # Orphans that are adopted stay in the orphan map

When a block is inserted and an orphan waits for it, `add_block` adds the orphan and then removes
the key of the block, not that of the orphan. The last orphan of the cascade is left in the map,
with its parent in the tree (`stranded`). -/

namespace NakamotoNode.Chain
open Foundations Foundations.RustStd
set_option autoImplicit false

namespace BlockTree

/-- No orphan is in the tree, nor is the parent of one. -/
structure Adopted (T : BlockTree) : Prop where
  disjoint : ∀ id, ¬ (id ∈ T.orphans ∧ id ∈ T.allBlocks)
  waiting : ∀ id o, T.orphans.lookup id = some o → o.header.parent ∉ T.allBlocks

/-- The call inserts no block that an orphan waits for. -/
def NoneWaits (C : Crates) (profile : Profile) (T : BlockTree) (call : Call) : Prop :=
  call.block.header.blockId ∉ T.orphans →
  Accepts C profile call.leadingZeroLen T call.block →
  ∀ id o, T.orphans.lookup id = some o → o.header.parent ≠ call.block.header.blockId

variable {C : Crates} {profile : Profile} {leadingZeroLen : ℕ} {T T' : BlockTree}
  {block : BlockNode}

/-- An orphan that is adopted, or one that was waiting for it, stays in the map with its parent in
the tree. -/
theorem Adopts.stranded {G : BlockTree → BlockNode → Prop} {o : BlockNode}
    (h : Adopts C profile leadingZeroLen G T o T') (hT : Inv T)
    (ho : T.orphans.lookup o.header.blockId = some o) (hnew : o.header.blockId ∉ T.allBlocks)
    (hparent : o.header.parent ∈ T.allBlocks)
    (hothers : ∀ id o', T.orphans.lookup id = some o' → id ∈ T.allBlocks →
      o'.header.parent ∈ T.allBlocks) :
    ∃ id o', T'.orphans.lookup id = some o' ∧ o'.header.parent ∈ T'.allBlocks ∧
      id ∉ T.allBlocks := by
  induction h with
  | rejected => exact ⟨_, _, ho, hparent, hnew⟩
  | stored _ _ hnot => exact absurd hparent hnot
  | connected hacc _ hupd =>
    obtain ⟨hins, -⟩ := hacc.inserted hT hupd
    refine ⟨_, _, ?_, hins.mem_allBlocks.mpr (.inr hparent), hnew⟩
    rw [hins.orphans]
    exact ho
  | @cascaded T T₁ T₂ block o id hacc _ hupd hlookup hwaits _ ih =>
    obtain ⟨hins, hT₁⟩ := hacc.inserted hT hupd
    have hkey := hT₁.shape.orphans_keyed id o hlookup
    subst hkey
    have hlookup_old := hlookup
    rw [hins.orphans] at hlookup_old
    -- the next orphan is another one, and it is not in the tree
    have hne : o.header.blockId ≠ block.header.blockId := by
      intro he
      rw [he, ho] at hlookup_old
      obtain rfl := Option.some.inj hlookup_old
      exact hnew (hwaits ▸ hparent)
    have hnew₁ : o.header.blockId ∉ T₁.allBlocks := by
      rw [hins.mem_allBlocks, not_or]
      refine ⟨hne, fun hmem => hnew ?_⟩
      rw [← hwaits]
      exact hothers _ o hlookup_old hmem
    have hothers₁ : ∀ id o', T₁.orphans.lookup id = some o' → id ∈ T₁.allBlocks →
        o'.header.parent ∈ T₁.allBlocks := by
      intro id o' ho' hid
      rw [hins.orphans] at ho'
      refine hins.mem_allBlocks.mpr (.inr ?_)
      rcases hins.mem_allBlocks.mp hid with rfl | hid
      · obtain rfl := Option.some.inj (ho.symm.trans ho')
        exact hparent
      · exact hothers id o' ho' hid
    obtain ⟨id, o', ho', hparent', hid⟩ := ih hT₁ hlookup hnew₁
      (hwaits ▸ hins.mem_allBlocks.mpr (.inl rfl)) hothers₁
    have hne' : id ≠ block.header.blockId := fun he => hid (hins.mem_allBlocks.mpr (.inl he))
    refine ⟨id, o', ?_, hparent', fun hmem => hid (hins.mem_allBlocks.mpr (.inr hmem))⟩
    dsimp only
    rw [AList.lookup_erase_ne hne']
    exact ho'

theorem Adopted.storeOrphan (hA : Adopted T) (hfresh : block.header.blockId ∉ T.allBlocks)
    (hparent : block.header.parent ∉ T.allBlocks) :
    Adopted { T with orphans := T.orphans.insert block.header.blockId block } := by
  constructor
  case disjoint =>
    rintro id ⟨ho, hid⟩
    rcases (AList.mem_insert _).mp ho with rfl | ho
    · exact hfresh hid
    · exact hA.disjoint id ⟨ho, hid⟩
  case waiting =>
    exact Orphans.insert (P := fun o => o.header.parent ∉ T.allBlocks) hA.waiting hparent

theorem Adopted.inserted (hA : Adopted T) (hins : Inserted C profile T block T')
    (hnot : block.header.blockId ∉ T.orphans)
    (hnone : ∀ id o, T.orphans.lookup id = some o → o.header.parent ≠ block.header.blockId) :
    Adopted T' := by
  constructor
  case disjoint =>
    rintro id ⟨ho, hid⟩
    rw [hins.orphans] at ho
    rcases hins.mem_allBlocks.mp hid with rfl | hid
    · exact hnot ho
    · exact hA.disjoint id ⟨ho, hid⟩
  case waiting =>
    intro id o ho hmem
    rw [hins.orphans] at ho
    rcases hins.mem_allBlocks.mp hmem with he | hmem
    · exact hnone id o ho he
    · exact hA.waiting id o ho hmem

theorem adopted_iff_noneWaits {call : Call} (hT : Inv T) (hA : Adopted T)
    (hcall : Returns C profile T call T') : Adopted T' ↔ NoneWaits C profile T call := by
  rcases returns_cases hcall with ⟨hknown, rfl⟩ | ⟨-, hnot, h⟩
  · refine iff_of_true hA fun hno hacc => ?_
    exact absurd (hknown.resolve_left hacc.fresh) hno
  cases h with
  | rejected hrej => exact iff_of_true hA fun _ hacc => absurd hacc hrej
  | stored hfresh _ hparent =>
    exact iff_of_true (hA.storeOrphan hfresh hparent) fun _ hacc => absurd hacc.parent_mem hparent
  | connected hacc _ hupd hnone =>
    obtain ⟨hins, -⟩ := hacc.inserted hT hupd
    rw [hins.orphans] at hnone
    exact iff_of_true (hA.inserted hins hnot hnone) fun _ _ => hnone
  | @cascaded _ T₁ T₂ _ o id hacc _ hupd hlookup hwaits hrec =>
    obtain ⟨hins, hT₁⟩ := hacc.inserted hT hupd
    have hkey := hT₁.shape.orphans_keyed id o hlookup
    subst hkey
    have hold := hlookup
    rw [hins.orphans] at hold
    have hnew : ∀ key ∈ T.orphans, key ∉ T₁.allBlocks := by
      intro key hk hmem
      rcases hins.mem_allBlocks.mp hmem with rfl | hmem
      · exact hnot hk
      · exact hA.disjoint key ⟨hk, hmem⟩
    obtain ⟨id, o', ho', hparent', hid⟩ := hrec.stranded hT₁ hlookup
      (hnew _ (mem_orphans_of_lookup hold)) (hwaits ▸ hins.mem_allBlocks.mpr (.inl rfl))
      (fun id o' ho' hid => by
        rw [hins.orphans] at ho'
        exact absurd hid (hnew id (mem_orphans_of_lookup ho')))
    refine iff_of_false (fun hA' => hA'.waiting id o' ?_ hparent') fun hcond =>
      hcond hnot hacc _ o hold hwaits
    have hne : id ≠ call.block.header.blockId :=
      fun he => hid (hins.mem_allBlocks.mpr (.inl he))
    dsimp only
    rw [AList.lookup_erase_ne hne]
    exact ho'

theorem adopted_genesisTree : Adopted genesisTree where
  disjoint := fun id h => absurd h.1 (by simp [genesisTree])
  waiting := fun id o ho => absurd ho (by simp [genesisTree])

variable (profile) in
/-- At the tip of a tree with one orphan: the block that the orphan waits for is inserted, and then the
orphan, which is left in both maps. -/
theorem Tip.strands {v : ℤ} {bs line : List BlockNode} {o : BlockNode} (hT : Tip C v bs line T)
    (hos : T.orphans = (∅ : AList fun _ : BlockId => BlockNode).insert o.header.blockId o)
    (hblock : Fits C leadingZeroLen v T.workingBlockId bs block)
    (ho : Fits C leadingZeroLen v block.header.blockId (block :: bs) o)
    (hlen : (v + 10) * (2 * (line.length + 1) + 2) ≤ 299792458) (order : IterOrder) :
    ∃ T', Returns C profile T ⟨block, leadingZeroLen, order⟩ T' ∧
      o.header.blockId ∈ T'.orphans ∧ o.header.blockId ∈ T'.allBlocks := by
  have hv : 0 ≤ v := (volume_nonneg _).trans ho.volume_le
  obtain ⟨T₁, hacc₁, hos₁, hwork₁, hT₁, hcont₁⟩ := hT.insert profile hblock (by linarith)
  obtain ⟨T₂, -, hos₂, -, hT₂, hcont₂⟩ := hT₁.insert profile (by rw [hwork₁]; exact ho) (by
    rw [List.length_cons]
    push_cast
    exact hlen)
  have hne : block.header.blockId ≠ o.header.blockId := ho.ids block List.mem_cons_self
  have hlookup : T.orphans.lookup o.header.blockId = some o := by
    rw [hos]
    exact AList.lookup_insert _
  have honly : ∀ id o', T.orphans.lookup id = some o' → o' = o := by
    intro id o' ho'
    rw [hos] at ho'
    by_cases hid : id = o.header.blockId
    · subst hid
      exact (Option.some.inj ((AList.lookup_insert _).symm.trans ho')).symm
    · exact absurd ((AList.lookup_insert_ne hid).symm.trans ho') (by simp)
  have hfresh : block.header.blockId ∉ T.orphans := by
    rw [hos, AList.mem_insert]
    exact not_or.mpr ⟨hne, AList.notMem_empty _⟩
  refine ⟨_, returns_of_cascade hacc₁.fresh hfresh hcont₁ (hos₁ ▸ hlookup) ho.parent
    (fun id o' ho' _ => honly id o' (hos₁ ▸ ho')) hcont₂ (fun id o' ho' => ?_) order, ?_,
    Shape.stored_mem (hT₂.mem_line List.mem_cons_self).1⟩
  · rw [honly id o' (by rw [← hos₁, ← hos₂]; exact ho'), ho.parent]
    exact hne
  · refine AList.mem_erase.mpr ⟨hne.symm, ?_⟩
    rw [hos₂, hos₁]
    exact mem_orphans_of_lookup hlookup

end BlockTree

open BlockTree

/-- In every run in which no call inserts a block that an orphan waits for, orphans and tree stay
apart. A call that does insert such a block leaves an orphan whose parent is in the tree. -/
theorem orphans_adopted_iff {C : Crates} {profile : Profile} {calls : List Call} {T : BlockTree}
    (hrun : Run (Guarded (Returns C profile) (NoneWaits C profile)) genesisTree calls T) :
    Adopted T ∧ ∀ call T', Returns C profile T call T' →
      (Adopted T' ↔ NoneWaits C profile T call) := by
  have hI : Inv T ∧ Adopted T := by
    refine hrun.invariant (I := fun T => Inv T ∧ Adopted T) ?_ ⟨inv_genesisTree, adopted_genesisTree⟩
    rintro T call T' ⟨hT, hA⟩ ⟨hcall, hcond⟩
    exact ⟨returns_inv hcall hT, (adopted_iff_noneWaits hT hA hcall).mpr hcond⟩
  exact ⟨hI.2, fun call T' hcall => adopted_iff_noneWaits hI.1 hI.2 hcall⟩

/-- The last of three blocks comes first and waits for the second: the first leaves it waiting, and the
second leaves it in both maps. -/
theorem orphans_adopted_iff_payments : ∃ T T', minedId 'B' ∈ T.orphans ∧
    T.workingBlockId = minedId 'a' ∧ Adopted T ∧
    Returns walletCrates .debug T ⟨minedBlock 'A' (minedId 'a') (payment 0), 0, asStored⟩ T' ∧
    ¬ NoneWaits walletCrates .debug T ⟨minedBlock 'A' (minedId 'a') (payment 0), 0, asStored⟩ := by
  have hnew : minedId 'A' ∉ genesisTree.allBlocks ∧ minedId 'B' ∉ genesisTree.allBlocks := by decide
  have hstore : Returns walletCrates .debug genesisTree
      ⟨minedBlock 'B' (minedId 'A') (payment 1), 0, asStored⟩ _ :=
    returns_store hnew.2 (by simp [genesisTree])
      (minedBlock_integrity (by decide) _ (payable_payment 1).signed) hnew.1 asStored
  -- nobody waits for the loan
  obtain ⟨T, hacc, hos, hwork, hT, hcont⟩ :=
    ((tip_genesisTree walletCrates 1000).storeOrphan
      (minedBlock 'B' (minedId 'A') (payment 1))).insert .debug loan_fits (by norm_num)
  have hnone : ∀ id o, T.orphans.lookup id = some o → o.header.parent ≠ minedId 'a' := by
    rw [hos]
    exact Orphans.insert (P := fun o => o.header.parent ≠ minedId 'a')
      (orphans_genesisTree _) (by decide)
  have hloan : Returns walletCrates .debug _ ⟨minedBlock 'a' "0" loan, 0, asStored⟩ T :=
    returns_of_continues hacc.fresh (by decide) hcont hnone asStored
  have hfirst : Run (Guarded (Returns walletCrates .debug) (NoneWaits walletCrates .debug))
      genesisTree _ _ :=
    Run.single ⟨hstore, fun _ _ id o ho => absurd ho (by simp [genesisTree])⟩
  obtain ⟨hadopted, hnext⟩ := orphans_adopted_iff (hfirst.snoc ⟨hloan, fun _ _ id o ho =>
    hnone id o (hos ▸ ho)⟩)
  -- and the third for the second
  have hfits : Fits walletCrates 0 1000 (minedId 'a') [minedBlock 'a' "0" loan]
      (minedBlock 'A' (minedId 'a') (payment 0)) :=
    minedBlock_fits (by decide) (by decide) (payable_payment 0) (by decide) (by decide)
  have hfits' : Fits walletCrates 0 1000 (minedId 'A')
      [minedBlock 'A' (minedId 'a') (payment 0), minedBlock 'a' "0" loan]
      (minedBlock 'B' (minedId 'A') (payment 1)) :=
    minedBlock_fits (by decide) (by decide) (payable_payment 1) (by decide) (by decide)
  obtain ⟨T', hcall, horphan, hstored⟩ := hT.strands .debug hos (by rw [hwork]; exact hfits) hfits'
    (by norm_num) asStored
  refine ⟨T, T', ?_, hwork, hadopted, hcall, fun hcond => ?_⟩
  · rw [hos]
    exact (AList.mem_insert _).mpr (.inl rfl)
  · exact ((hnext _ _ hcall).mpr hcond).disjoint _ ⟨horphan, hstored⟩

/-- A payment that comes before its parent is in both maps in the end. -/
theorem orphan_stranded : ∃ T T',
    Run (Returns walletCrates .debug) genesisTree (delivery [minedBlock 's' (minedId 'a') (payment 0)])
      T ∧
    Returns walletCrates .debug T ⟨minedBlock 'a' "0" loan, 0, asStored⟩ T' ∧
    minedId 's' ∈ T'.orphans ∧ minedId 's' ∈ T'.allBlocks := by
  have hnew : minedId 'a' ∉ genesisTree.allBlocks ∧ minedId 's' ∉ genesisTree.allBlocks := by decide
  have hstore : Returns walletCrates .debug genesisTree
      ⟨minedBlock 's' (minedId 'a') (payment 0), 0, asStored⟩ _ :=
    returns_store hnew.2 (by simp [genesisTree])
      (minedBlock_integrity (by decide) _ (payable_payment 0).signed) hnew.1 asStored
  have hfits : Fits walletCrates 0 1000 (minedId 'a') [minedBlock 'a' "0" loan]
      (minedBlock 's' (minedId 'a') (payment 0)) :=
    minedBlock_fits (by decide) (by decide) (payable_payment 0) (by decide) (by decide)
  obtain ⟨T', hcall, horphan, hstored⟩ :=
    ((tip_genesisTree walletCrates 1000).storeOrphan _).strands .debug rfl loan_fits hfits
      (by norm_num) asStored
  exact ⟨_, T', Run.single hstore, hcall, horphan, hstored⟩

end NakamotoNode.Chain
