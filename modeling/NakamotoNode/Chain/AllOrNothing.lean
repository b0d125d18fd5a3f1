import NakamotoNode.Chain.Chains

/-! # Calls that change the tree

`add_block` ignores a block, stores it as an orphan, or puts it into the tree and then, one below the
other, orphans that were waiting. Blocks that are in the tree stay as they are
(`add_block_all_or_nothing`). -/

namespace NakamotoNode.Chain
open Foundations Foundations.RustStd
set_option autoImplicit false

namespace BlockTree

/-- The blocks of `T` are in `T'` unchanged, at the same depths. -/
def Holds (T T' : BlockTree) : Prop := ∀ id b, T.getBlock id = some b →
  T'.getBlock id = some b ∧ T'.blockDepth.lookup id = T.blockDepth.lookup id

/-- The block is in the tree after the call, and was not before. -/
def Added (T T' : BlockTree) (b : BlockNode) : Prop := T'.Stored b ∧ ¬ T.Stored b

/-- The block of the call is new and good, and its parent is not known yet. -/
structure Waits (C : Crates) (T : BlockTree) (call : Call) : Prop where
  fresh : call.block.header.blockId ∉ T.allBlocks
  notOrphan : call.block.header.blockId ∉ T.orphans
  integrity : verifyBlockIntegrity C call.block call.leadingZeroLen = .ok true
  parent_notMem : call.block.header.parent ∉ T.allBlocks

variable {C : Crates} {profile : Profile} {leadingZeroLen : ℕ} {T T' : BlockTree}
  {block b : BlockNode} {call : Call}

/-! ## What stays -/

theorem Holds.refl (T : BlockTree) : Holds T T := fun _ _ hb => ⟨hb, rfl⟩

theorem Holds.trans {T₁ T₂ : BlockTree} (h : Holds T T₁) (h' : Holds T₁ T₂) : Holds T T₂ := by
  intro id b hb
  obtain ⟨hb₁, hdepth₁⟩ := h id b hb
  obtain ⟨hb₂, hdepth₂⟩ := h' id b hb₁
  exact ⟨hb₂, hdepth₂.trans hdepth₁⟩

theorem Holds.stored (h : Holds T T') (hb : T.Stored b) : T'.Stored b := (h _ b hb).1

theorem Inserted.blockDepth (h : Inserted C profile T block T') :
    T'.blockDepth = (T.graft block).blockDepth := by cases h <;> rfl

theorem Inserted.holds (h : Inserted C profile T block T')
    (hfresh : block.header.blockId ∉ T.allBlocks) : Holds T T' := by
  intro id b hb
  have hne : id ≠ block.header.blockId := fun he => hfresh (he ▸ mem_of_getBlock hb)
  rw [h.getBlock, getBlock_graft_of_ne hne, h.blockDepth]
  exact ⟨hb, AList.lookup_insert_ne hne⟩

theorem keeps_holds (T₀ : BlockTree) (leadingZeroLen : ℕ) {G : BlockTree → BlockNode → Prop} :
    Keeps C profile leadingZeroLen G (Holds T₀) where
  insert := fun _ hI hacc _ hins => hI.trans (hins.holds hacc.fresh)
  orphans := fun _ hI => hI

theorem holds_of_returns (hT : Inv T) (hcall : Returns C profile T call T') : Holds T T' :=
  (returns_keeps (keeps_holds T call.leadingZeroLen) (returnsWith_true hcall) hT (.refl T)).2

/-! ## What comes in -/

theorem Inserted.added_iff (h : Inserted C profile T block T')
    (hfresh : block.header.blockId ∉ T.allBlocks) : Added T T' b ↔ b = block := by
  constructor
  · rintro ⟨hst, hnew⟩
    exact (h.stored_cases hst).resolve_right hnew
  · rintro rfl
    exact ⟨h.stored, fun hst => hfresh (Shape.stored_mem hst)⟩

theorem added_trans {T₁ T₂ : BlockTree} (h : Holds T T₁) (h' : Holds T₁ T₂) :
    Added T T₂ b ↔ Added T T₁ b ∨ Added T₁ T₂ b := by
  by_cases hb : T₁.Stored b
  · exact ⟨fun hadd => .inl ⟨hb, hadd.2⟩, fun hadd => ⟨h'.stored hb, (hadd.resolve_right fun hno =>
      hno.2 hb).2⟩⟩
  · exact ⟨fun hadd => .inr ⟨hadd.1, hb⟩, fun hadd => ⟨(hadd.resolve_left fun hno => hb hno.1).1,
      fun hst => hb (h.stored hst)⟩⟩

/-- The blocks that the call puts into the tree, from the top: the block, then orphans. -/
theorem Adopts.path {G : BlockTree → BlockNode → Prop}
    (h : Adopts C profile leadingZeroLen G T block T') (hT : Inv T) :
    ∃ path, (∀ b, b ∈ path ↔ Added T T' b) ∧ IsPath block.header.parent path ∧
      (path = [] ∨ ∃ rest, path = block :: rest ∧
        ∀ b ∈ rest, ∃ id, T.orphans.lookup id = some b) := by
  induction h with
  | rejected | stored =>
    exact ⟨[], fun b => iff_of_false List.not_mem_nil fun h => h.2 h.1, trivial, .inl rfl⟩
  | @connected T T₁ block hacc _ hupd =>
    obtain ⟨hins, -⟩ := hacc.inserted hT hupd
    refine ⟨[block], fun b => ?_, ⟨rfl, trivial⟩,
      .inr ⟨[], rfl, fun b hb => absurd hb List.not_mem_nil⟩⟩
    rw [List.mem_singleton, hins.added_iff hacc.fresh]
  | @cascaded T T₁ T₂ block o id hacc _ hupd ho hwaits hrec ih =>
    obtain ⟨hins, hT₁⟩ := hacc.inserted hT hupd
    have hold := hins.holds hacc.fresh
    have hrest : Holds T₁ T₂ := (hrec.keeps (keeps_holds T₁ _) hT₁ (.refl T₁)).2
    obtain ⟨path, hmem, hpath, hends⟩ := ih hT₁
    have hadded : ∀ b, b ∈ block :: path ↔ Added T T₂ b := by
      intro b
      rw [List.mem_cons, hmem, added_trans hold hrest, hins.added_iff hacc.fresh]
    refine ⟨block :: path, hadded, ⟨rfl, hwaits ▸ hpath⟩, .inr ⟨path, rfl, ?_⟩⟩
    rw [hins.orphans] at ho hends
    rcases hends with rfl | ⟨rest, rfl, horphans⟩
    · exact fun b hb => absurd hb List.not_mem_nil
    · exact List.forall_mem_cons.mpr ⟨⟨id, ho⟩, horphans⟩

/-! ## What a call that puts nothing in leaves -/

theorem Waits.eq_of_returns (h : Waits C T call) (hcall : Returns C profile T call T') :
    T' = { T with orphans := T.orphans.insert call.block.header.blockId call.block } :=
  returns_unique hcall
    (returns_store h.fresh h.notOrphan h.integrity h.parent_notMem call.order)

theorem eq_of_not_waits (hT : Inv T) (hcall : Returns C profile T call T')
    (hadded : ¬ Added T T' call.block) (hno : ¬ Waits C T call) : T' = T := by
  rcases returns_cases hcall with ⟨-, rfl⟩ | ⟨hfresh, horphan, h⟩
  · rfl
  have hstored : ∀ {T₁ T₂ : BlockTree}, Accepts C profile call.leadingZeroLen T call.block →
      updateBlocktree C profile T call.block = .ok T₁ → Holds T₁ T₂ → Added T T₂ call.block := by
    intro T₁ T₂ hacc hupd hrest
    obtain ⟨hins, -⟩ := hacc.inserted hT hupd
    exact ⟨hrest.stored hins.stored, fun hst => hfresh (Shape.stored_mem hst)⟩
  cases h with
  | rejected => rfl
  | stored _ hint hparent => exact absurd ⟨hfresh, horphan, hint, hparent⟩ hno
  | connected hacc _ hupd => exact absurd (hstored hacc hupd (.refl _)) hadded
  | @cascaded _ T₁ T₂ _ o id hacc _ hupd _ _ hrec =>
    obtain ⟨-, hT₁⟩ := hacc.inserted hT hupd
    have hrest : Holds T₁ T₂ := (hrec.keeps (keeps_holds T₁ _) hT₁ (.refl T₁)).2
    exact absurd (hstored hacc hupd hrest) hadded

end BlockTree

open BlockTree

/-- For a reachable tree and a call that returns: the blocks of the tree stay, unchanged and at their
depths; the new ones are a path, of the block of the call and then of orphans; and if that block is not
among them, the tree stays as it is, but for the block as a new orphan just if it is new and good and
its parent is not there. -/
theorem add_block_all_or_nothing {C : Crates} {profile : Profile} {T T' : BlockTree} {call : Call}
    (hT : Reachable C profile T) (hcall : Returns C profile T call T') :
    Holds T T' ∧
    (∃ path, (∀ b, b ∈ path ↔ Added T T' b) ∧ IsPath call.block.header.parent path ∧
      (path = [] ∨ ∃ rest, path = call.block :: rest ∧
        ∀ b ∈ rest, ∃ id, T.orphans.lookup id = some b)) ∧
    (¬ Added T T' call.block → (¬ Waits C T call → T' = T) ∧ (Waits C T call →
      T' = { T with orphans := T.orphans.insert call.block.header.blockId call.block })) := by
  refine ⟨holds_of_returns hT.inv hcall, ?_, fun hadded =>
    ⟨eq_of_not_waits hT.inv hcall hadded, fun h => h.eq_of_returns hcall⟩⟩
  rcases returns_cases hcall with ⟨-, rfl⟩ | ⟨-, -, h⟩
  · exact ⟨[], fun b => iff_of_false List.not_mem_nil fun h => h.2 h.1, trivial, .inl rfl⟩
  · exact h.path hT.inv

theorem add_block_all_or_nothing_loan : ∃ T, T.workingBlockId = minedId 'a' ∧ Holds genesisTree T ∧
    ∃ path : List BlockNode, ∀ b, b ∈ path ↔ Added genesisTree T b := by
  obtain ⟨T, hcall, -, hwork, -⟩ := loan_returns .debug
  obtain ⟨hholds, ⟨path, hpath, -⟩, -⟩ :=
    add_block_all_or_nothing reachable_genesisTree hcall.1
  exact ⟨T, hwork, hholds, path, hpath⟩

end NakamotoNode.Chain
