import NakamotoNode.Chain.Insertion

/-! # What one call does

`Adopts` describes the outcome of `add_orphan_block` by cases, and `returns_cases` reduces a
returning `add_block` to it. `Keeps` is what it takes for a property of the tree to be an invariant:
it survives one insertion, and it does not look at the orphans. From `Keeps` the property survives
every returning call (`returns_keeps`), cascades included. Where it survives only the insertions that
meet a condition, the calls are those of `ReturnsWith`; a condition on the block alone may be read off
the delivered blocks (`run_and_of_delivered`). -/

namespace NakamotoNode.Chain
open Foundations Foundations.RustStd
set_option autoImplicit false

namespace BlockTree

/-- What is left after `add_orphan_block`, where each block it inserts has `G` in the tree it is
inserted into. -/
inductive Adopts (C : Crates) (profile : Profile) (leadingZeroLen : ℕ)
    (G : BlockTree → BlockNode → Prop) : BlockTree → BlockNode → BlockTree → Prop
  /-- a check failed -/
  | rejected {T : BlockTree} {block : BlockNode}
      (hnot : ¬ Accepts C profile leadingZeroLen T block) :
      Adopts C profile leadingZeroLen G T block T
  /-- the parent is not known yet -/
  | stored {T : BlockTree} {block : BlockNode}
      (hfresh : block.header.blockId ∉ T.allBlocks)
      (hintegrity : verifyBlockIntegrity C block leadingZeroLen = .ok true)
      (hparent : block.header.parent ∉ T.allBlocks) :
      Adopts C profile leadingZeroLen G T block
        { T with orphans := T.orphans.insert block.header.blockId block }
  /-- inserted, and no orphan waits for it -/
  | connected {T T₁ : BlockTree} {block : BlockNode}
      (hacc : Accepts C profile leadingZeroLen T block) (hG : G T block)
      (hupd : updateBlocktree C profile T block = .ok T₁)
      (hnone : ∀ id o, T₁.orphans.lookup id = some o → o.header.parent ≠ block.header.blockId) :
      Adopts C profile leadingZeroLen G T block T₁
  /-- inserted, and then the waiting orphan that is met first -/
  | cascaded {T T₁ T₂ : BlockTree} {block o : BlockNode} {id : BlockId}
      (hacc : Accepts C profile leadingZeroLen T block) (hG : G T block)
      (hupd : updateBlocktree C profile T block = .ok T₁)
      (ho : T₁.orphans.lookup id = some o)
      (hwaits : o.header.parent = block.header.blockId)
      (hrec : Adopts C profile leadingZeroLen G T₁ o T₂) :
      Adopts C profile leadingZeroLen G T block
        { T₂ with orphans := T₂.orphans.erase block.header.blockId }

variable {C : Crates} {profile : Profile} {leadingZeroLen : ℕ} {T T' : BlockTree}
  {block : BlockNode}

theorem growing_verifiyTransactionsBalance (T : BlockTree) (block pb : BlockNode) :
    Exec.Growing (verifiyTransactionsBalance profile T block pb) :=
  (growing_getPendingFinalizationTxs T).bind fun _ =>
    (Exec.growing_const _).bind fun L =>
      (growing_addRewards profile T L pb).bind fun _ => Exec.growing_const _

theorem cut_attachBlock {order : IterOrder} {pb : BlockNode} {m n : ℕ} (hmn : m ≤ n)
    {addOrphan addOrphan' : BlockTree → BlockNode → Exec Panic BlockTree}
    (hrec : ∀ T o, Exec.Cut (addOrphan T o) (addOrphan' T o)) :
    Exec.Cut (attachBlock C profile order addOrphan T block pb m)
      (attachBlock C profile order addOrphan' T block pb n) := by
  refine (growing_verifyBlockAncestry T _ pb m n hmn).bind fun noDuplicate => ?_
  split
  · exact .refl _
  refine (growing_verifiyTransactionsBalance T block pb m n hmn).bind fun sufficient => ?_
  split
  · exact .refl _
  refine (Exec.Cut.refl _).bind fun T₁ => ?_
  split
  · exact .refl _
  · exact (hrec _ _).bind fun _ => .refl _

theorem growing_addOrphanBlock (order : IterOrder) (T : BlockTree) (block : BlockNode) :
    Exec.Growing fun fuel => addOrphanBlock C profile fuel order T block leadingZeroLen := by
  intro m n hmn
  induction m generalizing n order T block with
  | zero => exact .inl rfl
  | succ m ih =>
    obtain ⟨n, rfl⟩ : ∃ k, n = k + 1 := ⟨n - 1, by omega⟩
    refine (Exec.Cut.refl _).bind fun integrity => ?_
    split
    · exact .refl _
    split
    · exact .refl _
    · exact cut_attachBlock (by omega) fun T o => ih order.next T o n (by omega)

/-! ## The orphan that is met first -/

theorem findOrphan_eq_some {order : IterOrder} {id : BlockId} {o : BlockNode}
    (h : findOrphan order T id = some o) :
    o.header.parent = id ∧ ∃ key, T.orphans.lookup key = some o := by
  obtain ⟨⟨key, o'⟩, he, rfl⟩ := Option.map_eq_some_iff.mp h
  have hmem := (order.visit_perm 0 T.orphans.entries).mem_iff.mp (List.mem_of_find?_eq_some he)
  refine ⟨by simpa using List.find?_some he, key, ?_⟩
  exact AList.mem_lookup_iff.mpr hmem

theorem findOrphan_eq_none {order : IterOrder} {id : BlockId}
    (h : findOrphan order T id = none) (key : BlockId) (o : BlockNode)
    (ho : T.orphans.lookup key = some o) : o.header.parent ≠ id := by
  rw [findOrphan, Option.map_eq_none_iff, List.find?_eq_none] at h
  have hmem : (⟨key, o⟩ : Sigma fun _ : BlockId => BlockNode) ∈ T.orphans.entries :=
    AList.mem_lookup_iff.mp ho
  simpa using h _ ((order.visit_perm 0 T.orphans.entries).mem_iff.mpr hmem)

theorem findOrphan_eq_none_iff {order : IterOrder} {id : BlockId} :
    findOrphan order T id = none ↔
      ∀ key o, T.orphans.lookup key = some o → o.header.parent ≠ id := by
  refine ⟨findOrphan_eq_none, fun hnone => ?_⟩
  cases hfind : findOrphan order T id with
  | none => rfl
  | some o =>
    obtain ⟨hwaits, key, ho⟩ := findOrphan_eq_some hfind
    exact absurd hwaits (hnone key o ho)

/-- An orphan that alone waits for the block is found in any order. -/
theorem findOrphan_of_unique (order : IterOrder) {id key : BlockId} {o : BlockNode}
    (ho : T.orphans.lookup key = some o) (hwaits : o.header.parent = id)
    (hone : ∀ key o', T.orphans.lookup key = some o' → o'.header.parent = id → o' = o) :
    findOrphan order T id = some o := by
  cases hfind : findOrphan order T id with
  | none => exact absurd hwaits (findOrphan_eq_none hfind key o ho)
  | some o' =>
    obtain ⟨hwaits', key', ho'⟩ := findOrphan_eq_some hfind
    rw [hone key' o' ho' hwaits']

/-! ## Outcomes of the two functions -/

/-- A call that returns: a check failed, or the parent is not known yet, or the block was inserted, and
then the waiting orphan that is met first. -/
theorem addOrphanBlock_cases {fuel : ℕ} {order : IterOrder}
    (h : addOrphanBlock C profile (fuel + 1) order T block leadingZeroLen = .ok T') :
    (¬ Accepts C profile leadingZeroLen T block ∧ T' = T) ∨
    (block.header.blockId ∉ T.allBlocks ∧
      verifyBlockIntegrity C block leadingZeroLen = .ok true ∧
      block.header.parent ∉ T.allBlocks ∧
      T' = { T with orphans := T.orphans.insert block.header.blockId block }) ∨
    ∃ T₁, Accepts C profile leadingZeroLen T block ∧ updateBlocktree C profile T block = .ok T₁ ∧
      ((findOrphan order T₁ block.header.blockId = none ∧ T' = T₁) ∨
        ∃ o T₂, findOrphan order T₁ block.header.blockId = some o ∧
          addOrphanBlock C profile fuel order.next T₁ o leadingZeroLen = .ok T₂ ∧
          T' = { T₂ with orphans := T₂.orphans.erase block.header.blockId }) := by
  obtain ⟨integrity, hint, h⟩ := Exec.bind_eq_ok.mp h
  split at h
  · next hno =>
    obtain rfl := Except.ok.inj h
    refine .inl ⟨fun hacc => ?_, rfl⟩
    rw [hacc.integrity] at hint
    simp [← Except.ok.inj hint, hacc.fresh] at hno
  next hyes =>
  obtain ⟨rfl, hfresh⟩ : integrity = true ∧ block.header.blockId ∉ T.allBlocks := by
    simpa using hyes
  cases hpb : T.getBlock block.header.parent with
  | none =>
    rw [hpb] at h
    obtain rfl := Except.ok.inj h
    exact .inr (.inl ⟨hfresh, hint, getBlock_eq_none.mp hpb, rfl⟩)
  | some pb =>
    rw [hpb] at h
    obtain ⟨noDuplicate, hanc, h⟩ := Exec.bind_eq_ok.mp h
    split at h
    · next hno =>
      obtain rfl := Except.ok.inj h
      refine .inl ⟨fun hacc => ?_, rfl⟩
      obtain ⟨pb', fuel', hpb', hanc', -⟩ := hacc.connects
      obtain rfl := Option.some.inj (hpb.symm.trans hpb')
      exact hno ((growing_verifyBlockAncestry T _ pb).eq_of_ok hanc hanc')
    next hyes =>
    rw [not_not] at hyes
    obtain ⟨sufficient, hbal, h⟩ := Exec.bind_eq_ok.mp h
    split at h
    · next hno =>
      obtain rfl := Except.ok.inj h
      refine .inl ⟨fun hacc => ?_, rfl⟩
      obtain ⟨pb', fuel', hpb', -, hbal'⟩ := hacc.connects
      obtain rfl := Option.some.inj (hpb.symm.trans hpb')
      exact hno ((growing_verifiyTransactionsBalance T block pb).eq_of_ok hbal hbal')
    next hsuff =>
    rw [not_not] at hsuff
    subst hyes hsuff
    obtain ⟨T₁, hupd, h⟩ := Exec.bind_eq_ok.mp h
    refine .inr (.inr ⟨T₁, ⟨hfresh, hint, pb, fuel, hpb, hanc, hbal⟩, hupd, ?_⟩)
    cases hfind : findOrphan order T₁ block.header.blockId with
    | none =>
      rw [hfind] at h
      exact .inl ⟨rfl, (Except.ok.inj h).symm⟩
    | some o =>
      rw [hfind] at h
      obtain ⟨T₂, hT₂, h⟩ := Exec.bind_eq_ok.mp h
      exact .inr ⟨o, T₂, rfl, hT₂, (Except.ok.inj h).symm⟩

theorem addOrphanBlock_eq_ok :
    ∀ {fuel : ℕ} {order : IterOrder} {T : BlockTree} {block : BlockNode} {T' : BlockTree},
      addOrphanBlock C profile fuel order T block leadingZeroLen = .ok T' →
      Adopts C profile leadingZeroLen (fun _ _ => True) T block T'
  | 0, _, _, _, _, h => absurd h (Exec.outOfFuel_ne_ok _)
  | fuel + 1, order, T, block, T', h => by
      rcases addOrphanBlock_cases h with ⟨hnot, rfl⟩ | ⟨hfresh, hint, hparent, rfl⟩ |
        ⟨T₁, hacc, hupd, ⟨hnone, rfl⟩ | ⟨o, T₂, hfind, hrec, rfl⟩⟩
      · exact .rejected hnot
      · exact .stored hfresh hint hparent
      · exact .connected hacc trivial hupd (findOrphan_eq_none hnone)
      · obtain ⟨hwaits, key, ho⟩ := findOrphan_eq_some hfind
        exact .cascaded hacc trivial hupd ho hwaits (addOrphanBlock_eq_ok hrec)

/-- `add_block` is `add_orphan_block` after a look at both maps. -/
theorem addBlock_eq (fuel : ℕ) (order : IterOrder) (T : BlockTree) (block : BlockNode)
    (leadingZeroLen : ℕ) :
    addBlock C profile fuel order T block leadingZeroLen =
      if block.header.blockId ∈ T.allBlocks ∨ block.header.blockId ∈ T.orphans then .ok T
      else addOrphanBlock C profile (fuel + 1) order T block leadingZeroLen := by
  rw [addBlock, addOrphanBlock]
  by_cases hknown : block.header.blockId ∈ T.allBlocks ∨ block.header.blockId ∈ T.orphans
  · simp [hknown]
  · rw [not_or] at hknown
    simp [hknown.1, hknown.2]

/-- A known block is ignored; another one goes through the checks. -/
theorem returns_cases {call : Call} (h : Returns C profile T call T') :
    ((call.block.header.blockId ∈ T.allBlocks ∨ call.block.header.blockId ∈ T.orphans) ∧
      T' = T) ∨
    (call.block.header.blockId ∉ T.allBlocks ∧ call.block.header.blockId ∉ T.orphans ∧
      Adopts C profile call.leadingZeroLen (fun _ _ => True) T call.block T') := by
  obtain ⟨fuel, h⟩ := h
  rw [addBlock_eq] at h
  split at h
  · next hknown => exact .inl ⟨hknown, (Except.ok.inj h).symm⟩
  · next hknown =>
    rw [not_or] at hknown
    exact .inr ⟨hknown.1, hknown.2, addOrphanBlock_eq_ok h⟩

theorem returns_unique {T₁ T₂ : BlockTree} {call : Call} (h₁ : Returns C profile T call T₁)
    (h₂ : Returns C profile T call T₂) : T₁ = T₂ := by
  obtain ⟨m, hm⟩ := h₁
  obtain ⟨n, hn⟩ := h₂
  rw [addBlock_eq] at hm hn
  split at hm
  · next hknown =>
    rw [if_pos hknown] at hn
    exact Except.ok.inj (hm.symm.trans hn)
  · next hnew =>
    rw [if_neg hnew] at hn
    exact (growing_addOrphanBlock call.order T call.block).eq_of_ok hm hn

/-! ## The invariant rule -/

/-- Every orphan has the property `P`. -/
def Orphans (P : BlockNode → Prop) (T : BlockTree) : Prop :=
  ∀ id o, T.orphans.lookup id = some o → P o

theorem Orphans.insert {P : BlockNode → Prop} (h : Orphans P T) (hP : P block) :
    Orphans P { T with orphans := T.orphans.insert block.header.blockId block } := by
  intro id o ho
  by_cases hid : id = block.header.blockId
  · subst hid
    rw [AList.lookup_insert] at ho
    rw [← Option.some.inj ho]
    exact hP
  · rw [AList.lookup_insert_ne hid] at ho
    exact h id o ho

theorem Orphans.erase {P : BlockNode → Prop} (h : Orphans P T) (key : BlockId) :
    Orphans P { T with orphans := T.orphans.erase key } := by
  intro id o ho
  by_cases hid : id = key
  · subst hid
    rw [AList.lookup_erase] at ho
    exact absurd ho (by simp)
  · rw [AList.lookup_erase_ne hid] at ho
    exact h id o ho

theorem Inv.withOrphans (h : Inv T) (hshape : Shape T') (hall : T'.allBlocks = T.allBlocks)
    (hroot : T'.rootId = T.rootId) (hdepth : T'.blockDepth = T.blockDepth)
    (hwork : T'.workingBlockId = T.workingBlockId)
    (hfin : T'.finalizedBlockId = T.finalizedBlockId) : Inv T' := by
  obtain ⟨a, b, c, d, e, f, g, i, j⟩ := T'
  dsimp only at hall hroot hdepth hwork hfin
  subst hall hroot hdepth hwork hfin
  exact ⟨hshape, h.final.final_mem, h.final.working_mem, h.final.working_below,
    h.final.working_ne, h.final.depth_le, h.final.depth_eq⟩

theorem Inv.storeOrphan (h : Inv T) (block : BlockNode) :
    Inv { T with orphans := T.orphans.insert block.header.blockId block } :=
  h.withOrphans (h.shape.storeOrphan block) rfl rfl rfl rfl rfl

theorem Inv.eraseOrphan (h : Inv T) (id : BlockId) :
    Inv { T with orphans := T.orphans.erase id } :=
  h.withOrphans (h.shape.eraseOrphan id) rfl rfl rfl rfl rfl

theorem Adopts.mono {G G' : BlockTree → BlockNode → Prop} (hG : ∀ T b, G T b → G' T b)
    (h : Adopts C profile leadingZeroLen G T block T') :
    Adopts C profile leadingZeroLen G' T block T' := by
  induction h with
  | rejected hnot => exact .rejected hnot
  | stored hfresh hint hparent => exact .stored hfresh hint hparent
  | connected hacc hg hupd hnone => exact .connected hacc (hG _ _ hg) hupd hnone
  | cascaded hacc hg hupd ho hwaits _ ih => exact .cascaded hacc (hG _ _ hg) hupd ho hwaits ih

/-- The call returns, and each block it inserts has `G` in the tree it is inserted into. -/
def ReturnsWith (C : Crates) (profile : Profile) (G : BlockTree → BlockNode → Prop) (T : BlockTree)
    (call : Call) (T' : BlockTree) : Prop :=
  Returns C profile T call T' ∧
    ((call.block.header.blockId ∈ T.allBlocks ∨ call.block.header.blockId ∈ T.orphans) ∧ T' = T ∨
      Adopts C profile call.leadingZeroLen G T call.block T')

theorem ReturnsWith.mono {G G' : BlockTree → BlockNode → Prop} {call : Call}
    (h : ReturnsWith C profile G T call T') (hG : ∀ T b, G T b → G' T b) :
    ReturnsWith C profile G' T call T' :=
  ⟨h.1, h.2.imp id fun h => h.mono hG⟩

theorem returnsWith_true {call : Call} (h : Returns C profile T call T') :
    ReturnsWith C profile (fun _ _ => True) T call T' :=
  ⟨h, (returns_cases h).imp id fun h => h.2.2⟩

theorem returnsWith_of_orphans_empty {G : BlockTree → BlockNode → Prop} {call : Call} (hT : Inv T)
    (hos : T.orphans = ∅) (h : Returns C profile T call T') (hG : G T call.block) :
    ReturnsWith C profile G T call T' := by
  refine ⟨h, (returns_cases h).imp id fun ⟨_, _, h⟩ => ?_⟩
  cases h with
  | rejected hnot => exact .rejected hnot
  | stored hfresh hint hparent => exact .stored hfresh hint hparent
  | connected hacc _ hupd hnone => exact .connected hacc hG hupd hnone
  | cascaded hacc _ hupd ho =>
    rw [(hacc.inserted hT hupd).1.orphans, hos] at ho
    exact absurd ho (by simp)

/-- `I` survives the insertion of a block that has `G` in the tree before, and does not look at the
orphans. -/
structure Keeps (C : Crates) (profile : Profile) (leadingZeroLen : ℕ)
    (G : BlockTree → BlockNode → Prop) (I : BlockTree → Prop) : Prop where
  insert : ∀ {T block T'}, Inv T → I T → Accepts C profile leadingZeroLen T block → G T block →
    Inserted C profile T block T' → I T'
  orphans : ∀ {T} os, I T → I { T with orphans := os }

section Rule
variable {G : BlockTree → BlockNode → Prop} {I : BlockTree → Prop}

theorem Adopts.keeps (hkeeps : Keeps C profile leadingZeroLen G I)
    (h : Adopts C profile leadingZeroLen G T block T') (hT : Inv T) (hI : I T) :
    Inv T' ∧ I T' := by
  induction h with
  | rejected => exact ⟨hT, hI⟩
  | stored => exact ⟨hT.storeOrphan _, hkeeps.orphans _ hI⟩
  | connected hacc hG hupd =>
    obtain ⟨hins, hT₁⟩ := hacc.inserted hT hupd
    exact ⟨hT₁, hkeeps.insert hT hI hacc hG hins⟩
  | cascaded hacc hG hupd _ _ _ ih =>
    obtain ⟨hins, hT₁⟩ := hacc.inserted hT hupd
    obtain ⟨hT₂, hI₂⟩ := ih hT₁ (hkeeps.insert hT hI hacc hG hins)
    exact ⟨hT₂.eraseOrphan _, hkeeps.orphans _ hI₂⟩

/-- The step lemma of every run. -/
theorem returns_keeps {call : Call} (hkeeps : Keeps C profile call.leadingZeroLen G I)
    (h : ReturnsWith C profile G T call T') (hT : Inv T) (hI : I T) : Inv T' ∧ I T' := by
  rcases h.2 with ⟨-, rfl⟩ | h
  · exact ⟨hT, hI⟩
  · exact h.keeps hkeeps hT hI

end Rule

theorem returns_inv {call : Call} (h : Returns C profile T call T') (hT : Inv T) : Inv T' :=
  (returns_keeps (I := fun _ => True) ⟨fun _ _ _ _ _ => trivial, fun _ _ => trivial⟩
    (returnsWith_true h) hT trivial).1

/-! ## What the delivered blocks have in common -/

section Delivered
variable {P : BlockNode → Prop} {G : BlockTree → BlockNode → Prop}

theorem Adopts.and_of_orphans (h : Adopts C profile leadingZeroLen G T block T') (hT : Inv T)
    (hos : Orphans P T) (hP : P block) :
    Adopts C profile leadingZeroLen (fun T b => G T b ∧ P b) T block T' ∧ Orphans P T' := by
  induction h with
  | rejected hnot => exact ⟨.rejected hnot, hos⟩
  | stored hfresh hint hparent => exact ⟨.stored hfresh hint hparent, hos.insert hP⟩
  | connected hacc hG hupd hnone =>
    refine ⟨.connected hacc ⟨hG, hP⟩ hupd hnone, ?_⟩
    rw [Orphans, (hacc.inserted hT hupd).1.orphans]
    exact hos
  | @cascaded T T₁ T₂ block o id hacc hG hupd ho hwaits _ ih =>
    obtain ⟨hins, hT₁⟩ := hacc.inserted hT hupd
    have hos₁ : Orphans P T₁ := by
      rw [Orphans, hins.orphans]
      exact hos
    obtain ⟨hrec, hos₂⟩ := ih hT₁ hos₁ (hos₁ id o ho)
    exact ⟨.cascaded hacc ⟨hG, hP⟩ hupd ho hwaits hrec, hos₂.erase _⟩

theorem ReturnsWith.and_of_orphans {call : Call} (h : ReturnsWith C profile G T call T')
    (hT : Inv T) (hos : Orphans P T) (hP : P call.block) :
    ReturnsWith C profile (fun T b => G T b ∧ P b) T call T' ∧ Orphans P T' := by
  obtain ⟨hret, ⟨hknown, rfl⟩ | h⟩ := h
  · exact ⟨⟨hret, .inl ⟨hknown, rfl⟩⟩, hos⟩
  · obtain ⟨h, hos'⟩ := h.and_of_orphans hT hos hP
    exact ⟨⟨hret, .inr h⟩, hos'⟩

end Delivered

theorem returns_only {call : Call} (hT : Inv T) (h : Returns C profile T call T') :
    (∀ b, T'.Stored b → T.Stored b ∨ b = call.block ∨ ∃ id, T.orphans.lookup id = some b) ∧
      Orphans (fun o => o = call.block ∨ ∃ id, T.orphans.lookup id = some o) T' := by
  obtain ⟨hcall, hos⟩ := (returnsWith_true h).and_of_orphans hT
    (P := fun o => o = call.block ∨ ∃ id, T.orphans.lookup id = some o)
    (fun id o ho => .inr ⟨id, ho⟩) (.inl rfl)
  refine ⟨(returns_keeps (I := fun T' => ∀ b, T'.Stored b → T.Stored b ∨ b = call.block ∨
    ∃ id, T.orphans.lookup id = some b) ⟨?_, fun _ hI => hI⟩ hcall hT fun b hb => .inl hb).2, hos⟩
  intro T₁ block T₂ _ hI _ hG hins b hb
  rcases hins.stored_cases hb with rfl | hb
  · exact .inr hG.2
  · exact hI b hb

/-! ## The first tree -/

/-- The tree that `BlockTree::new` returns. -/
def genesisTree : BlockTree where
  allBlocks := AList.insert "0" BlockNode.genesisBlock ∅
  childrenMap := ∅
  blockDepth := AList.insert "0" 0 ∅
  rootId := "0"
  workingBlockId := "0"
  orphans := ∅
  finalizedBlockId := "0"
  finalizedBalanceMap := AList.insert
    "MDgCMQCqrJ1yIJ7cDQIdTuS+4CkKn/tQPN7bZFbbGCBhvjQxs71f6Vu+sD9eh8JGpfiZSckCAwEAAQ==" 299792458 ∅
  finalizedTxIds := ∅

theorem genesis_amount : extractAmount "SEND $299792458" = .ok 299792458 := by rfl

theorem new_eq : BlockTree.new = .ok genesisTree := by
  unfold BlockTree.new
  simp only [BlockNode.genesisBlock, BlockNode.txs, List.foldlM_cons, List.foldlM_nil,
    genesis_amount, Exec.ok_bind, Exec.pure_eq_ok]
  rfl

theorem getBlock_genesisTree {id : BlockId} {b : BlockNode}
    (h : genesisTree.getBlock id = some b) : id = "0" ∧ b = BlockNode.genesisBlock := by
  rw [getBlock, genesisTree] at h
  by_cases hid : id = "0"
  · subst hid
    rw [AList.lookup_insert] at h
    exact ⟨rfl, (Option.some.inj h).symm⟩
  · rw [AList.lookup_insert_ne hid] at h
    exact absurd h (by simp)

theorem shape_genesisTree : Shape genesisTree := by
  have hno : ∀ id p, genesisTree.parentOf id ≠ some p := by
    intro id p hp
    unfold parentOf at hp
    split at hp
    · exact absurd hp (by simp)
    · next hid =>
      obtain ⟨b, hb, -⟩ := Option.map_eq_some_iff.mp hp
      exact hid (getBlock_genesisTree hb).1
  constructor
  case root_id => rfl
  case root_block => exact AList.lookup_insert _
  case root_depth => exact AList.lookup_insert _
  case all_keyed =>
    intro id b hb
    obtain ⟨rfl, rfl⟩ := getBlock_genesisTree hb
    rfl
  case orphans_keyed => exact fun id b hb => absurd hb (by simp [genesisTree])
  case depth_keys =>
    intro id
    rw [genesisTree, AList.mem_insert, AList.mem_insert]
    exact Iff.rfl
  case parent_mem => exact fun id b hb hid => absurd (getBlock_genesisTree hb).1 hid
  case depth_succ => exact fun id b hb hid => absurd (getBlock_genesisTree hb).1 hid
  case children_nodup => exact fun p cs hcs => absurd hcs (by simp [genesisTree])
  case mem_children => exact fun p cs hcs => absurd hcs (by simp [genesisTree])
  case children_keys =>
    intro p
    refine ⟨fun hp => absurd hp (by simp [genesisTree]), ?_⟩
    rintro ⟨id, hid⟩
    exact absurd hid (hno id p)

theorem inv_genesisTree : Inv genesisTree := by
  have hshape := shape_genesisTree
  refine ⟨hshape, hshape.root_mem, hshape.root_mem, .refl _, fun h => absurd rfl h,
    fun id hid _ => ?_, fun h => absurd rfl h⟩
  obtain ⟨b, hb⟩ := mem_allBlocks_iff.mp hid
  obtain ⟨rfl, -⟩ := getBlock_genesisTree hb
  exact Nat.le_add_right _ _

theorem orphans_genesisTree (P : BlockNode → Prop) : Orphans P genesisTree :=
  fun id o ho => absurd ho (by simp [genesisTree])

end BlockTree

open BlockTree

/-! ## Runs -/

section Runs
variable {C : Crates} {profile : Profile} {T T' : BlockTree}

theorem reachable_iff : Reachable C profile T ↔
    ∃ calls, Run (Returns C profile) genesisTree calls T := by
  constructor
  · rintro ⟨T₀, calls, hnew, hrun⟩
    rw [new_eq] at hnew
    obtain rfl := Except.ok.inj hnew
    exact ⟨calls, hrun⟩
  · rintro ⟨calls, hrun⟩
    exact ⟨genesisTree, calls, new_eq, hrun⟩

theorem reachable_genesisTree : Reachable C profile genesisTree := reachable_iff.mpr ⟨[], .nil _⟩

/-- The run rule. -/
theorem run_with_keeps {G : BlockTree → BlockNode → Prop} {I : BlockTree → Prop}
    {calls : List Call} (hrun : Run (ReturnsWith C profile G) genesisTree calls T)
    (hkeeps : ∀ call ∈ calls, Keeps C profile call.leadingZeroLen G I) (h₀ : I genesisTree) :
    Inv T ∧ I T := by
  refine (hrun.guarded_of_forall hkeeps).invariant (I := fun T => Inv T ∧ I T) ?_
    ⟨inv_genesisTree, h₀⟩
  rintro T call T' ⟨hT, hI⟩ ⟨hcall, hkeeps⟩
  exact returns_keeps hkeeps hcall hT hI

theorem run_of_returnsWith {G : BlockTree → BlockNode → Prop} {calls : List Call}
    (hrun : Run (ReturnsWith C profile G) T calls T') : Run (Returns C profile) T calls T' :=
  hrun.mono fun _ _ _ h => h.1

theorem Reachable.keeps {I : BlockTree → Prop} (h : Reachable C profile T)
    (hkeeps : ∀ z, Keeps C profile z (fun _ _ => True) I) (h₀ : I genesisTree) : Inv T ∧ I T := by
  obtain ⟨calls, hrun⟩ := reachable_iff.mp h
  exact run_with_keeps (hrun.mono fun _ _ _ => returnsWith_true) (fun _ _ => hkeeps _) h₀

/-- What all delivered blocks have, each inserted block has. -/
theorem run_and_of_delivered {P : BlockNode → Prop} {G : BlockTree → BlockNode → Prop}
    {calls : List Call} (hrun : Run (ReturnsWith C profile G) genesisTree calls T)
    (hP : ∀ call ∈ calls, P call.block) :
    Run (ReturnsWith C profile fun T b => G T b ∧ P b) genesisTree calls T ∧ Inv T ∧
      Orphans P T := by
  generalize hT₀ : genesisTree = T₀ at hrun
  induction hrun with
  | nil =>
    subst hT₀
    exact ⟨.nil _, inv_genesisTree, orphans_genesisTree P⟩
  | snoc _ hcall ih =>
    obtain ⟨hrun, hT, hos⟩ := ih (fun call hmem => hP call (List.mem_append_left _ hmem))
    obtain ⟨hcall', hos'⟩ := hcall.and_of_orphans hT hos (hP _ (by simp))
    exact ⟨hrun.snoc hcall', returns_inv hcall.1 hT, hos'⟩

theorem Reachable.inv (h : Reachable C profile T) : Inv T := by
  obtain ⟨calls, hrun⟩ := reachable_iff.mp h
  exact hrun.invariant (fun _ _ _ hT hcall => returns_inv hcall hT) inv_genesisTree

/-- The blocks that the calls can bring into the tree, and the genesis block. -/
def Delivered (C : Crates) (calls : List Call) (b : BlockNode) : Prop :=
  b = BlockNode.genesisBlock ∨ ((∃ call ∈ calls, call.block = b) ∧
    ∃ call ∈ calls, verifyBlockIntegrity C b call.leadingZeroLen = .ok true)

/-- Every stored block was delivered and has passed `verify_block_integrity`. -/
theorem stored_delivered {calls : List Call} (hrun : Run (Returns C profile) genesisTree calls T)
    {b : BlockNode} (hb : T.Stored b) : Delivered C calls b := by
  obtain ⟨hrun, -, -⟩ := run_and_of_delivered (P := fun b => ∃ call ∈ calls, call.block = b)
    (hrun.mono fun _ _ _ => returnsWith_true) fun call hcall => ⟨call, hcall, rfl⟩
  refine (run_with_keeps (I := fun T => ∀ b, T.Stored b → Delivered C calls b) hrun
    (fun call hcall => ?_) fun b hb => .inl (getBlock_genesisTree hb).2).2 b hb
  refine ⟨fun _ hI hacc hG hins b hb => ?_, fun _ hI => hI⟩
  rcases hins.stored_cases hb with rfl | hb
  · exact .inr ⟨hG.2, call, hcall, hacc.integrity⟩
  · exact hI b hb

theorem Reachable.parses (h : Reachable C profile T) {b : BlockNode} (hb : T.Stored b)
    (hid : b.header.blockId ≠ "0") : ∀ tx ∈ b.txs, tx.Parses := by
  have hI := (h.keeps (I := fun T => ∀ b, T.Stored b → b.header.blockId ≠ "0" →
    ∀ tx ∈ b.txs, tx.Parses) (fun z => ?_) ?_).2
  · exact hI b hb hid
  · refine ⟨fun {T block T'} _ hI hacc _ hins b hb hid => ?_, fun _ hI => hI⟩
    rcases hins.stored_cases hb with rfl | hb
    · exact hacc.parses
    · exact hI b hb hid
  · exact fun b hb hid => absurd (getBlock_genesisTree hb).1 hid

theorem Reachable.returns {call : Call} (h : Reachable C profile T)
    (hcall : Returns C profile T call T') : Reachable C profile T' := by
  obtain ⟨T₀, calls, hnew, hrun⟩ := h
  exact ⟨T₀, _, hnew, hrun.snoc hcall⟩

end Runs

end NakamotoNode.Chain
