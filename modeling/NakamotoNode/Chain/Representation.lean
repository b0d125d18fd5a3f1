import NakamotoNode.Chain.Chains

/-! # The maps of a reachable tree agree, and no lookup fails

`Shape` holds of every reachable tree (it is part of `Inv`), so the parents of a stored block lead
to the root in as many steps as the depth map says. What is new here is that the lookups of the
chain cannot fail, in calls that return and in calls that do not: `NoLookupPanic`. -/

namespace NakamotoNode.Chain
open Foundations Foundations.RustStd
set_option autoImplicit false

/-- The panics of `unwrap` on a lookup in the maps of the tree. -/
def Panic.IsLookup : Panic → Prop
  | ancestryParent | workingBlock | pendingParent | rewardParent | finalizedChildren | parentDepth
  | parentChildren => True
  | _ => False

/-- The execution does not panic at a lookup. -/
def NoLookupPanic {α : Type} (x : Exec Panic α) : Prop :=
  Exec.Sat x (fun _ => True) fun e => ¬ e.IsLookup

namespace NoLookupPanic
variable {α β : Type}

theorem ok (a : α) : NoLookupPanic (.ok a) := trivial

theorem bind {x : Exec Panic α} {f : α → Exec Panic β} (hx : NoLookupPanic x)
    (hf : ∀ a, x = .ok a → NoLookupPanic (f a)) : NoLookupPanic (x >>= f) := by
  refine Exec.Sat.bind (P := fun a => x = .ok a) ?_ hf
  exact Exec.sat_iff.mpr ⟨fun _ ha => ha, fun _ he => hx.of_panic he⟩

theorem unwrap {e : Panic} (he : ¬ e.IsLookup) (o : Option α) : NoLookupPanic (Exec.unwrap e o) :=
  Exec.Sat.unwrap (fun _ _ => trivial) fun _ => he

theorem foldlM {f : β → α → Exec Panic β} (hf : ∀ b a, NoLookupPanic (f b a)) (l : List α)
    (b : β) : NoLookupPanic (l.foldlM f b) :=
  Exec.Sat.foldlM l b (fun a _ b _ => hf b a) trivial

theorem of_never {x : Exec Panic α} {Q : α → Prop} (h : Exec.Sat x Q fun _ => False) :
    NoLookupPanic x := h.mono (fun _ _ => trivial) fun _ he => he.elim

end NoLookupPanic

namespace BlockTree
variable {C : Crates} {profile : Profile} {leadingZeroLen : ℕ} {T T' : BlockTree}
  {block : BlockNode}

/-! ## Signatures and balances -/

theorem verifySig_noLookupPanic (C : Crates) (tx : Transaction) :
    NoLookupPanic (tx.verifySig C) :=
  (NoLookupPanic.unwrap id _).bind fun _ _ => (NoLookupPanic.unwrap id _).bind fun _ _ =>
    (NoLookupPanic.unwrap id _).bind fun _ _ => (NoLookupPanic.unwrap id _).bind fun _ _ =>
      (NoLookupPanic.unwrap id _).bind fun _ _ => .ok _

theorem allVerifySig_noLookupPanic (C : Crates) :
    ∀ txs : List Transaction, NoLookupPanic (allVerifySig C txs)
  | [] => .ok _
  | tx :: txs => by
      refine (verifySig_noLookupPanic C tx).bind fun valid _ => ?_
      cases valid with
      | false => exact .ok _
      | true => exact allVerifySig_noLookupPanic C txs

theorem extractAmount_noLookupPanic (message : String) : NoLookupPanic (extractAmount message) :=
  (NoLookupPanic.unwrap id _).bind fun _ _ => .unwrap id _

theorem i64_noLookupPanic (profile : Profile) (v : ℤ) :
    NoLookupPanic (i64 profile .balanceOverflow v) :=
  (i64_sat profile _ v).mono (fun _ _ => trivial) fun _ he => he.2 ▸ id

theorem addBalance_noLookupPanic (profile : Profile) (L : Ledger UserId) (u : UserId) (a : ℤ) :
    NoLookupPanic (addBalance profile L u a) :=
  (i64_noLookupPanic profile _).bind fun _ _ => .ok _

theorem moveAmount_noLookupPanic (profile : Profile) (L : Ledger UserId) (tx : Transaction)
    (a : ℤ) : NoLookupPanic (moveAmount profile L tx a) :=
  ((i64_noLookupPanic profile _).bind fun _ _ => .ok _).bind fun _ _ =>
    addBalance_noLookupPanic profile _ _ _

theorem applyTx_noLookupPanic (profile : Profile) (L : Ledger UserId) (tx : Transaction) :
    NoLookupPanic (applyTx profile L tx) :=
  (extractAmount_noLookupPanic _).bind fun _ _ => moveAmount_noLookupPanic profile _ _ _

theorem checkTxs_noLookupPanic (profile : Profile) :
    ∀ (L : Ledger UserId) (txs : List Transaction), NoLookupPanic (checkTxs profile L txs)
  | _, [] => .ok _
  | L, tx :: txs => by
      refine (extractAmount_noLookupPanic _).bind fun a _ => ?_
      split
      · exact .ok _
      · exact (moveAmount_noLookupPanic profile _ _ _).bind fun L _ =>
          checkTxs_noLookupPanic profile L txs

/-! ## The functions of the tree -/

theorem verifiyTransactionsBalance_noLookupPanic (hT : Inv T) {pb : BlockNode} (hpb : T.Stored pb)
    (block : BlockNode) (fuel : ℕ) :
    NoLookupPanic (verifiyTransactionsBalance profile T block pb fuel) := by
  refine NoLookupPanic.bind (.of_never (getPendingFinalizationTxs_sat hT.shape
    hT.final.working_mem hT.final.working_below fuel)) fun pending _ => ?_
  refine (NoLookupPanic.foldlM (applyTx_noLookupPanic profile) pending _).bind fun L _ => ?_
  refine NoLookupPanic.bind ((addRewards_sat hT.shape hpb L fuel).mono (fun _ _ => trivial)
    fun e he => he.2 ▸ id) fun r _ => ?_
  refine (checkTxs_noLookupPanic profile _ _).bind fun checked _ => ?_
  cases checked with
  | none => exact .ok _
  | some L₂ => exact (addBalance_noLookupPanic profile _ _ _).bind fun _ _ => .ok _

theorem finalizeTxs_noLookupPanic (L : Ledger UserId) (txs : List Transaction) :
    NoLookupPanic (finalizeTxs C profile L txs) :=
  .foldlM (fun _ _ => (applyTx_noLookupPanic profile _ _).bind fun _ _ => .ok _) _ _

theorem updateBlocktree_noLookupPanic (hT : Inv T)
    (hacc : Accepts C profile leadingZeroLen T block) :
    NoLookupPanic (updateBlocktree C profile T block) := by
  rw [updateBlocktree_eq hT.shape hacc.parent_mem]
  obtain ⟨cs, hcs⟩ := Option.isSome_iff_exists.mp (AList.lookup_isSome.mpr
    (finalized_children_mem hT hacc.fresh hacc.parent_mem (hacc.belowFinal hT.shape)))
  rw [finalizeBlock, graft_finalizedBlockId, hcs, Exec.unwrap_some, Exec.ok_bind]
  split
  · exact .ok _
  · split
    · exact (finalizeTxs_noLookupPanic _ _).bind fun _ _ =>
        (addBalance_noLookupPanic profile _ _ _).bind fun _ _ => .ok _
    · exact .ok _

theorem addOrphanBlock_noLookupPanic :
    ∀ (fuel : ℕ) (order : IterOrder) {T : BlockTree} (block : BlockNode), Inv T →
      NoLookupPanic (addOrphanBlock C profile fuel order T block leadingZeroLen)
  | 0, _, _, _, _ => trivial
  | fuel + 1, order, T, block, hT => by
      refine NoLookupPanic.bind ((allVerifySig_noLookupPanic C block.txs).bind fun _ _ => .ok _)
        fun integrity hint => ?_
      split
      · exact .ok _
      · next hyes =>
        obtain ⟨rfl, hfresh⟩ : integrity = true ∧ block.header.blockId ∉ T.allBlocks := by
          simpa using hyes
        cases hpb : T.getBlock block.header.parent with
        | none => exact .ok _
        | some pb =>
          obtain ⟨-, hst⟩ := hT.shape.stored_of_getBlock hpb
          refine NoLookupPanic.bind (.of_never (verifyBlockAncestry_sat hT.shape hst _ fuel))
            fun noDuplicate hanc => ?_
          split
          · exact .ok _
          · next hno =>
            refine NoLookupPanic.bind (verifiyTransactionsBalance_noLookupPanic hT hst _ fuel)
              fun sufficient hbal => ?_
            split
            · exact .ok _
            · next hsuff =>
              rw [not_not] at hno hsuff
              subst hno hsuff
              have hacc : Accepts C profile leadingZeroLen T block :=
                ⟨hfresh, hint, pb, fuel, hpb, hanc, hbal⟩
              refine (updateBlocktree_noLookupPanic hT hacc).bind fun T₁ hupd => ?_
              have hT₁ := (hacc.inserted hT hupd).2
              cases findOrphan order T₁ block.header.blockId with
              | none => exact .ok _
              | some o =>
                exact NoLookupPanic.bind (addOrphanBlock_noLookupPanic fuel order.next o hT₁)
                  fun _ _ => .ok _

theorem addBlock_noLookupPanic (hT : Inv T) (fuel : ℕ) (order : IterOrder) (block : BlockNode) :
    NoLookupPanic (addBlock C profile fuel order T block leadingZeroLen) := by
  rw [addBlock_eq]
  split
  · exact .ok _
  · exact addOrphanBlock_noLookupPanic (fuel + 1) order block hT

/-- The depth of a stored block is the number of parents between it and the root. -/
theorem climb_eq_root_iff (hT : Shape T) {id : BlockId} (hid : id ∈ T.allBlocks) (n : ℕ) :
    Forest.climb T.parentOf n id = some "0" ↔ n = T.depthOf id := by
  constructor
  · intro h
    have := hT.graded.depth_climb h
    rw [hT.depthOf_root] at this
    omega
  · rintro rfl
    have := hT.graded.climb_of_descends (hT.descends_root hid)
    rwa [hT.depthOf_root] at this

end BlockTree

/-- In every reachable tree the maps agree with the parent links, these lead from a stored block to
the root in exactly as many steps as its depth, and a call, whether or not it returns, never panics
at a lookup in the tree. -/
theorem representation_invariant {C : Crates} {profile : Profile} {T : BlockTree}
    (h : Reachable C profile T) :
    BlockTree.Shape T ∧
    (∀ id ∈ T.allBlocks, ∀ n, Forest.climb T.parentOf n id = some T.rootId ↔ n = T.depthOf id) ∧
    ∀ (call : Call) (fuel : ℕ) (e : Panic),
      BlockTree.addBlock C profile fuel call.order T call.block call.leadingZeroLen
        = Exec.panic e → ¬ e.IsLookup := by
  have hT := h.inv
  refine ⟨hT.shape, fun id hid n => ?_, fun call fuel e he => ?_⟩
  · rw [hT.shape.root_id]
    exact BlockTree.climb_eq_root_iff hT.shape hid n
  · exact (BlockTree.addBlock_noLookupPanic hT fuel call.order call.block).of_panic he

theorem representation_invariant_settledChain : ∃ T : BlockTree,
    T.finalizedBlockId = minedId 'a' ∧ BlockTree.Shape T ∧
    Forest.climb T.parentOf 7 T.workingBlockId = some T.rootId := by
  obtain ⟨T, hrun, hT, -, hfin, -⟩ := BlockTree.settledChain_run .debug
  obtain ⟨hshape, hclimb, -⟩ :=
    representation_invariant (reachable_iff.mpr ⟨_, run_of_returnsWith hrun⟩)
  exact ⟨T, hfin, hshape,
    (hclimb _ hT.inv.final.working_mem 7).mpr hT.depth_working.symm⟩

end NakamotoNode.Chain
