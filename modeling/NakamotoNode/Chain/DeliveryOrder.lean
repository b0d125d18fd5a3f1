import NakamotoNode.Chain.Finality

/-! # The order in which a chain is delivered

The blocks of a single path are delivered in any order and any number of times. Each tree on the way
is one that the delivery in order passes through, but for its orphans (`Partway`): `done` is in the
tree, `rest` is to come, and the first block of `rest` does not wait among the orphans. A delivery of
that block is followed by the blocks of `rest` that do wait (`adopt`). -/

namespace NakamotoNode.Chain
open Foundations Foundations.RustStd
set_option autoImplicit false

namespace BlockTree
variable {C : Crates} {profile : Profile} {d : ℕ} {T T' Tn : BlockTree} {b : BlockNode}
  {bs : List BlockNode} {p : BlockId}

theorem IsPath.depth_lt (hT : Shape T) (hp : p ≠ "0") (h : IsPath p bs) (hst : ∀ c ∈ bs, T.Stored c) :
    ∀ c ∈ bs, T.depthOf p < T.depthOf c.header.blockId := by
  induction bs generalizing p with
  | nil => exact nofun
  | cons b bs ih =>
    have hb := hst b (by simp)
    have hroot : b.header.blockId ≠ "0" := by
      intro he
      rw [hT.stored_eq_genesis hb he] at h
      exact hp h.1.symm
    have hdepth := hT.depth_succ _ b hb hroot
    rw [h.1] at hdepth
    intro c hc
    rcases List.mem_cons.mp hc with rfl | hc
    · omega
    · have := ih hroot h.2 (fun c hc => hst c (by simp [hc])) c hc
      omega

/-! ## Blocks inserted in turn -/

/-- The blocks are accepted and inserted in turn. -/
inductive Grows (C : Crates) (profile : Profile) (d : ℕ) :
    BlockTree → List BlockNode → BlockTree → Prop
  | nil (T : BlockTree) : Grows C profile d T [] T
  | cons {T T₁ T' : BlockTree} {b : BlockNode} {bs : List BlockNode}
      (hacc : Accepts C profile d T b) (hupd : updateBlocktree C profile T b = .ok T₁)
      (h : Grows C profile d T₁ bs T') : Grows C profile d T (b :: bs) T'

theorem Grows.eq_of_nil (h : Grows C profile d T [] T') : T' = T := by
  generalize hbs : [] = bs at h
  cases h with
  | nil => rfl
  | cons => exact absurd hbs (by simp)

theorem Grows.withOrphans (os : AList fun _ : BlockId => BlockNode)
    (h : Grows C profile d T bs T') :
    Grows C profile d { T with orphans := os } bs { T' with orphans := os } := by
  induction h with
  | nil => exact .nil _
  | cons hacc hupd _ ih =>
    exact .cons ((accepts_withOrphans os).mpr hacc) (updateBlocktree_withOrphans os hupd) ih

theorem Grows.fresh (h : Grows C profile d T bs T') (hT : Inv T) :
    ∀ c ∈ bs, c.header.blockId ∉ T.allBlocks := by
  induction h with
  | nil => exact nofun
  | @cons T T₁ T' b bs hacc hupd _ ih =>
    obtain ⟨hins, hT₁⟩ := hacc.inserted hT hupd
    intro c hc
    rcases List.mem_cons.mp hc with rfl | hc
    · exact hacc.fresh
    · exact fun hmem => ih hT₁ c hc (hins.mem_allBlocks.mpr (.inr hmem))

theorem Grows.integrity (h : Grows C profile d T bs T') :
    ∀ c ∈ bs, verifyBlockIntegrity C c d = .ok true := by
  induction h with
  | nil => exact nofun
  | cons hacc _ _ ih =>
    intro c hc
    rcases List.mem_cons.mp hc with rfl | hc
    · exact hacc.integrity
    · exact ih c hc

theorem Grows.nodup (h : Grows C profile d T bs T') (hT : Inv T) :
    (bs.map fun c => c.header.blockId).Nodup := by
  induction h with
  | nil => exact List.nodup_nil
  | @cons T T₁ T' b bs hacc hupd h ih =>
    obtain ⟨hins, hT₁⟩ := hacc.inserted hT hupd
    rw [List.map_cons, List.nodup_cons]
    refine ⟨fun hmem => ?_, ih hT₁⟩
    obtain ⟨c, hc, he⟩ := List.mem_map.mp hmem
    exact h.fresh hT₁ c hc (hins.mem_allBlocks.mpr (.inl he))

/-! ## Part of the way -/

/-- The blocks of `done` are in the tree, those of `rest` are still to be inserted, and of the ones
delivered so far (`seen`) those that are not in the tree are orphans. -/
structure Pending (C : Crates) (profile : Profile) (d : ℕ) (chain : List BlockNode) (Tn : BlockTree)
    (seen done rest : List BlockNode) (T : BlockTree) : Prop where
  split : done ++ rest = chain
  inv : Inv T
  grows : Grows C profile d T rest { Tn with orphans := T.orphans }
  path : ∃ p ∈ T.allBlocks, IsPath p rest
  stored : ∀ c ∈ done, c.header.blockId ∈ T.allBlocks ∧ c.header.parent ∈ T.allBlocks
  orphans : Orphans (· ∈ chain) T
  kept : ∀ c ∈ seen, c ∈ chain → c ∈ done ∨ c.header.blockId ∈ T.orphans

/-- And the next block is not an orphan. -/
structure Partway (C : Crates) (profile : Profile) (d : ℕ) (chain : List BlockNode) (Tn : BlockTree)
    (seen done rest : List BlockNode) (T : BlockTree) : Prop
    extends Pending C profile d chain Tn seen done rest T where
  next : ∀ c, rest.head? = some c → c.header.blockId ∉ T.orphans

section Partway
variable {chain seen done rest : List BlockNode}

theorem Pending.orphan_eq (h : Pending C profile d chain Tn seen done rest T) {c o : BlockNode}
    (hc : c ∈ rest) (ho : T.orphans.lookup c.header.blockId = some o) : o = c := by
  have hid := h.inv.shape.orphans_keyed _ o ho
  have hfresh := h.grows.fresh h.inv c hc
  have hmem := h.orphans _ o ho
  rw [← h.split] at hmem
  rcases List.mem_append.mp hmem with hmem | hmem
  · exact absurd (hid ▸ (h.stored o hmem).1) hfresh
  · exact List.inj_on_of_nodup_map (h.grows.nodup h.inv) hmem hc hid

/-- Of the blocks of the path only the one after the next waits for the next. -/
theorem Pending.child (h : Pending C profile d chain Tn seen done (b :: rest) T) {o : BlockNode}
    (ho : o ∈ chain) (hparent : o.header.parent = b.header.blockId) :
    ∃ rest', rest = o :: rest' := by
  have hfresh := h.grows.fresh h.inv b (by simp)
  have hnodup := h.grows.nodup h.inv
  rw [List.map_cons, List.nodup_cons] at hnodup
  obtain ⟨p, hp, hb, hpath⟩ := h.path
  rw [← h.split] at ho
  rcases List.mem_append.mp ho with ho | ho
  · exact absurd (hparent ▸ (h.stored o ho).2) hfresh
  rcases List.mem_cons.mp ho with rfl | ho
  · exact absurd (hparent ▸ hb ▸ hp) hfresh
  cases rest with
  | nil => exact absurd ho (by simp)
  | cons c rest =>
    rcases List.mem_cons.mp ho with rfl | ho
    · exact ⟨rest, rfl⟩
    · -- its parent is further down
      exfalso
      rcases hpath.2.parent_mem ho with he | ⟨b', hb', he⟩
      · exact hnodup.1 (List.mem_map.mpr ⟨c, by simp, he.symm.trans hparent⟩)
      · exact hnodup.1 (List.mem_map.mpr ⟨b', by simp [hb'], he.trans hparent⟩)

theorem Pending.insert (h : Pending C profile d chain Tn seen done (b :: rest) T) :
    ∃ T₁, Continues C profile d T b T₁ ∧ T₁.orphans = T.orphans ∧
      Pending C profile d chain Tn seen (done ++ [b]) rest T₁ := by
  obtain ⟨p, -, -, hpath⟩ := h.path
  obtain _ | @⟨_, T₁, _, _, _, hacc, hupd, hgrows⟩ := h.grows
  obtain ⟨hins, hT₁⟩ := hacc.inserted h.inv hupd
  have hb : b.header.blockId ∈ T₁.allBlocks := hins.mem_allBlocks.mpr (.inl rfl)
  refine ⟨T₁, hacc.continues hupd, hins.orphans, ?_⟩
  constructor
  case split => rw [List.append_assoc, List.singleton_append, h.split]
  case inv => exact hT₁
  case grows =>
    rw [hins.orphans]
    exact hgrows
  case path => exact ⟨_, hb, hpath⟩
  case stored =>
    intro c hc
    rw [hins.mem_allBlocks, hins.mem_allBlocks]
    rcases List.mem_append.mp hc with hc | hc
    · exact ⟨.inr (h.stored c hc).1, .inr (h.stored c hc).2⟩
    · obtain rfl := List.mem_singleton.mp hc
      exact ⟨.inl rfl, .inr hacc.parent_mem⟩
  case orphans =>
    rw [Orphans, hins.orphans]
    exact h.orphans
  case kept =>
    intro c hc hchain
    rw [hins.orphans]
    exact (h.kept c hc hchain).imp_left fun hc => List.mem_append_left _ hc

theorem Partway.erase (h : Partway C profile d chain Tn seen done rest T)
    (hb : b.header.blockId ∈ T.allBlocks) : Partway C profile d chain Tn seen done rest
      { T with orphans := T.orphans.erase b.header.blockId } := by
  constructor
  case toPending =>
    refine ⟨h.split, h.inv.eraseOrphan _, h.grows.withOrphans _, h.path, h.stored,
      h.orphans.erase _, fun c hc hchain => ?_⟩
    refine (h.kept c hc hchain).elim .inl fun ho => ?_
    rw [← h.split] at hchain
    refine (List.mem_append.mp hchain).imp id fun hrest => ?_
    have hne : c.header.blockId ≠ b.header.blockId :=
      fun he => h.grows.fresh h.inv c hrest (he ▸ hb)
    exact AList.mem_erase.mpr ⟨hne, ho⟩
  case next => exact fun c hc hmem => h.next c hc (AList.mem_erase.mp hmem).2

theorem Pending.partway (h : Pending C profile d chain Tn seen done rest T)
    (hpath : IsPath p rest)
    (hnone : ∀ id o, T.orphans.lookup id = some o → o.header.parent ≠ p) :
    Partway C profile d chain Tn seen done rest T where
  toPending := h
  next := fun c hc hmem => by
    obtain ⟨rest', rfl⟩ := List.head?_eq_some_iff.mp hc
    obtain ⟨o, ho⟩ := Option.isSome_iff_exists.mp (AList.lookup_isSome.mpr hmem)
    obtain rfl := h.orphan_eq List.mem_cons_self ho
    exact hnone _ o ho hpath.1

theorem Pending.adopt {done rest : List BlockNode} {b : BlockNode} {T : BlockTree}
    (h : Pending C profile d chain Tn seen done (b :: rest) T) :
    ∃ done' rest' T', Partway C profile d chain Tn seen done' rest' T' ∧ b ∈ done' ∧
      (∀ c ∈ done, c ∈ done') ∧
      ∃ N, ∀ fuel, N ≤ fuel → ∀ order, addOrphanBlock C profile fuel order T b d = .ok T' := by
  obtain ⟨T₁, ⟨N, hrun⟩, hos, h₁⟩ := h.insert
  obtain ⟨p, -, -, hpath⟩ := h.path
  by_cases hnone : ∀ id o, T₁.orphans.lookup id = some o → o.header.parent ≠ b.header.blockId
  · refine ⟨done ++ [b], rest, T₁, h₁.partway hpath hnone, by simp,
      fun c hc => List.mem_append_left _ hc, N + 1, fun fuel hfuel order => ?_⟩
    obtain ⟨fuel, rfl⟩ : ∃ k, fuel = k + 1 := ⟨fuel - 1, by omega⟩
    rw [hrun fuel (by omega), findOrphan_eq_none_iff.mpr hnone]
  · push Not at hnone
    obtain ⟨id, o, ho, hwaits⟩ := hnone
    rw [hos] at ho
    obtain ⟨tail, hrest⟩ := h.child (h.orphans id o ho) hwaits
    rw [hrest] at h₁
    obtain ⟨done', rest', T₂, h₂, -, hold, N', hrun'⟩ := h₁.adopt
    have hb : b ∈ done' := hold b (by simp)
    refine ⟨done', rest', _, h₂.erase (h₂.stored b hb).1, hb, fun c hc => hold c (by simp [hc]),
      N + N' + 1, fun fuel hfuel order => ?_⟩
    obtain ⟨fuel, rfl⟩ : ∃ k, fuel = k + 1 := ⟨fuel - 1, by omega⟩
    have hone : ∀ key o', T₁.orphans.lookup key = some o' → o'.header.parent = b.header.blockId →
        o' = o := by
      intro key o' ho' hwaits'
      rw [hos] at ho'
      obtain ⟨rest'', he⟩ := h.child (h.orphans key o' ho') hwaits'
      exact (List.cons.inj (he.symm.trans hrest)).1
    rw [hrun fuel (by omega), findOrphan_of_unique order (hos ▸ ho) hwaits hone]
    dsimp only
    rw [hrun' fuel (by omega), Exec.ok_bind]
termination_by rest.length
decreasing_by simp [hrest]

/-! ## A delivery -/

theorem Pending.deliveredOnce (h : Pending C profile d chain Tn seen done rest T)
    (hb : b ∈ chain → b ∈ done ∨ b.header.blockId ∈ T.orphans) :
    Pending C profile d chain Tn (seen ++ [b]) done rest T where
  split := h.split
  inv := h.inv
  grows := h.grows
  path := h.path
  stored := h.stored
  orphans := h.orphans
  kept := fun c hc hchain => by
    rcases List.mem_append.mp hc with hc | hc
    · exact h.kept c hc hchain
    · obtain rfl := List.mem_singleton.mp hc
      exact hb hchain

theorem Pending.mem_rest (h : Pending C profile d chain Tn seen done rest T) (hb : b ∈ chain)
    (hnew : b.header.blockId ∉ T.allBlocks) : b ∈ rest := by
  rw [← h.split] at hb
  exact (List.mem_append.mp hb).resolve_left fun hdone => hnew (h.stored b hdone).1

theorem Partway.store {c : BlockNode} (h : Partway C profile d chain Tn seen done (c :: rest) T)
    (hb : b ∈ rest) : b.header.parent ∉ T.allBlocks ∧
      Partway C profile d chain Tn (seen ++ [b]) done (c :: rest)
        { T with orphans := T.orphans.insert b.header.blockId b } := by
  have hfresh := h.grows.fresh h.inv
  have hnodup := h.grows.nodup h.inv
  rw [List.map_cons, List.nodup_cons] at hnodup
  obtain ⟨p, hp, -, hpath⟩ := h.path
  have hchain : b ∈ chain := by
    rw [← h.split]
    exact List.mem_append_right _ (List.mem_cons_of_mem _ hb)
  constructor
  · rcases hpath.parent_mem hb with he | ⟨b', hb', he⟩
    · rw [he]
      exact hfresh c (by simp)
    · rw [← he]
      exact hfresh b' (by simp [hb'])
  constructor
  case toPending =>
    have hstore : Pending C profile d chain Tn seen done (c :: rest)
        { T with orphans := T.orphans.insert b.header.blockId b } :=
      ⟨h.split, h.inv.storeOrphan b, h.grows.withOrphans _, h.path, h.stored,
        h.orphans.insert hchain, fun c' hc' hmem => (h.kept c' hc' hmem).imp_right fun ho =>
          (AList.mem_insert _).mpr (.inr ho)⟩
    exact hstore.deliveredOnce fun _ => .inr ((AList.mem_insert _).mpr (.inl rfl))
  case next =>
    intro c' hc' hmem
    obtain rfl := Option.some.inj hc'
    rcases (AList.mem_insert _).mp hmem with he | hmem
    · exact hnodup.1 (List.mem_map.mpr ⟨b, hb, he.symm⟩)
    · exact h.next c rfl hmem

theorem Partway.deliver (h : Partway C profile d chain Tn seen done rest T) {call : Call}
    (hb : call.block ∈ chain ∨ call.block.header.blockId ∈ T.allBlocks)
    (hd : call.leadingZeroLen = d) : ∃ done' rest' T', Returns C profile T call T' ∧
      Partway C profile d chain Tn (seen ++ [call.block]) done' rest' T' := by
  obtain ⟨b, z, order⟩ := call
  dsimp only at hb hd ⊢
  subst hd
  by_cases hknown : b.header.blockId ∈ T.allBlocks ∨ b.header.blockId ∈ T.orphans
  · refine ⟨done, rest, T, ⟨0, by rw [addBlock_eq, if_pos hknown]⟩, ?_, h.next⟩
    refine h.toPending.deliveredOnce fun hchain => ?_
    by_cases hmem : b.header.blockId ∈ T.allBlocks
    · rw [← h.split] at hchain
      exact .inl ((List.mem_append.mp hchain).resolve_right fun hrest =>
        h.grows.fresh h.inv b hrest hmem)
    · exact .inr (hknown.resolve_left hmem)
  · rw [not_or] at hknown
    have hrest := h.mem_rest (hb.resolve_right hknown.1) hknown.1
    cases rest with
    | nil => exact absurd hrest (by simp)
    | cons c rest =>
      rcases List.mem_cons.mp hrest with rfl | hlater
      · obtain ⟨done', rest', T', h', hmem, -, N, hrun⟩ := h.toPending.adopt
        refine ⟨done', rest', T', ⟨N, ?_⟩, h'.toPending.deliveredOnce fun _ => .inl hmem, h'.next⟩
        rw [addBlock_eq, if_neg (not_or.mpr hknown)]
        exact hrun _ (by omega) order
      · obtain ⟨hparent, h'⟩ := h.store hlater
        exact ⟨done, c :: rest, _, returns_store hknown.1 hknown.2
          (h.grows.integrity b hrest) hparent order, h'⟩

end Partway

/-! ## Runs -/

/-- All the deliveries return, and the tree is part of the way at the end. -/
theorem partway_run {chain : List BlockNode} {calls : List Call}
    (hchain : Grows C profile d genesisTree chain Tn) (hos : Tn.orphans = ∅)
    (hpath : IsPath "0" chain)
    (hcalls : ∀ call ∈ calls, (call.block ∈ chain ∨ call.block.header.blockId = "0") ∧
      call.leadingZeroLen = d) :
    ∃ T done rest, Run (Returns C profile) genesisTree calls T ∧
      Partway C profile d chain Tn (calls.map Call.block) done rest T := by
  induction calls using List.reverseRecOn with
  | nil =>
    refine ⟨genesisTree, [], chain, .nil _, ?_, fun c hc hmem => absurd hmem (by simp [genesisTree])⟩
    refine ⟨rfl, inv_genesisTree, ?_, ⟨"0", inv_genesisTree.shape.root_mem, hpath⟩,
      fun _ hmem => absurd hmem List.not_mem_nil, orphans_genesisTree _,
      fun _ hmem => absurd hmem List.not_mem_nil⟩
    have hTn : { Tn with orphans := genesisTree.orphans } = Tn := by
      rw [show genesisTree.orphans = Tn.orphans from hos.symm]
    rw [hTn]
    exact hchain
  | append_singleton calls call ih =>
    obtain ⟨T, done, rest, hrun, hT⟩ := ih fun c hc => hcalls c (List.mem_append_left _ hc)
    obtain ⟨hb, hd⟩ := hcalls call (by simp)
    obtain ⟨done', rest', T', hcall, hT'⟩ := hT.deliver
      (hb.imp_right fun he => he ▸ hT.inv.shape.root_mem) hd
    refine ⟨T', done', rest', hrun.snoc hcall, ?_⟩
    rw [List.map_append, List.map_singleton]
    exact hT'

/-- Once each block was delivered nothing is left to come. -/
theorem Partway.complete {chain seen done rest : List BlockNode}
    (h : Partway C profile d chain Tn seen done rest T) (hseen : ∀ b ∈ chain, b ∈ seen) :
    T = { Tn with orphans := T.orphans } := by
  cases rest with
  | nil => exact h.grows.eq_of_nil.symm
  | cons c rest =>
    have hc : c ∈ chain := by
      rw [← h.split]
      simp
    rcases h.kept c (hseen c hc) hc with hdone | ho
    · exact absurd (h.stored c hdone).1 (h.grows.fresh h.inv c (by simp))
    · exact absurd ho (h.next c rfl)

theorem run_unique {T₁ T₂ : BlockTree} {calls : List Call} (h₁ : Run (Returns C profile) T calls T₁)
    (h₂ : Run (Returns C profile) T calls T₂) : T₁ = T₂ := by
  refine Run.unique ?_ h₁ h₂
  exact fun _ _ _ _ h h' => returns_unique h h'

theorem stored_of_run {calls : List Call} (hT : Inv T) (hrun : Run (Returns C profile) T calls T')
    (hb : T'.Stored b) :
    T.Stored b ∨ (∃ id, T.orphans.lookup id = some b) ∨ ∃ call ∈ calls, call.block = b := by
  let P : BlockNode → Prop := fun b =>
    T.Stored b ∨ (∃ id, T.orphans.lookup id = some b) ∨ ∃ call ∈ calls, call.block = b
  have hrun := hrun.guarded_of_forall (P := fun call => call ∈ calls) fun _ hmem => hmem
  refine (hrun.invariant (I := fun T' => Inv T' ∧ (∀ b, T'.Stored b → P b) ∧ Orphans P T') ?_
    ⟨hT, fun b hb => .inl hb, fun id o ho => .inr (.inl ⟨id, ho⟩)⟩).2.1 b hb
  rintro T₁ call T₂ ⟨hT₁, hstored, horphans⟩ ⟨hcall, hmem⟩
  obtain ⟨honly, hos⟩ := returns_only hT₁ hcall
  refine ⟨returns_inv hcall hT₁, fun b hb => ?_, fun id o ho => ?_⟩
  · rcases honly b hb with hb | rfl | ⟨id, ho⟩
    · exact hstored b hb
    · exact .inr (.inr ⟨call, hmem, rfl⟩)
    · exact horphans id b ho
  · rcases hos id o ho with rfl | ⟨id', ho'⟩
    · exact .inr (.inr ⟨call, hmem, rfl⟩)
    · exact horphans id' o ho'

/-- In order each block is accepted in its turn; only the genesis block may come again. -/
theorem grows_of_run {calls : List Call} (hT : Inv T) (hos : T.orphans = ∅) (hp : p ∈ T.allBlocks)
    (hdeep : ∀ id ∈ T.allBlocks, T.depthOf id ≤ T.depthOf p)
    (hpath : IsPath p (calls.map Call.block)) (hd : ∀ call ∈ calls, call.leadingZeroLen = d)
    (hrun : Run (Returns C profile) T calls Tn) (hall : ∀ call ∈ calls, Tn.Stored call.block) :
    ∃ chain, Grows C profile d T chain Tn ∧ IsPath p chain ∧ Tn.orphans = ∅ ∧
      (∀ b ∈ chain, b ∈ calls.map Call.block) ∧
      ∀ call ∈ calls, call.block ∈ chain ∨ call.block.header.blockId = "0" := by
  induction calls generalizing T p with
  | nil =>
    obtain rfl := hrun.eq_of_nil
    exact ⟨[], .nil _, trivial, hos, nofun, nofun⟩
  | cons call calls ih =>
    obtain ⟨T₁, hcall, hrest⟩ := hrun.cons_inv
    obtain ⟨b, z, order⟩ := call
    obtain rfl : z = d := hd _ List.mem_cons_self
    have hd' : ∀ call ∈ calls, call.leadingZeroLen = z := fun c hc => hd c (by simp [hc])
    have hall' : ∀ call ∈ calls, Tn.Stored call.block := fun c hc => hall c (by simp [hc])
    have hTn := (extends_of_run (returns_inv hcall hT) hrest).1
    have hb : Tn.Stored b := hall _ List.mem_cons_self
    obtain ⟨hparent, hpath⟩ : b.header.parent = p ∧ IsPath b.header.blockId _ := hpath
    rcases returns_cases hcall with ⟨hknown, rfl⟩ | ⟨hfresh, -, hadopts⟩
    · -- a block known in its turn is the genesis block
      have hmem : b.header.blockId ∈ T₁.allBlocks := hknown.resolve_right (by simp [hos])
      obtain ⟨b', hb'⟩ := mem_allBlocks_iff.mp hmem
      obtain rfl : b' = b := Option.some.inj
        (((extends_of_run hT hrest).2.getBlock _ b' hb').symm.trans hb)
      have hid : b'.header.blockId = "0" := by
        by_contra hroot
        have hdepth := hT.shape.depth_succ _ b' hb' hroot
        have := hdeep _ hmem
        rw [hparent] at hdepth
        omega
      obtain rfl := hT.shape.stored_eq_genesis hb' hid
      obtain rfl : p = "0" := hparent.symm
      obtain ⟨chain, hgrows, hpath', hos', hsub, hcover⟩ := ih hT hos hp hdeep hpath hd' hrest hall'
      refine ⟨chain, hgrows, hpath', hos', fun c hc => by simp [hsub c hc], fun c hc => ?_⟩
      rcases List.mem_cons.mp hc with rfl | hc
      · exact .inr rfl
      · exact hcover c hc
    · have hroot : b.header.blockId ≠ "0" := fun he => hfresh (he ▸ hT.shape.root_mem)
      cases hadopts with
      | rejected hnot =>
        -- it is not delivered again, since the later blocks are deeper
        exfalso
        rcases stored_of_run hT hrest hb with hst | ⟨id, ho⟩ | ⟨call, hc, rfl⟩
        · exact hfresh (mem_of_getBlock hst)
        · exact absurd ho (by simp [hos])
        · exact Nat.lt_irrefl _ (IsPath.depth_lt hTn.shape hroot hpath
            (fun c hc => by
              obtain ⟨call, hcall, rfl⟩ := List.mem_map.mp hc
              exact hall' call hcall) _ (List.mem_map_of_mem hc))
      | stored _ _ hnot => exact absurd (hparent ▸ hp) hnot
      | cascaded hacc _ hupd ho =>
        rw [(hacc.inserted hT hupd).1.orphans, hos] at ho
        exact absurd ho (by simp)
      | connected hacc _ hupd =>
        obtain ⟨hins, hT₁⟩ := hacc.inserted hT hupd
        have hdepth := hins.depthOf_leaf
        have hdeep₁ : ∀ id ∈ T₁.allBlocks, T₁.depthOf id ≤ T₁.depthOf b.header.blockId := by
          intro id hid
          rcases hins.mem_allBlocks.mp hid with rfl | hid
          · exact Nat.le_refl _
          · rw [hins.depthOf_old hfresh hid, hdepth, hparent]
            exact (hdeep id hid).trans (Nat.le_succ _)
        obtain ⟨chain, hgrows, hpath', hos', hsub, hcover⟩ := ih hT₁ (hins.orphans.trans hos)
          (hins.mem_allBlocks.mpr (.inl rfl)) hdeep₁ hpath hd' hrest hall'
        refine ⟨b :: chain, .cons hacc hupd hgrows, ⟨hparent, hpath'⟩, hos', fun c hc => ?_,
          fun c hc => ?_⟩
        · rcases List.mem_cons.mp hc with rfl | hc
          · simp
          · simp [hsub c hc]
        · rcases List.mem_cons.mp hc with rfl | hc
          · exact .inl List.mem_cons_self
          · exact (hcover c hc).imp_left fun h => List.mem_cons_of_mem _ h

end BlockTree

open BlockTree

/-- The blocks of a single path that can be added in order leave the same tree, but for its orphan
map, in whatever order, how often and on whatever iteration orders they are delivered. -/
theorem delivery_order {C : Crates} {profile : Profile} {d : ℕ} {blocks : List BlockNode}
    {inOrder calls : List Call} {T : BlockTree} (hpath : IsPath "0" blocks)
    (hinOrder : inOrder.map Call.block = blocks) (hd : ∀ call ∈ inOrder, call.leadingZeroLen = d)
    (hrun : Run (Returns C profile) genesisTree inOrder T) (hall : ∀ b ∈ blocks, T.Stored b)
    (hcalls : ∀ call ∈ calls, call.block ∈ blocks ∧ call.leadingZeroLen = d)
    (hcover : ∀ b ∈ blocks, ∃ call ∈ calls, call.block = b) :
    (∃ T', Run (Returns C profile) genesisTree calls T') ∧
      ∀ T', Run (Returns C profile) genesisTree calls T' → T' = { T with orphans := T'.orphans } := by
  subst hinOrder
  have hroot : "0" ∈ genesisTree.allBlocks := inv_genesisTree.shape.root_mem
  have hdeep : ∀ id ∈ genesisTree.allBlocks, genesisTree.depthOf id ≤ genesisTree.depthOf "0" := by
    intro id hid
    obtain ⟨b, hb⟩ := mem_allBlocks_iff.mp hid
    rw [(getBlock_genesisTree hb).1]
  obtain ⟨chain, hgrows, hpath', hos, hsub, hchain⟩ := grows_of_run inv_genesisTree rfl hroot hdeep
    hpath hd hrun fun call hcall => hall _ (List.mem_map_of_mem hcall)
  have hcalls' : ∀ call ∈ calls, (call.block ∈ chain ∨ call.block.header.blockId = "0") ∧
      call.leadingZeroLen = d := by
    intro call hcall
    obtain ⟨hmem, hz⟩ := hcalls call hcall
    obtain ⟨call', hcall', he⟩ := List.mem_map.mp hmem
    exact ⟨he ▸ hchain call' hcall', hz⟩
  obtain ⟨T₁, done, rest, hrun₁, hT₁⟩ := partway_run hgrows hos hpath' hcalls'
  refine ⟨⟨T₁, hrun₁⟩, fun T' hrun' => ?_⟩
  obtain rfl := run_unique hrun₁ hrun'
  refine hT₁.complete fun b hb => ?_
  obtain ⟨call, hcall, rfl⟩ := hcover b (hsub b hb)
  exact List.mem_map_of_mem hcall

theorem isPath_minedChain :
    ∀ (entries : List (Char × Transaction × TxId)) (w : BlockId), IsPath w (minedChain w entries)
  | [], _ => trivial
  | e :: rest, _ => ⟨rfl, isPath_minedChain rest (minedId e.1)⟩

/-- Delivered backwards, all blocks but the first wait as orphans for one cascade. -/
theorem delivery_order_settledChain : ∃ T T' : BlockTree, T.finalizedBlockId = minedId 'a' ∧
    Run (Returns walletCrates .debug) genesisTree (delivery settledChain.reverse) T' ∧
    T' = { T with orphans := T'.orphans } := by
  obtain ⟨T, hrun, hT, -, hfin, -⟩ := settledChain_run .debug
  have hblocks : ∀ blocks, (delivery blocks).map Call.block = blocks := by
    intro blocks
    rw [delivery, List.map_map]
    exact List.map_id _
  have hzero : ∀ blocks, ∀ call ∈ delivery blocks, call.block ∈ blocks ∧ call.leadingZeroLen = 0 := by
    intro blocks call hcall
    obtain ⟨b, hb, rfl⟩ := List.mem_map.mp hcall
    exact ⟨hb, rfl⟩
  have hcalls : ∀ call ∈ delivery settledChain.reverse, call.block ∈ settledChain ∧
      call.leadingZeroLen = 0 :=
    fun call hcall => (hzero _ call hcall).imp_left List.mem_reverse.mp
  have hcover : ∀ b ∈ settledChain, ∃ call ∈ delivery settledChain.reverse, call.block = b :=
    fun b hb => ⟨⟨b, 0, asStored⟩, List.mem_map.mpr ⟨b, List.mem_reverse.mpr hb, rfl⟩, rfl⟩
  obtain ⟨⟨T', hrun'⟩, hsame⟩ := delivery_order (isPath_minedChain _ "0") (hblocks settledChain)
    (fun call hcall => (hzero _ call hcall).2) (run_of_returnsWith hrun)
    (fun b hb => (hT.mem_line (List.mem_reverse.mpr hb)).1) hcalls hcover
  exact ⟨T, T', hfin, hrun', hsame T' hrun'⟩

end NakamotoNode.Chain
