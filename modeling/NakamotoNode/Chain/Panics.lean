import NakamotoNode.Chain.Forks

/-! # Blocks that make a call panic

In a debug build every walk ends, if only in an overflow, so a call panics just if one of the checks it
comes to does (`Checks`): that of the delivered block, and, each time a block is inserted, that of the
first orphan waiting for it. A check panics unless it is `Sound`. -/

namespace NakamotoNode.Chain
open Foundations Foundations.RustStd
set_option autoImplicit false

namespace BlockTree
variable {C : Crates} {z : ℕ} {T T' : BlockTree} {block b : BlockNode} {order : IterOrder}

/-! ## The walk at the genesis block -/

/-- A debug walk ends: at the genesis block it adds to the balance of GENESIS. -/
theorem addRewards_debug_ne_outOfFuel (hT : Shape T) {pb : BlockNode} (hpb : T.Stored pb)
    (L : Ledger UserId) {fuel : ℕ}
    (hfuel : T.depthOf pb.header.blockId + (2 ^ 63 - L.balance "GENESIS").toNat < fuel) :
    addRewards .debug T L pb fuel ≠ Exec.outOfFuel := by
  refine Exec.loop_ne_outOfFuel (I := fun s : Ledger UserId × BlockNode => T.Stored s.2)
    (fun s => T.depthOf s.2.header.blockId + (2 ^ 63 - s.1.balance "GENESIS").toNat)
    (fun s _ => ?_) (fun s s' hs hbody => ?_) fuel (L, pb) hpb hfuel
  · exact addRewards_step_ne_outOfFuel T s.1 s.2
  · obtain ⟨L, b⟩ := s
    dsimp only at hs hbody ⊢
    split at hbody
    · obtain ⟨L', hL', hbody⟩ := Exec.bind_eq_ok.mp hbody
      obtain ⟨hfits, rfl⟩ := (addBalance_decides L _ 10).of_ok hL'
      rw [Ledger.contained_singleton] at hfits
      by_cases hroot : b.header.blockId = "0"
      · obtain rfl := hT.stored_eq_genesis hs hroot
        have hget : T.getBlock BlockNode.genesisBlock.header.parent =
            some BlockNode.genesisBlock := hT.root_block
        rw [hget] at hbody
        obtain rfl := Sum.inl.inj (Except.ok.inj hbody)
        have hgenesis : InI64 (L.balance "GENESIS" + 10) := hfits
        have hreceiver : BlockNode.genesisBlock.header.rewardReceiver = "GENESIS" := rfl
        refine ⟨hs, ?_⟩
        dsimp only
        rw [Ledger.balance_credit, if_pos hreceiver]
        have := hgenesis.2
        omega
      · obtain ⟨d, hd, hdst, hdid, hdp⟩ := hT.stored_parent hs hroot
        rw [hd] at hbody
        obtain rfl := Sum.inl.inj (Except.ok.inj hbody)
        have hdepth := hT.graded _ _ hdp
        refine ⟨hdst, ?_⟩
        dsimp only
        rw [Ledger.balance_credit]
        split <;> omega
    · exact absurd (Except.ok.inj hbody) (by simp)

theorem verifiyTransactionsBalance_debug_ends (hT : Inv T) {pb : BlockNode} (hpb : T.Stored pb) :
    ∃ n, verifiyTransactionsBalance .debug T block pb n ≠ Exec.outOfFuel := by
  obtain ⟨L, hL⟩ | ⟨e, he⟩ | hout := Exec.outcome_cases
    (T.pendingTxs.foldlM (applyTx .debug) T.finalizedBalanceMap)
  · let n := T.depthOf T.workingBlockId + T.depthOf pb.header.blockId +
      (2 ^ 63 - L.balance "GENESIS").toNat + 1
    have hpending : T.getPendingFinalizationTxs n = .ok T.pendingTxs :=
      getPendingFinalizationTxs_eq hT (by omega)
    refine ⟨n, verifiyTransactionsBalance_ne_outOfFuel_of_walks (by simp [hpending])
      fun pending L' hp hL' => ?_⟩
    obtain rfl := Except.ok.inj (hpending.symm.trans hp)
    obtain rfl := Except.ok.inj (hL.symm.trans hL')
    exact addRewards_debug_ne_outOfFuel hT.shape hpb L (by omega)
  · refine ⟨T.depthOf T.workingBlockId + 1, ?_⟩
    rw [verifiyTransactionsBalance, getPendingFinalizationTxs_eq hT (Nat.lt_succ_self _),
      Exec.ok_bind, he, Exec.panic_bind]
    exact Exec.panic_ne_outOfFuel e
  · exact absurd hout (Exec.foldlM_ne_outOfFuel _ _ fun tx L => applyTx_ne_outOfFuel L tx)

/-! ## One check -/

/-- With enough fuel the call panics. -/
def Panics (C : Crates) (z : ℕ) (order : IterOrder) (T : BlockTree) (block : BlockNode) : Prop :=
  ∃ N e, ∀ fuel, N ≤ fuel → addOrphanBlock C .debug (fuel + 1) order T block z = Exec.panic e

theorem panics_of_panic {n : ℕ} {e : Panic}
    (h : addOrphanBlock C .debug (n + 1) order T block z = Exec.panic e) :
    Panics C z order T block := by
  refine ⟨n, e, fun fuel hfuel => ?_⟩
  exact ((growing_addOrphanBlock order T block (n + 1) (fuel + 1) (by omega)).eq
    (ne_of_eq_of_ne h (Exec.panic_ne_outOfFuel e))).trans h

section Check
variable (h : Candidate C z T block) (hT : Inv T)
  (hparse : ∀ c, T.Stored c → c.header.blockId ≠ "0" → ∀ tx ∈ c.txs, tx.Parses)
include h hT hparse

theorem Candidate.panics (hno : ¬ Sound T block) (order : IterOrder) : Panics C z order T block := by
  obtain ⟨pb, hpb⟩ := mem_allBlocks_iff.mp h.parent_mem
  obtain ⟨hid, hst⟩ := hT.shape.stored_of_getBlock hpb
  have hcheck : ∀ {n e}, T.depthOf block.header.parent < n →
      verifiyTransactionsBalance .debug T block pb n = Exec.panic e → Panics C z order T block := by
    intro n e hn hbal
    apply panics_of_panic (n := n) (e := e)
    rw [h.addOrphanBlock_eq hT.shape hpb hn, hbal, Exec.panic_bind]
  by_cases hbelow : T.BelowFinal block.header.parent
  · let fuel := T.depthOf T.workingBlockId + T.depthOf block.header.parent + 1
    have hfuel : T.depthOf T.workingBlockId < fuel ∧ T.depthOf block.header.parent < fuel := by
      omega
    by_cases hfits : CheckFits T block
    · obtain ⟨hpays, hfinal⟩ : T.Pays block ∧ ¬ FinalFits T block := by
        by_contra hand
        exact hno ⟨hbelow, hfits, fun hpays => by_contra fun hfinal => hand ⟨hpays, hfinal⟩⟩
      obtain ⟨pb', N, r, hpb', hdepth, hrun, hiff⟩ := h.verdict hT hparse hbelow hfits
      obtain rfl := Option.some.inj (hpb.symm.trans hpb')
      obtain rfl : r = true := hiff.mpr hpays
      obtain ⟨e, he⟩ := (updateBlocktree_decides (C := C) hT h.fresh h.parent_mem hbelow
        hparse).panics hfinal
      apply panics_of_panic (n := N) (e := e)
      rw [h.addOrphanBlock_eq hT.shape hpb hdepth, hrun N (Nat.le_refl N), Exec.ok_bind,
        if_neg (by simp), he, Exec.panic_bind]
    · obtain ⟨e, he⟩ := (verifiyTransactionsBalance_decides hT (parses_of_pending hT hparse) hpb
        hbelow hfuel.1 hfuel.2).panics hfits
      exact hcheck hfuel.2 he
  · -- the walk passes the finalized block by
    obtain ⟨n, hn⟩ : ∃ n, verifiyTransactionsBalance .debug T block pb n ≠ Exec.outOfFuel :=
      verifiyTransactionsBalance_debug_ends hT hst
    obtain ⟨r, hr⟩ | ⟨e, he⟩ | hout :=
      Exec.outcome_cases (verifiyTransactionsBalance .debug T block pb n)
    · exact absurd hr (verifiyTransactionsBalance_ne_ok hT hst (hid ▸ hbelow) n r)
    · let fuel := n + T.depthOf block.header.parent + 1
      have hfuel : n ≤ fuel ∧ T.depthOf block.header.parent < fuel := by omega
      apply hcheck hfuel.2 (e := e)
      rw [(growing_verifiyTransactionsBalance T block pb n fuel hfuel.1).eq hn, he]
    · exact absurd hout hn

end Check

/-! ## The checks of one call -/

/-- The call of `add_orphan_block` with `block` on `T` comes to check `b'` against `T'`. -/
inductive Checks (C : Crates) (z : ℕ) :
    IterOrder → BlockTree → BlockNode → BlockTree → BlockNode → Prop
  | here {order : IterOrder} {T : BlockTree} {b : BlockNode} (h : Candidate C z T b) :
      Checks C z order T b T b
  | next {order : IterOrder} {T T' : BlockTree} {b b' o : BlockNode} (h : Candidate C z T b)
      (hpays : T.Pays b) (ho : findOrphan order (T.inserted C b) b.header.blockId = some o)
      (hrest : Checks C z order.next (T.inserted C b) o T' b') : Checks C z order T b T' b'

/-- The signatures of the block are good. -/
def Signed (C : Crates) (b : BlockNode) : Prop := allVerifySig C b.txs = .ok true

theorem signed_of_integrity (h : verifyBlockIntegrity C block z = .ok true) : Signed C block := by
  obtain ⟨r, hr, h⟩ := Exec.bind_eq_ok.mp h
  have := Except.ok.inj h
  rw [Bool.and_eq_true] at this
  rw [Signed, hr, this.2]

theorem Signed.integrity (h : Signed C block) : ∃ r, verifyBlockIntegrity C block z = .ok r := by
  rw [verifyBlockIntegrity, h]
  exact ⟨_, rfl⟩

/-- What the trees on the way of a call have in common. -/
structure Steady (C : Crates) (T : BlockTree) : Prop where
  inv : Inv T
  parses : ∀ c, T.Stored c → c.header.blockId ≠ "0" → ∀ tx ∈ c.txs, tx.Parses
  orphans : Orphans (Signed C) T

theorem Steady.inserted (h : Steady C T) (hacc : Accepts C .debug z T block)
    (hupd : updateBlocktree C .debug T block = .ok T') : Steady C T' := by
  obtain ⟨hins, hT'⟩ := hacc.inserted h.inv hupd
  refine ⟨hT', fun c hc hroot => ?_, ?_⟩
  · rcases hins.stored_cases hc with rfl | hc
    · exact hacc.parses
    · exact h.parses c hc hroot
  · rw [Orphans, hins.orphans]
    exact h.orphans

/-- The call panics where one of its checks is not sound. -/
theorem Checks.panics {order : IterOrder} {b' : BlockNode} (h : Checks C z order T b T' b')
    (hT : Steady C T) (hno : ¬ Sound T' b') : Panics C z order T b := by
  induction h with
  | here h => exact h.panics hT.inv hT.parses hno _
  | @next order T T' b b' o h hpays ho _ ih =>
    by_cases hs : Sound T b
    · obtain ⟨hacc, hupd⟩ := h.paid hT.inv hT.parses hs hpays
      obtain ⟨N, e, hrec⟩ := ih (hT.inserted hacc hupd) hno
      obtain ⟨M, hrun⟩ := hacc.continues hupd
      apply panics_of_panic (n := N + M + 1) (e := e)
      rw [hrun _ (by omega), ho]
      dsimp only
      rw [hrec (N + M) (by omega), Exec.panic_bind]
    · exact h.panics hT.inv hT.parses hs order

/-- Where all checks are sound the call does not panic. -/
theorem addOrphanBlock_sat : ∀ {fuel : ℕ} {order : IterOrder} {T : BlockTree} {b : BlockNode},
    Steady C T → Signed C b → (∀ T' b', Checks C z order T b T' b' → Sound T' b') →
    Exec.Sat (addOrphanBlock C .debug fuel order T b z) (fun _ => True) (fun _ => False)
  | 0, _, _, _, _, _, _ => trivial
  | fuel + 1, order, T, b, hT, hsig, hall => by
      obtain ⟨integrity, hint⟩ := hsig.integrity (z := z)
      rw [addOrphanBlock, hint, Exec.ok_bind]
      split
      · trivial
      · next hyes =>
        obtain ⟨rfl, hfresh⟩ : integrity = true ∧ b.header.blockId ∉ T.allBlocks := by
          simpa using hyes
        split
        · trivial
        · next pb hpb =>
          obtain ⟨hid, hst⟩ := hT.inv.shape.stored_of_getBlock hpb
          refine (verifyBlockAncestry_sat hT.inv.shape hst _ fuel).bind fun noDuplicate hanc => ?_
          cases noDuplicate with
          | false => trivial
          | true =>
            rw [hid] at hanc
            have hcand : Candidate C z T b :=
              ⟨hfresh, hint, mem_of_getBlock hpb, hanc.mp rfl⟩
            have hs := hall T b (.here hcand)
            obtain ⟨pb', N, r, hpb', -, hrun, hiff⟩ :=
              hcand.verdict hT.inv hT.parses hs.below hs.check
            obtain rfl := Option.some.inj (hpb.symm.trans hpb')
            refine Exec.Sat.bind (P := fun sufficient => sufficient = true → T.Pays b)
              ((growing_verifiyTransactionsBalance T b pb).sat (n := N) ?_ ?_ fuel)
              fun sufficient hpays => ?_
            · rw [hrun N (Nat.le_refl N)]
              exact hiff.mp
            · rw [hrun N (Nat.le_refl N)]
              exact Exec.ok_ne_outOfFuel r
            cases sufficient with
            | false => trivial
            | true =>
              obtain ⟨hacc, hupd⟩ := hcand.paid hT.inv hT.parses hs (hpays rfl)
              rw [if_neg (by simp), hupd, Exec.ok_bind]
              have hT₁ := hT.inserted hacc hupd
              split
              · trivial
              · next o ho =>
                obtain ⟨-, key, hkey⟩ := findOrphan_eq_some ho
                refine (addOrphanBlock_sat hT₁ (hT₁.orphans key o hkey) fun T' b' hrest =>
                  hall T' b' (.next hcand (hpays rfl) ho hrest)).bind fun _ _ => ?_
                trivial

theorem Adopts.orphans_signed {G : BlockTree → BlockNode → Prop} {profile : Profile}
    (h : Adopts C profile z G T block T') (hT : Inv T) (hos : Orphans (Signed C) T) :
    Orphans (Signed C) T' := by
  induction h with
  | rejected => exact hos
  | stored _ hint => exact hos.insert (signed_of_integrity hint)
  | connected hacc _ hupd =>
    rw [Orphans, (hacc.inserted hT hupd).1.orphans]
    exact hos
  | cascaded hacc _ hupd _ _ _ ih =>
    obtain ⟨hins, hT₁⟩ := hacc.inserted hT hupd
    exact (ih hT₁ (by rw [Orphans, hins.orphans]; exact hos)).erase _

theorem steady_of_reachable {profile : Profile} (hT : Reachable C profile T) : Steady C T := by
  refine ⟨hT.inv, fun c hc hroot => hT.parses hc hroot, ?_⟩
  obtain ⟨calls, hrun⟩ := reachable_iff.mp hT
  refine (hrun.invariant (I := fun T => Inv T ∧ Orphans (Signed C) T) ?_
    ⟨inv_genesisTree, orphans_genesisTree _⟩).2
  rintro T call T' ⟨hT, hos⟩ hcall
  refine ⟨returns_inv hcall hT, ?_⟩
  rcases returns_cases hcall with ⟨-, rfl⟩ | ⟨-, -, hadopts⟩
  · exact hos
  · exact hadopts.orphans_signed hT hos

/-- A call whose block can be paid for and whose checks are sound stores the block, and no other call
does, unless the block is there. -/
theorem returns_stored_iff (hT : Reachable C .debug T) (hsig : Signed C block) (order : IterOrder) :
    (∃ T', Returns C .debug T ⟨block, z, order⟩ T' ∧ T'.Stored block) ↔ T.Stored block ∨
      (Candidate C z T block ∧ block.header.blockId ∉ T.orphans ∧ T.Pays block ∧
        ∀ T' b', Checks C z order T block T' b' → Sound T' b') := by
  have hsteady := steady_of_reachable hT
  constructor
  · rintro ⟨T', hcall, hst⟩
    rcases returns_cases hcall with ⟨-, rfl⟩ | ⟨hfresh, horphan, hadopts⟩
    · exact .inl hst
    right
    have hacc : Accepts C .debug z T block := by
      cases hadopts with
      | rejected => exact absurd (Shape.stored_mem hst) hfresh
      | stored => exact absurd (Shape.stored_mem hst) hfresh
      | connected hacc => exact hacc
      | cascaded hacc => exact hacc
    refine ⟨hacc.candidate hT.inv.shape, horphan,
      hacc.pays hT.inv (parses_of_pending hT.inv hsteady.parses), fun T₁ b₁ hchecks => ?_⟩
    by_contra hno
    obtain ⟨N, e, hpanic⟩ := hchecks.panics hsteady hno
    obtain ⟨n, hn⟩ := hcall
    rw [addBlock_eq, if_neg (not_or.mpr ⟨hfresh, horphan⟩)] at hn
    have hmore := (growing_addOrphanBlock order T block (n + 1) (N + n + 1) (by omega)).eq
      (ne_of_eq_of_ne hn (Exec.ok_ne_outOfFuel T'))
    dsimp only at hmore hn
    rw [hpanic (N + n) (by omega), hn] at hmore
    exact Exec.panic_ne_ok e T' hmore
  · rintro (hst | ⟨hcand, horphan, hpays, hall⟩)
    · refine ⟨T, ⟨0, ?_⟩, hst⟩
      rw [addBlock_eq, if_pos (.inl (Shape.stored_mem hst))]
    · have hs := hall T block (.here hcand)
      obtain ⟨n, hn⟩ : ∃ n, addOrphanBlock C .debug (n + 1) order T block z ≠ Exec.outOfFuel :=
        addOrphanBlock_ends hT.inv (fun _ _ _ _ _ => hs.below) order
      obtain ⟨T', hok, -⟩ := (addOrphanBlock_sat hsteady hsig hall).exists_ok hn
      have hcall : Returns C .debug T ⟨block, z, order⟩ T' := by
        refine ⟨n, ?_⟩
        rw [addBlock_eq, if_neg (not_or.mpr ⟨hcand.fresh, horphan⟩)]
        exact hok
      refine ⟨T', hcall, ?_⟩
      exact (addOrphanBlock_eq_ok hok).stored_of_accepts hT.inv
        (hcand.paid hT.inv hsteady.parses hs hpays).1

end BlockTree

open BlockTree

/-- For a reachable tree and a block whose signatures are good, no run of `add_block` panics just if
the block is known or every check that the call comes to is sound. -/
theorem addBlock_ne_panic_iff {C : Crates} {T : BlockTree} {block : BlockNode} (z : ℕ)
    (order : IterOrder) (hT : Reachable C .debug T) (hsig : allVerifySig C block.txs = .ok true) :
    (∀ fuel e, addBlock C .debug fuel order T block z ≠ Exec.panic e) ↔
      (block.header.blockId ∈ T.allBlocks ∨ block.header.blockId ∈ T.orphans) ∨
        ∀ T' b', Checks C z order T block T' b' → Sound T' b' := by
  have hsteady := steady_of_reachable hT
  by_cases hknown : block.header.blockId ∈ T.allBlocks ∨ block.header.blockId ∈ T.orphans
  · refine iff_of_true (fun fuel e => ?_) (.inl hknown)
    rw [addBlock_eq, if_pos hknown]
    exact Exec.ok_ne_panic e T
  · rw [or_iff_right hknown]
    constructor
    · intro h T' b' hchecks
      by_contra hno
      obtain ⟨N, e, hpanic⟩ := hchecks.panics hsteady hno
      apply h N e
      rw [addBlock_eq, if_neg hknown]
      exact hpanic N (Nat.le_refl N)
    · intro h fuel e hpanic
      rw [addBlock_eq, if_neg hknown] at hpanic
      exact (addOrphanBlock_sat hsteady hsig h).of_panic hpanic

theorem checks_genesisTree {C : Crates} {z : ℕ} {order : IterOrder} {T' : BlockTree}
    {block b' : BlockNode} (h : Checks C z order genesisTree block T' b') :
    T' = genesisTree ∧ b' = block := by
  cases h with
  | here => exact ⟨rfl, rfl⟩
  | @next _ _ _ _ _ o hcand _ ho =>
    obtain ⟨-, key, hkey⟩ := findOrphan_eq_some ho
    have hos : (genesisTree.inserted C block).orphans = ∅ := by
      unfold inserted
      split <;> rfl
    rw [hos] at hkey
    exact absurd hkey (by simp)

/-! ## Blocks below the genesis block -/

theorem candidate_genesisTree {c : Char} (hc : c ≠ '\x7b') (hid : minedId c ≠ "0")
    {entry : Transaction × TxId} (hmem : entry ∈ wallet) :
    Candidate walletCrates 0 genesisTree (minedBlock c "0" entry) := by
  refine ⟨fun hmem => ?_, minedBlock_integrity hc "0" hmem, shape_genesisTree.root_mem,
    fun b hb _ hparent => ?_⟩
  · obtain ⟨b, hb⟩ := mem_allBlocks_iff.mp hmem
    exact hid (getBlock_genesisTree hb).1
  · exact absurd (getBlock_genesisTree hb).1 (shape_genesisTree.ne_root_of_parent_ne hb hparent)

theorem newFinal_genesisTree : genesisTree.newFinal "0" = none := by
  have hdepth : genesisTree.depthOf "0" = 0 := shape_genesisTree.depthOf_root
  have hfin : genesisTree.finalizedBlockId = "0" := rfl
  refine if_neg fun he => ?_
  rw [hfin, hdepth] at he
  omega

theorem sound_genesisTree {b : BlockNode} (hparent : b.header.parent = "0")
    (hparse : ∀ tx ∈ b.txs, tx.Parses) (hvol : volume b.txs ≤ 1000) : Sound genesisTree b := by
  have hT := tip_genesisTree walletCrates 1000
  have hroot : b.header.parent ∈ genesisTree.allBlocks := by
    rw [hparent]
    exact shape_genesisTree.root_mem
  refine ⟨.inl rfl, checkFits_of_modest hT.inv hT.modest hroot (.inl rfl) hparse hvol
    (hT.bound_le hroot (by norm_num) (by norm_num)), fun _ c hc => ?_⟩
  rw [hparent, newFinal_genesisTree] at hc
  exact absurd hc (by simp)

theorem spendable_genesisTree (u : UserId) : (genesisTree.spendable "0").balance u = genesisCredit u :=
  ((replayed_genesisTree walletCrates).balance u).trans (replay_root shape_genesisTree u)

theorem addBlock_ne_panic_loan : ¬ ∃ fuel e,
    addBlock walletCrates .debug fuel asStored genesisTree (minedBlock 'a' "0" loan) 0 =
      Exec.panic e := by
  rintro ⟨fuel, e, hpanic⟩
  have hcand := candidate_genesisTree (c := 'a') (by decide) (by decide) payable_loan.signed
  have hsig := signed_of_integrity hcand.integrity
  refine (addBlock_ne_panic_iff 0 asStored reachable_genesisTree hsig).mpr
    (.inr fun T' b' h => ?_) fuel e hpanic
  obtain ⟨rfl, rfl⟩ := checks_genesisTree h
  exact sound_genesisTree rfl loan_fits.parses loan_fits.volume_le

/-! ## A message of one word -/

/-- A transaction that Alice has signed, whose message names no amount. -/
def bare : Transaction × TxId :=
  (⟨alice, bob, "SEND",
    "OiKiRT1/KNA6XMit2no5Cen6zGbSrfCNXg930FnvAlMer/LOX1LaFligzOVBSW45"⟩,
    "a8e348f54102ff9618e191217c35a87e3254bf1192626fc1998ce2971dfc304d")

def bareBlock : BlockNode where
  header :=
    { parent := "0", merkleRoot := bare.2, timestamp := 1,
      blockId := "5805eefb68e6534b809148d733ba9a046c30f87dff7d777f45495975279fca51",
      nonce := "v", rewardReceiver := charles }
  transactionsBlock := { merkleTree := { hashes := [[bare.2]] }, transactions := [bare.1] }

/-- SHA-256 on the texts of this block: that of the transaction starts with a brace. -/
def bareSha (text : String) : String :=
  if text.toList.head? = some '\x7b' then bare.2 else bareBlock.header.blockId

/-- The other crates on these texts. -/
def bareCrates : Crates :=
  { cratesWith bareSha with
    RsaPublicKey := String
    RsaSignature := List UInt8
    fromPkcs1Pem := some
    signatureFromBytes := some
    verify := fun _ text sig => text = bare.1.signedText && base64Bytes bare.1.sig.toList = sig }

theorem allVerifySig_bare : allVerifySig bareCrates bareBlock.txs = .ok true := by
  obtain ⟨hascii, hlen⟩ := ascii_of_wallet payable_loan.signed
  have hfirst : sliceGet bare.1.sender 0 64 = _ := sliceGet_of_ascii hascii (by omega) (by omega)
  have hsecond : sliceGet bare.1.sender 64 80 = _ :=
    sliceGet_of_ascii hascii (by omega) (by omega)
  have hsig : bare.1.verifySig bareCrates = .ok true := by
    rw [Transaction.verifySig, hfirst, Exec.unwrap_some, Exec.ok_bind, hsecond, Exec.unwrap_some,
      Exec.ok_bind]
    exact congrArg Except.ok (by simp [bareCrates, cratesWith])
  change allVerifySig bareCrates [bare.1] = .ok true
  rw [allVerifySig, hsig]
  rfl

/-- A block with one signed transaction, whose message has no second word. -/
theorem signed_block_panics : Reachable bareCrates .debug genesisTree ∧
    allVerifySig bareCrates bareBlock.txs = .ok true ∧
    ∃ fuel, addBlock bareCrates .debug fuel asStored genesisTree bareBlock 0 =
      Exec.panic .amountIndex := by
  refine ⟨reachable_genesisTree, allVerifySig_bare, 1, ?_⟩
  have hint : verifyBlockIntegrity bareCrates bareBlock 0 = .ok true := by
    have hid : bareBlock.computedBlockId bareCrates = bareBlock.header.blockId := by
      have hhead : (bareBlock.challenge bareCrates).toList.head? = some 'v' := by
        simp [BlockNode.challenge, bareBlock]
      have hsha : bareCrates.sha256Hex = bareSha := rfl
      rw [BlockNode.computedBlockId, hsha, bareSha, hhead]
      exact if_neg (by decide)
    rw [verifyBlockIntegrity, allVerifySig_bare, Exec.ok_bind, hid]
    simp [BlockNode.validLeadingZeroLen, startsWith]
  have hne : bareBlock.header.blockId ≠ "0" := by decide
  have hfresh : bareBlock.header.blockId ∉ genesisTree.allBlocks := by
    intro hmem
    obtain ⟨b, hb⟩ := mem_allBlocks_iff.mp hmem
    exact hne (getBlock_genesisTree hb).1
  have hcand : Candidate bareCrates 0 genesisTree bareBlock := by
    refine ⟨hfresh, hint, shape_genesisTree.root_mem, fun b hb _ hparent => ?_⟩
    exact absurd (getBlock_genesisTree hb).1 (shape_genesisTree.ne_root_of_parent_ne hb hparent)
  have hdepth : genesisTree.depthOf bareBlock.header.parent < 1 := by
    have hroot : genesisTree.depthOf bareBlock.header.parent = 0 := shape_genesisTree.depthOf_root
    omega
  have hbal : verifiyTransactionsBalance .debug genesisTree bareBlock BlockNode.genesisBlock 1 =
      Exec.panic .amountIndex := rfl
  rw [addBlock_eq, if_neg (not_or.mpr ⟨hfresh, by simp [genesisTree]⟩),
    hcand.addOrphanBlock_eq shape_genesisTree shape_genesisTree.root_block hdepth, hbal,
    Exec.panic_bind]

end NakamotoNode.Chain
