import NakamotoNode.Client.Payments
import NakamotoNode.Node.Malformed

/-! # Where the two processes panic

Both processes unwrap an `Option` at almost every request. In a run of the client it is `Some` whenever it
is unwrapped, so that the wallet panics at its file and at its key only. The main thread of the node panics
at its files, at transactions that `verify_sig` cannot read, which the client has had its own wallet sign,
and after another thread of the node: at the locks that it has poisoned, at the channel that it no longer
reads, and at the join of a thread that was to connect to a neighbor (`crash_conditions`). -/

namespace NakamotoNode.Client
open Foundations Foundations.RustStd Chain Node
set_option autoImplicit false

variable {A : TextAreas} {L : Launch A}

/-- The request makes the wallet panic. -/
def WalletBreaks (L : Launch A) (rng : ℕ) : IPCMessageReqWallet → Prop
  | .initializeWith string => L.host.walletFromStr string = none
  | .signRequest dataString => ∃ wallet, L.Holds wallet ∧
      (L.host.rsaSign rng wallet.privKeyPem dataString = none ∨
        L.host.rsaSign (rng + 1) wallet.privKeyPem dataString = none)
  | .getUserInfo => ∃ wallet, L.Holds wallet ∧ ∃ e, wallet.toWallet.getUserId = Exec.panic e
  | _ => False

/-- The request makes the node panic. -/
def Breaks (L : Launch A) : IPCMessageReqNakamoto → Prop
  | .initializeWith blocktreeJson txPoolJson configJson => L.host.configFromStr configJson = none ∨
      L.host.chainFromStr blocktreeJson = none ∨ L.host.txPoolFromStr txPoolJson = none
  | .publishTx dataString signature => ∀ tx, publishTx L.host.fromStr dataString signature = .ok tx →
      ¬ Readable L.host.crates tx
  | _ => False

/-- The request comes to a lock that another thread of the node has poisoned. -/
def Poison.Stops (poison : Poison) : IPCMessageReqNakamoto → Prop
  | .getAddressBalance _ | .requestBlock _ | .requestChainStatus | .requestStateSerialization =>
      poison.chain = true
  | .requestNetStatus => poison.network = true
  | .requestMinerStatus => poison.miner = true
  | .publishTx _ _ | .requestTxPoolStatus => poison.txPool = true
  | _ => False

/-- The file holds one wallet. -/
theorem Launch.Holds.iff {w w' : SigningWallet} (h : L.Holds w) : L.Holds w' ↔ w' = w :=
  ⟨fun h' => Option.some.inj (h'.symm.trans h), fun heq => heq ▸ h⟩

/-- With the wallet of the file in hand, or about to be. -/
theorem walletHandle_panics {rng : ℕ} {wallet : Option SigningWallet} {req : IPCMessageReqWallet}
    (hwallet : ∀ w, wallet = some w → L.Holds w)
    (hready : wallet ≠ none ∨ req = .initializeWith L.walletFile) (hasks : L.AsksWallet req) :
    (∃ e, walletHandle L.host rng wallet req = Exec.panic e) ↔ WalletBreaks L rng req := by
  cases req with
  | initializeWith string =>
    rw [walletHandle, Exec.bind_panics, Exec.unwrap_panics]
    simp [WalletBreaks]
  | verifyRequest => exact hasks.elim
  | quit => simp [walletHandle, WalletBreaks]
  | signRequest dataString =>
    obtain ⟨w, rfl⟩ := Option.ne_none_iff_exists'.mp (hready.resolve_right (by simp))
    simp only [walletHandle, Exec.unwrap_some, Exec.ok_bind, Exec.bind_panics, SigningWallet.sign,
      Exec.unwrap_panics, Exec.unwrap_eq_ok, WalletBreaks, (hwallet w rfl).iff, Exec.ok_ne_panic,
      exists_false, and_false, or_false, exists_eq_left]
    constructor
    · rintro (hnone | ⟨-, -, hnone⟩)
      · exact .inl hnone
      · exact .inr hnone
    · rintro (hnone | hnone)
      · exact .inl hnone
      · cases hfirst : L.host.rsaSign rng w.privKeyPem dataString with
        | none => exact .inl rfl
        | some signature => exact .inr ⟨signature, rfl, hnone⟩
  | getUserInfo =>
    obtain ⟨w, rfl⟩ := Option.ne_none_iff_exists'.mp (hready.resolve_right (by simp))
    simp only [walletHandle, Exec.unwrap_some, Exec.ok_bind, Exec.bind_panics, Exec.mapPanic_panics,
      WalletBreaks, (hwallet w rfl).iff, Exec.ok_ne_panic, exists_false, and_false, or_false,
      exists_eq_left]

theorem publishTx_ne_outOfFuel (fromStr : String → Option (List String)) (dataString : String)
    (signature : Signature) : publishTx fromStr dataString signature ≠ Exec.outOfFuel := by
  refine Exec.bind_ne_outOfFuel (Exec.unwrap_ne_outOfFuel _ _) fun txData _ => ?_
  refine Exec.bind_ne_outOfFuel (Exec.unwrap_ne_outOfFuel _ _) fun sender _ => ?_
  refine Exec.bind_ne_outOfFuel (Exec.unwrap_ne_outOfFuel _ _) fun receiver _ => ?_
  exact Exec.bind_ne_outOfFuel (Exec.unwrap_ne_outOfFuel _ _) fun message _ => nofun

theorem addTx_panics_iff {C : Crates} {txPool : TxPool} {tx : Transaction} :
    (∃ e, txPool.addTx C tx = Exec.panic e) ↔ ¬ Readable C tx := by
  constructor
  · rintro ⟨e, he⟩ hreadable
    obtain ⟨valid, hvalid⟩ := readable_iff.mp hreadable
    rw [TxPool.addTx, hvalid, Exec.ok_bind] at he
    split at he <;> exact Exec.ok_ne_panic _ _ he
  · intro hreadable
    obtain ⟨e, -, he⟩ := addTx_panics hreadable
    exact ⟨e, he txPool⟩

/-- `publish_tx` of what `PublishTx` reads. -/
theorem publish_panics {H : Host} {poison : Poison} {txPool : TxPool} {dataString : String}
    {signature : Signature} :
    (∃ e, (Exec.mapPanic NakamotoMainPanic.publish (publishTx H.fromStr dataString signature) >>=
      fun transaction => unwrapResult .poisoned poison.txPool >>= fun _ =>
        Exec.mapPanic .addTx (txPool.addTx H.crates transaction) >>= fun _ =>
        .ok (NakamotoPc.sending transaction)) = Exec.panic e) ↔
    (∀ tx, publishTx H.fromStr dataString signature = .ok tx → ¬ Readable H.crates tx) ∨
      poison.txPool = true := by
  simp only [Exec.bind_panics, Exec.mapPanic_panics, Exec.mapPanic_eq_ok, unwrapResult_panics,
    unwrapResult_eq_ok, Exec.ok_ne_panic, exists_false, and_false, or_false, addTx_panics_iff]
  obtain ⟨tx, htx⟩ | ⟨e, he⟩ | hout := Exec.outcome_cases (publishTx H.fromStr dataString signature)
  · cases poison.txPool <;> simp [htx]
  · simp [he]
  · exact absurd hout (publishTx_ne_outOfFuel _ _ _)

theorem nakamotoHandle_panics {poison : Poison} {map : List (String × String)} {shared : Shared}
    {created : Bool} {req : IPCMessageReqNakamoto} (hready : created = true ∨ req = L.initialRequest)
    (hstatus : poison.chain = false → shared.chain.getStatus ≠ none) (hasks : L.AsksNakamoto req) :
    (∃ e, nakamotoHandle L.host poison map shared created req = Exec.panic e) ↔
      Breaks L req ∨ poison.Stops req := by
  cases req with
  | initializeWith blocktreeJson txPoolJson configJson =>
    simp only [nakamotoHandle, Exec.bind_panics, Exec.unwrap_panics, Exec.unwrap_eq_ok, Breaks,
      Exec.ok_ne_panic, exists_false, and_false, or_false, Poison.Stops]
    cases L.host.configFromStr configJson <;> cases L.host.chainFromStr blocktreeJson <;> simp
  | requestBlock => exact hasks.elim
  | publishTx dataString signature =>
    obtain rfl : created = true := hready.resolve_right (by simp [Launch.initialRequest])
    exact publish_panics
  | requestChainStatus =>
    obtain rfl : created = true := hready.resolve_right (by simp [Launch.initialRequest])
    simp only [nakamotoHandle, if_true, Exec.bind_panics, unwrapResult_panics, unwrapResult_eq_ok,
      Exec.unwrap_panics, Exec.ok_ne_panic, exists_false, and_false, or_false, Breaks, Poison.Stops,
      false_or, exists_and_left, exists_const]
    exact or_iff_left fun hnone => hstatus hnone.1 hnone.2
  | quit => simp [nakamotoHandle, Breaks, Poison.Stops]
  | getAddressBalance | requestNetStatus | requestMinerStatus | requestTxPoolStatus
  | requestStateSerialization =>
    obtain rfl : created = true := hready.resolve_right (by simp [Launch.initialRequest])
    simp [nakamotoHandle, Exec.bind_panics, unwrapResult_panics, Breaks, Poison.Stops]

/-- The second half of a request. -/
theorem nakamotoResume_panics {H : Host} {poison : Poison} {shared : Shared} {pc : NakamotoPc} :
    (∃ e, nakamotoResume H poison shared pc = some (Exec.panic e)) ↔
      (poison.neighbors = true ∧ ∃ neighbor rest, pc = .connecting neighbor rest) ∨
      (poison.transRx = true ∧ ∃ transaction, pc = .sending transaction) ∨
      poison.txPool = true ∧ ∃ serializedChain, pc = .serialized serializedChain := by
  cases pc with
  | connecting => simp [nakamotoResume]
  | sending | serialized => simp [nakamotoResume, Exec.bind_panics, unwrapResult_panics]
  | _ => simp [nakamotoResume]

/-- In every state that a client with its wallet and its node reaches from the start, of the request that
the process takes next: the wallet panics at it just if the file does not parse, or the key in it cannot
sign the text or has no user id. The main thread of the node, the chain being as every run leaves it unless
its lock is poisoned, panics at it just if one of its files does not parse, or the transaction of the text
cannot be read, and that is a text that the client has had the wallet of the file sign, or the request comes
to a poisoned lock; and after that just if a thread that connects to a neighbor has panicked, nothing
receives the transaction that it sends, or the lock of the pool that it serializes is poisoned. -/
theorem crash_conditions {s : Site A} {moves : List SiteMove}
    (hrun : Run (Site.Step L) (Site.start A) moves s) :
    (∀ req rest rng, s.walletPc = .reading → s.walletIn = req :: rest →
      ((∃ e, walletHandle L.host rng s.wallet req = Exec.panic e) ↔ WalletBreaks L rng req)) ∧
    (∀ req rest poison map shared, s.nakamoto.pc = .reading → s.nakamotoIn = req :: rest →
      (poison.chain = false → BlockTree.Inv shared.chain) →
      ((∃ e, nakamotoHandle L.host poison map shared s.nakamoto.created req = Exec.panic e) ↔
        Breaks L req ∨ poison.Stops req) ∧
      (Breaks L req → req = L.initialRequest ∨ ∃ dataString signature,
        req = .publishTx dataString signature ∧
          dataString ∈ moves.filterMap (SiteMove.submitted L.host.crates) ∧
          L.Signs dataString signature)) ∧
    ∀ poison shared, (∃ e, nakamotoResume L.host poison shared s.nakamoto.pc = some (Exec.panic e)) ↔
      (poison.neighbors = true ∧ ∃ neighbor rest, s.nakamoto.pc = .connecting neighbor rest) ∨
      (poison.transRx = true ∧ ∃ transaction, s.nakamoto.pc = .sending transaction) ∨
      poison.txPool = true ∧ ∃ serializedChain, s.nakamoto.pc = .serialized serializedChain := by
  obtain ⟨hsound, hstartup⟩ := Site.sound_of_run hrun
  refine ⟨?_, ?_, fun poison shared => nakamotoResume_panics⟩
  · intro req rest rng hpc hin
    have hfirst := hstartup.wallet
    rw [hin] at hfirst
    refine walletHandle_panics hsound.wallet ?_ (forall_mem_rest hsound.walletIn hin).1
    refine hfirst.take.imp (fun hstarted => hstarted.resolve_right ?_) id
    rintro ⟨e, he⟩
    exact absurd (hpc.symm.trans he) nofun
  · intro req rest poison map shared hpc hin hinv
    have hasks := (forall_mem_rest hsound.nakamotoIn hin).1
    constructor
    · refine nakamotoHandle_panics ?_ (fun hchain => ?_) hasks
      · rcases hstartup.nakamoto.take hpc hin with ⟨-, -, hfirst, -⟩ | ⟨hcreated, -⟩
        · exact .inr hfirst
        · exact .inl hcreated
      · obtain ⟨status, hstatus⟩ := BlockTree.getStatus_of_inv (hinv hchain)
        simp [hstatus]
    · intro hbreaks
      cases req with
      | initializeWith => exact .inl hasks
      | publishTx dataString signature =>
        obtain ⟨lost, lost', heq, -, -⟩ := Site.conveys_of_run hrun
        refine .inr ⟨dataString, signature, rfl, ?_, hasks⟩
        rw [heq, Site.toNode, hin]
        simp [publishedData]
      | _ => exact hbreaks.elim

theorem readable_alicePayment : Readable aliceCrates alicePayment :=
  readable_iff.mpr ⟨true, verifySig_alicePayment⟩

/-- The payment of Alice breaks nothing, but after a panic with the pool locked the node stops at it. -/
theorem crash_conditions_payment :
    (¬ ∃ e, nakamotoHandle aliceLaunch.host .clean [] Nakamoto.fresh.shared true
      (.publishTx aliceData alicePayment.sig) = Exec.panic e) ∧
    ∃ e, nakamotoHandle aliceLaunch.host { Poison.clean with txPool := true } [] Nakamoto.fresh.shared true
      (.publishTx aliceData alicePayment.sig) = Exec.panic e := by
  obtain ⟨typing, app, hrun, -, -⟩ := Site.run_payment Nakamoto.fresh.shared rfl
  obtain ⟨-, hnode, -⟩ := crash_conditions hrun
  obtain ⟨hclean, -⟩ := hnode _ _ .clean [] Nakamoto.fresh.shared rfl rfl fun _ => BlockTree.inv_genesisTree
  obtain ⟨hpoisoned, -⟩ := hnode _ _ { Poison.clean with txPool := true } [] Nakamoto.fresh.shared rfl rfl
    fun _ => BlockTree.inv_genesisTree
  refine ⟨fun hpanics => ?_, hpoisoned.mpr (.inr rfl)⟩
  rcases hclean.mp hpanics with hbreaks | hstops
  · exact hbreaks alicePayment rfl readable_alicePayment
  · exact absurd hstops Bool.false_ne_true

end NakamotoNode.Client
