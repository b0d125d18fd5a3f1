import NakamotoNode.Client.Ipc
import NakamotoNode.Client.Wallet
import NakamotoNode.Network.Message
import NakamotoNode.Node.OwnBlocks

/-! # The processes behind the client

The loops of `bin_wallet/src/main.rs` and `bin_nakamoto/src/main.rs`: each takes a request off its
standard input, does what it asks for, and prints one response. The wallet does nothing else. The loop of
the node waits in `create_nakamoto` until every neighbor has accepted a connection. From then on it is one
thread among others, and reads the chain and the pool under their locks, which a thread that panics leaves
poisoned. -/

namespace NakamotoNode.Chain.BlockTree
open Foundations Foundations.RustStd
set_option autoImplicit false

/-- `get_status`, in the order of a `BTreeMap`; it panics where the working block has no depth. -/
def getStatus (T : BlockTree) : Option (List (String × String)) :=
  (T.blockDepth.lookup T.workingBlockId).map fun blockDepth =>
    [("#blocks", debugNat T.allBlocks.entries.length), ("#orphans", debugNat T.orphans.entries.length),
      ("finalized_id", T.finalizedBlockId), ("root_id", T.rootId),
      ("working_depth", debugNat blockDepth), ("working_id", T.workingBlockId)]

/-- The working block has a depth. -/
theorem getStatus_of_inv {T : BlockTree} (h : Inv T) : ∃ map, T.getStatus = some map := by
  have hmem := (h.shape.depth_keys _).mpr h.final.working_mem
  obtain ⟨d, hd⟩ := Option.isSome_iff_exists.mp (AList.lookup_isSome.mpr hmem)
  exact ⟨_, by rw [getStatus, hd]; rfl⟩

end NakamotoNode.Chain.BlockTree

namespace NakamotoNode.Client
open Foundations Foundations.RustStd Chain Node
set_option autoImplicit false

/-- `TxPool::get_status`, in the order of a `BTreeMap`. -/
def txPoolStatus (txPool : TxPool) : List (String × String) :=
  [("#pool_tx_ids", debugNat txPool.poolTxIds.length),
    ("#pool_tx_map", debugNat txPool.poolTxMap.entries.length),
    ("#removed_tx_ids", debugNat txPool.removedTxIds.card)]

/-- A wallet with its private key. -/
structure SigningWallet extends Wallet where
  privKeyPem : String
  deriving DecidableEq, Repr

/-- `Config` of the node, with the field that `P2PNetwork::create` reads. -/
structure NakamotoConfig extends Config where
  neighbors : List Network.NetAddress

/-- What the processes use of crates besides `Crates`. -/
structure Host where
  crates : Crates
  /-- `serde_json::from_str` of the three texts that `create_nakamoto` is given -/
  configFromStr : String → Option NakamotoConfig
  chainFromStr : String → Option BlockTree
  txPoolFromStr : String → Option TxPool
  /-- `serde_json::from_str::<Wallet>` -/
  walletFromStr : String → Option SigningWallet
  /-- `serde_json::from_str::<Vec<String>>` -/
  fromStr : String → Option (List String)
  /-- the signature of a text, in base64, with the key of a PEM text and numbers of `thread_rng` -/
  rsaSign : ℕ → String → String → Option Signature
  /-- `serde_json::to_string_pretty` -/
  blockToString : BlockNode → String
  chainToString : BlockTree → String
  txPoolToString : TxPool → String

/-! ## The wallet -/

/-- The places where `main` of `bin_wallet` can panic. -/
inductive WalletMainPanic where
  /-- `serde_json::from_str(&string).unwrap()` -/
  | parse
  /-- `wallet.as_ref().unwrap()` -/
  | noWallet
  /-- `from_pkcs1_pem(&self.priv_key_pem).unwrap()` -/
  | privateKey
  | userId (e : WalletPanic)
  | verify (e : Panic)
  deriving DecidableEq, Repr

section
variable (H : Host)

/-- `Wallet::sign` -/
def SigningWallet.sign (wallet : SigningWallet) (rng : ℕ) (message : String) :
    Exec WalletMainPanic Signature :=
  Exec.unwrap .privateKey (H.rsaSign rng wallet.privKeyPem message)

/-- What the loop does with a request. A text is signed twice, and the second signature is sent. -/
def walletHandle (rng : ℕ) (wallet : Option SigningWallet) :
    IPCMessageReqWallet → Exec WalletMainPanic (Option SigningWallet × IPCMessageRespWallet)
  | .initializeWith string =>
      Exec.unwrap .parse (H.walletFromStr string) >>= fun parsed => .ok (some parsed, .initialized)
  | .signRequest dataString =>
      Exec.unwrap .noWallet wallet >>= fun signer =>
      signer.sign H rng dataString >>= fun _ =>
      signer.sign H (rng + 1) dataString >>= fun signature =>
      .ok (wallet, .signResponse dataString signature)
  | .verifyRequest dataString signature =>
      Exec.unwrap .noWallet wallet >>= fun signer =>
      Exec.mapPanic .verify (signer.toWallet.verify H.crates dataString signature) >>= fun isVerified =>
      .ok (wallet, .verifyResponse isVerified dataString)
  | .getUserInfo =>
      Exec.unwrap .noWallet wallet >>= fun signer =>
      Exec.mapPanic .userId signer.toWallet.getUserId >>= fun userId =>
      .ok (wallet, .userInfo signer.userName userId)
  | .quit => .ok (wallet, .quitting)

/-! ## The node -/

/-- The places where `main` of `bin_nakamoto` can panic. -/
inductive NakamotoMainPanic where
  /-- `serde_json::from_str(&config_str).unwrap()`, and so on -/
  | config
  | chain
  | txPool
  /-- `nakamoto.as_ref().unwrap()` -/
  | noNakamoto
  | publish (e : PublishPanic)
  | addTx (e : Panic)
  /-- `chain.all_blocks.get(&block_id).unwrap()` -/
  | block
  /-- `get_status` of the chain -/
  | status
  /-- `lock().unwrap()` -/
  | poisoned
  /-- `self.trans_tx.send(transaction).unwrap()` -/
  | send
  /-- `neighbors_connected_thread.join().unwrap()` -/
  | join
  deriving DecidableEq, Repr

/-- What threads of the node have left behind by a panic: the locks that they held, the receiver of
`trans_tx`, and the wait for the neighbors. -/
structure Poison where
  chain : Bool
  miner : Bool
  network : Bool
  txPool : Bool
  transRx : Bool
  neighbors : Bool
  deriving DecidableEq, Repr

/-- No thread has panicked. -/
def Poison.clean : Poison := ⟨false, false, false, false, false, false⟩

/-- `unwrap` of a `Result` without a value in it. -/
def unwrapResult (e : NakamotoMainPanic) (isErr : Bool) : Exec NakamotoMainPanic Unit :=
  if isErr then Exec.panic e else .ok ()

@[simp] theorem unwrapResult_eq_ok {e : NakamotoMainPanic} {isErr : Bool} {u : Unit} :
    unwrapResult e isErr = .ok u ↔ isErr = false := by
  cases isErr <;> simp [unwrapResult]

theorem unwrapResult_panics {e : NakamotoMainPanic} {isErr : Bool} :
    (∃ e', unwrapResult e isErr = Exec.panic e') ↔ isErr = true := by
  cases isErr <;> simp [unwrapResult]

theorem unwrapResult_ne_outOfFuel (e : NakamotoMainPanic) (isErr : Bool) :
    unwrapResult e isErr ≠ Exec.outOfFuel := by
  cases isErr <;> simp [unwrapResult]

/-- Where `main` of `bin_nakamoto` is. -/
inductive NakamotoPc where
  | reading
  /-- in `P2PNetwork::create`, which joins one thread for each neighbor; `from_addr` tries for ever -/
  | connecting (neighbor : Network.NetAddress) (rest : List Network.NetAddress)
  /-- `publish_tx` has added the transaction to the pool -/
  | sending (transaction : Transaction)
  /-- `get_serialized_chain` has returned -/
  | serialized (serializedChain : String)
  | printing (resp : IPCMessageRespNakamoto)
  | exited
  | panicked (e : NakamotoMainPanic)
  deriving DecidableEq, Repr

/-- The process has ended. -/
def NakamotoPc.over : NakamotoPc → Bool
  | exited | panicked _ => true
  | _ => false

/-- It is at a request, and not in `create_nakamoto`. -/
def NakamotoPc.atWork : NakamotoPc → Bool
  | sending _ | serialized _ | printing _ => true
  | _ => false

/-- `create_nakamoto`, with the neighbors that are not connected yet. -/
def NakamotoPc.create : List Network.NetAddress → NakamotoPc
  | [] => printing .initialized
  | neighbor :: rest => connecting neighbor rest

/-- `main` of `bin_nakamoto`; `created` when the `Option<Nakamoto>` is `Some`. -/
structure NakamotoMain where
  created : Bool
  pc : NakamotoPc
  deriving DecidableEq, Repr

/-- It goes on, and has a `Nakamoto` once `create_nakamoto` has returned. -/
def NakamotoMain.goTo (nakamoto : NakamotoMain) (pc : NakamotoPc) : NakamotoMain where
  created := nakamoto.created || decide (pc = .printing .initialized)
  pc := pc

@[simp] theorem NakamotoMain.goTo_pc (nakamoto : NakamotoMain) (pc : NakamotoPc) :
    (nakamoto.goTo pc).pc = pc := rfl

@[simp] theorem NakamotoMain.goTo_created (nakamoto : NakamotoMain) (pc : NakamotoPc) :
    (nakamoto.goTo pc).created = (nakamoto.created || decide (pc = .printing .initialized)) := rfl

/-- What `main` does with a request before it prints the response, with the first lock that it takes.
`map` is the status of the network or of the miner. What `publish_tx` does to the pool is the business of
the node. -/
def nakamotoHandle (poison : Poison) (map : List (String × String)) (shared : Shared) (created : Bool) :
    IPCMessageReqNakamoto → Exec NakamotoMainPanic NakamotoPc
  | .initializeWith blocktreeJson txPoolJson configJson =>
      Exec.unwrap .config (H.configFromStr configJson) >>= fun config =>
      Exec.unwrap .chain (H.chainFromStr blocktreeJson) >>= fun _ =>
      Exec.unwrap .txPool (H.txPoolFromStr txPoolJson) >>= fun _ => .ok (.create config.neighbors)
  | .quit => .ok (.printing .quitting)
  | .publishTx dataString signature =>
      Exec.mapPanic .publish (publishTx H.fromStr dataString signature) >>= fun transaction =>
      if created then
        unwrapResult .poisoned poison.txPool >>= fun _ =>
        Exec.mapPanic .addTx (shared.txPool.addTx H.crates transaction) >>= fun _ =>
        .ok (.sending transaction)
      else Exec.panic .noNakamoto
  | .getAddressBalance userId =>
      if created then
        unwrapResult .poisoned poison.chain >>= fun _ =>
        .ok (.printing (.addressBalance userId (shared.chain.finalizedBalanceMap.balance userId)))
      else Exec.panic .noNakamoto
  | .requestBlock blockId =>
      if created then
        unwrapResult .poisoned poison.chain >>= fun _ =>
        Exec.unwrap .block (shared.chain.getBlock blockId) >>= fun block =>
        .ok (.printing (.blockData (H.blockToString block)))
      else Exec.panic .noNakamoto
  | .requestNetStatus =>
      if created then
        unwrapResult .poisoned poison.network >>= fun _ => .ok (.printing (.netStatus map))
      else Exec.panic .noNakamoto
  | .requestMinerStatus =>
      if created then
        unwrapResult .poisoned poison.miner >>= fun _ => .ok (.printing (.minerStatus map))
      else Exec.panic .noNakamoto
  | .requestChainStatus =>
      if created then
        unwrapResult .poisoned poison.chain >>= fun _ =>
        Exec.unwrap .status shared.chain.getStatus >>= fun map =>
        .ok (.printing (.chainStatus map))
      else Exec.panic .noNakamoto
  | .requestTxPoolStatus =>
      if created then
        unwrapResult .poisoned poison.txPool >>= fun _ =>
        .ok (.printing (.txPoolStatus (txPoolStatus shared.txPool)))
      else Exec.panic .noNakamoto
  | .requestStateSerialization =>
      if created then
        unwrapResult .poisoned poison.chain >>= fun _ =>
        .ok (.serialized (H.chainToString shared.chain))
      else Exec.panic .noNakamoto

/-- What is left after that: the end of `publish_tx`, and `get_serialized_txpool`. The wait for the
neighbors ends when they have accepted, or in a panic. -/
def nakamotoResume (poison : Poison) (shared : Shared) :
    NakamotoPc → Option (Exec NakamotoMainPanic NakamotoPc)
  | .connecting _ _ => if poison.neighbors then some (Exec.panic .join) else none
  | .sending _ =>
      some (unwrapResult .send poison.transRx >>= fun _ => .ok (.printing .publishTxDone))
  | .serialized serializedChain =>
      some (unwrapResult .poisoned poison.txPool >>= fun _ =>
        .ok (.printing (.stateSerialization serializedChain (H.txPoolToString shared.txPool))))
  | _ => none

end

/-! ## Where a request leads to -/

/-- Where the node is after a request: each has a response of its own. -/
def Answers (H : Host) (shared : Shared) : IPCMessageReqNakamoto → NakamotoPc → Prop
  | .initializeWith _ _ _, pc => ∃ neighbors, pc = .create neighbors
  | .getAddressBalance userId, pc =>
      pc = .printing (.addressBalance userId (shared.chain.finalizedBalanceMap.balance userId))
  | .publishTx _ _, pc => ∃ transaction, pc = .sending transaction
  | .requestBlock _, pc => ∃ data, pc = .printing (.blockData data)
  | .requestNetStatus, pc => ∃ map, pc = .printing (.netStatus map)
  | .requestChainStatus, pc => ∃ map, pc = .printing (.chainStatus map)
  | .requestMinerStatus, pc => ∃ map, pc = .printing (.minerStatus map)
  | .requestTxPoolStatus, pc => ∃ map, pc = .printing (.txPoolStatus map)
  | .requestStateSerialization, pc => pc = .serialized (H.chainToString shared.chain)
  | .quit, pc => pc = .printing .quitting

section
variable {H : Host} {poison : Poison} {map : List (String × String)} {shared : Shared} {created : Bool}
  {req : IPCMessageReqNakamoto} {pc pc' : NakamotoPc}

/-- The node has been created, and the lock is not poisoned. -/
theorem locked_of_ok {e : NakamotoMainPanic} {poisoned : Bool} {x : Exec NakamotoMainPanic NakamotoPc}
    (h : (if created then unwrapResult e poisoned >>= fun _ => x else Exec.panic .noNakamoto) = .ok pc) :
    x = .ok pc := by
  cases created with
  | false => exact absurd h (Exec.panic_ne_ok _ _)
  | true =>
    obtain ⟨-, -, hx⟩ := Exec.bind_eq_ok.mp h
    exact hx

theorem answers_of_handle (h : nakamotoHandle H poison map shared created req = .ok pc) :
    Answers H shared req pc := by
  cases req with
  | initializeWith =>
    obtain ⟨config, -, h⟩ := Exec.bind_eq_ok.mp h
    obtain ⟨-, -, h⟩ := Exec.bind_eq_ok.mp h
    obtain ⟨-, -, h⟩ := Exec.bind_eq_ok.mp h
    exact ⟨config.neighbors, (Except.ok.inj h).symm⟩
  | publishTx =>
    obtain ⟨_, -, h⟩ := Exec.bind_eq_ok.mp h
    have hadd := locked_of_ok h
    obtain ⟨-, -, h⟩ := Exec.bind_eq_ok.mp hadd
    exact ⟨_, (Except.ok.inj h).symm⟩
  | requestBlock | requestChainStatus =>
    have hread := locked_of_ok h
    obtain ⟨_, -, h⟩ := Exec.bind_eq_ok.mp hread
    exact ⟨_, (Except.ok.inj h).symm⟩
  | quit => exact (Except.ok.inj h).symm
  | getAddressBalance | requestStateSerialization => exact (Except.ok.inj (locked_of_ok h)).symm
  | requestNetStatus | requestMinerStatus | requestTxPoolStatus =>
    exact ⟨_, (Except.ok.inj (locked_of_ok h)).symm⟩

theorem NakamotoPc.create_cases (neighbors : List Network.NetAddress) :
    create neighbors = printing .initialized ∨ ∃ neighbor rest, create neighbors = connecting neighbor rest := by
  cases neighbors with
  | nil => exact .inl rfl
  | cons neighbor rest => exact .inr ⟨neighbor, rest, rfl⟩

/-- Besides the first request, none has the node connect, print that it is initialized, or end. -/
theorem Answers.cases (h : Answers H shared req pc) :
    (∃ blocktreeJson txPoolJson configJson neighbors,
      req = .initializeWith blocktreeJson txPoolJson configJson ∧ pc = .create neighbors) ∨
    (∃ transaction, pc = .sending transaction) ∨ (∃ serializedChain, pc = .serialized serializedChain) ∨
    ∃ resp, pc = .printing resp ∧ resp ≠ .initialized ∧ (resp = .quitting → req = .quit) ∧
      ∀ userId balance, resp = .addressBalance userId balance → req = .getAddressBalance userId ∧
        balance = shared.chain.finalizedBalanceMap.balance userId := by
  cases req with
  | initializeWith =>
    obtain ⟨neighbors, h⟩ := h
    exact .inl ⟨_, _, _, neighbors, rfl, h⟩
  | publishTx => exact .inr (.inl h)
  | requestStateSerialization => exact .inr (.inr (.inl ⟨_, h⟩))
  | getAddressBalance userId =>
    refine .inr (.inr (.inr ⟨_, h, nofun, nofun, ?_⟩))
    rintro _ _ ⟨⟩
    exact ⟨rfl, rfl⟩
  | requestBlock | requestNetStatus | requestChainStatus | requestMinerStatus | requestTxPoolStatus =>
    obtain ⟨_, h⟩ := h
    exact .inr (.inr (.inr ⟨_, h, nofun, nofun, nofun⟩))
  | quit => exact .inr (.inr (.inr ⟨_, h, nofun, fun _ => rfl, nofun⟩))

/-- What is left to print is not resumed. -/
theorem not_printing_of_resume {x : Exec NakamotoMainPanic NakamotoPc}
    (h : nakamotoResume H poison shared pc = some x) (resp : IPCMessageRespNakamoto) :
    pc ≠ .printing resp := by
  rintro rfl
  exact absurd h nofun

theorem atWork_of_resume (h : nakamotoResume H poison shared pc = some (.ok pc')) : pc.atWork = true := by
  cases pc with
  | sending | serialized => rfl
  | connecting =>
    rw [nakamotoResume] at h
    split at h
    · exact absurd (Option.some.inj h) (Exec.panic_ne_ok _ _)
    · exact absurd h nofun
  | _ => exact absurd h nofun

theorem resumed_of_ok (h : nakamotoResume H poison shared pc = some (.ok pc')) :
    pc' = .printing .publishTxDone ∨
      ∃ serializedChain serializedTxpool,
        pc' = .printing (.stateSerialization serializedChain serializedTxpool) := by
  cases pc with
  | sending =>
    obtain ⟨-, -, h⟩ := Exec.bind_eq_ok.mp (Option.some.inj h)
    exact .inl (Except.ok.inj h).symm
  | serialized =>
    obtain ⟨-, -, h⟩ := Exec.bind_eq_ok.mp (Option.some.inj h)
    exact .inr ⟨_, _, (Except.ok.inj h).symm⟩
  | connecting => exact absurd (atWork_of_resume h) Bool.false_ne_true
  | _ => exact absurd h nofun

end

end NakamotoNode.Client
