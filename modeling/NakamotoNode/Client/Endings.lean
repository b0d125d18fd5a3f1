import NakamotoNode.Client.Crashes

/-! # Starting and quitting

`main` of `bin_client` waits for its two processes to start, and at the end for the UI thread, for the
processes, and for the other threads. Every wait ends after boundedly many steps, whatever the threads
interleave, but for those for a process that has panicked, or at the start for a neighbor of the node that
does not accept a connection (`startup_completes`, `quit_completes`). -/

namespace NakamotoNode.Client
open Foundations Foundations.RustStd Chain Node
set_option autoImplicit false

/-- What may come at any time: a notification, a command for the bot. -/
def SiteMove.outside : SiteMove → Bool
  | .notify _ | .botSend _ _ _ _ => true
  | _ => false

/-- That, or a neighbor that accepts a connection, or the panic of the thread that connects to it. -/
def SiteMove.foreign : SiteMove → Bool
  | .connect _ | .connectPanics _ => true
  | a => a.outside

theorem outside_of_foreign {a : SiteMove} (h : a.foreign = false) : a.outside = false := by
  cases a <;> first | rfl | exact h

/-! ## What is left to do

Each request stands for the steps up to the response, and each place in the code for the steps from there
to the end of the client. -/

def MainPc.rank : MainPc → ℕ
  | start => 23
  | awaitNakamoto => 18
  | initWallet => 17
  | awaitWallet => 14
  | askUser => 13
  | awaitUser => 10
  | joining => 9
  | quitWallet => 4
  | waiting => 1
  | finished | panicked => 0

def UiPc.rank : UiPc → ℕ
  | drawing => 7
  | polling => 6
  | handled => 1
  | ended => 0

def Publisher.rank : Publisher → ℕ
  | publishing _ _ => 6
  | reading => 2
  | outer | inner | holding _ => 1
  | ended => 0

def Reader.rank : Reader → ℕ
  | reading => 2
  | outer | inner => 1
  | ended | panicked => 0

def StatusPc.rank : StatusPc → ℕ
  | writing rest => 5 * rest.length + 2
  | outer => 1
  | ended => 0

def NakamotoPc.rank : NakamotoPc → ℕ
  | connecting _ _ | sending _ | serialized _ => 3
  | printing _ => 2
  | _ => 0

namespace Site
variable {A : TextAreas} {L : Launch A} {s t : Site A} {a : SiteMove}

def rank (s : Site A) : ℕ :=
  s.main.rank + s.ui.rank + s.publisher.rank + s.reader.rank + s.status.rank + s.nakamoto.pc.rank +
    4 * s.nakamotoIn.length + s.nakamotoOut.length + 2 * s.walletIn.length + s.walletOut.length

/-- Before the threads run, and when the user has quit. -/
def Closed (s : Site A) : Prop := s.main.starting = true ∨ s.app.shouldQuit = true

theorem Closed.not_running (h : s.Closed) (hs : s.main.spawned = true) :
    ¬ s.app.shouldQuit = false := by
  rintro hquit
  rcases h with hstarting | hquit'
  · exact absurd ((spawned_cases hs).1.symm.trans hstarting) Bool.false_ne_true
  · exact absurd (hquit.symm.trans hquit') Bool.false_ne_true

theorem rank_handled (pc : NakamotoPc) : pc.rank ≤ 3 := by
  cases pc <;> simp [NakamotoPc.rank]

theorem over_of_atWork {pc : NakamotoPc} (h : pc.atWork = true) : pc.over = false := by
  cases pc <;> first | rfl | exact absurd h Bool.false_ne_true

theorem rank_resumed {H : Host} {poison : Poison} {shared : Shared} {pc : NakamotoPc}
    {x : Exec NakamotoMainPanic NakamotoPc} (h : nakamotoResume H poison shared pc = some x) :
    pc.rank = 3 := by
  cases pc with
  | connecting | sending | serialized => rfl
  | _ => exact absurd h nofun

theorem Step.rank (hstep : Step L s a t) (h : s.Closed) :
    t.rank + 1 ≤ s.rank + if a.foreign then 3 else 0 := by
  cases hstep with
  | redraw hs _ hquit | publisherOn hs _ hquit | publisherGoes hs _ hquit | statusRound hs _ hquit
  | readerOn hs _ hquit => exact absurd hquit (h.not_running hs)
  | initNakamoto hm | initWallet hm | askUser hm =>
    simp [Site.rank, hm, MainPc.rank, SiteMove.foreign, SiteMove.outside]
    omega
  | awaitNakamoto hm hout | awaitWallet hm hout =>
    simp only [Site.rank, hm, hout, List.length_cons]
    split <;> simp only [MainPc.rank] <;> omega
  | awaitUser hm hout =>
    split <;> simp only [Site.rank, hm, hout, List.length_cons, MainPc.rank] <;> omega
  | draw _ hui | noKey _ hui | key _ hui | endUi _ hui =>
    simp only [Site.rank, hui, UiPc.rank]
    omega
  | save _ hui | pay _ hui =>
    simp only [Site.rank, hui, UiPc.rank, List.length_append, List.length_singleton]
    omega
  | botSend | notify =>
    simp only [Site.rank, SiteMove.foreign, SiteMove.outside, List.length_append, List.length_singleton,
      if_true]
    omega
  | publisherEnds _ hp =>
    rcases hp with hp | hp | ⟨resp, hp⟩ <;> simp only [Site.rank, hp, Publisher.rank] <;> omega
  | publisherReads _ hp hout =>
    simp only [Site.rank, hp, hout, List.length_cons]
    split <;> simp only [Publisher.rank] <;> omega
  | publisherEof _ hp =>
    simp only [Site.rank, hp, Publisher.rank]
    omega
  | publish _ hp =>
    simp only [Site.rank, hp, Publisher.rank, List.length_append, List.length_singleton]
    omega
  | statusAsks _ hs =>
    simp only [Site.rank, hs, StatusPc.rank, List.length_append, List.length_cons, List.length_nil]
    omega
  | statusAgain _ hs | statusEnds _ hs =>
    simp only [Site.rank, hs, StatusPc.rank]
    omega
  | readerEnds _ hr | readerPanics _ hr | readerEof _ hr =>
    simp only [Site.rank, hr, Reader.rank]
    omega
  | readerReads _ hr hout =>
    simp only [Site.rank, hr, hout, Reader.rank, List.length_cons]
    omega
  | quitNakamoto hm | quitWallet hm =>
    simp only [Site.rank, hm, MainPc.rank, List.length_append, List.length_singleton]
    omega
  | quitNakamotoFails hm | quitWalletFails hm | join hm | joinPanics hm =>
    simp only [Site.rank, hm, MainPc.rank]
    omega
  | wallet _ hin =>
    simp only [Site.rank, hin, List.length_append, List.length_cons, List.length_nil]
    omega
  | walletPanics _ hin =>
    simp only [Site.rank, hin, List.length_cons]
    omega
  | @nakamoto _ _ _ _ _ pc hpc hin =>
    have hpc' := rank_handled pc
    simp only [Site.rank, hpc, hin, NakamotoMain.goTo_pc, List.length_cons]
    omega
  | nakamotoPanics hpc hin =>
    simp only [Site.rank, hpc, hin, NakamotoPc.rank, List.length_cons]
    omega
  | @connect neighbor next rest hpc =>
    have hpc' := rank_handled (.create ((next :: rest).erase neighbor))
    have hconn : (NakamotoPc.connecting next rest).rank = 3 := rfl
    simp only [Site.rank, hpc, hconn, NakamotoMain.goTo_pc, SiteMove.foreign, if_true]
    omega
  | resume hresume =>
    simp only [Site.rank, rank_resumed hresume, NakamotoMain.goTo_pc]
    rcases resumed_of_ok hresume with rfl | ⟨_, _, rfl⟩ <;> simp only [NakamotoPc.rank] <;> omega
  | @connectPanics _ _ e _ _ _ hresume | @resumePanics _ _ e _ hresume =>
    have hdone : (NakamotoPc.panicked e).rank = 0 := rfl
    simp only [Site.rank, rank_resumed hresume, hdone]
    omega
  | print hpc =>
    simp only [Site.rank, hpc, List.length_append, List.length_singleton]
    split <;> simp only [NakamotoPc.rank] <;> omega

/-- The user cannot take back that he quits. -/
theorem Step.shouldQuit (hstep : Step L s a t) (hs : s.main.starting = false)
    (h : s.app.shouldQuit = true) : t.app.shouldQuit = true := by
  cases hstep with
  | awaitUser hm => exact absurd ((hm ▸ hs : MainPc.awaitUser.starting = false)) (by decide)
  | draw _ _ hdraw => exact (App.draw_frame hdraw).2.1.trans h
  | key | save | pay => exact (App.onKey_frame _).2.2 h
  | readerReads => exact (onResp_frame _ _).2.trans h
  | _ => exact h

/-- `main` starts once. -/
theorem Step.starting (hstep : Step L s a t) (h : t.main.starting = true) : s.main.starting = true := by
  cases hstep with
  | initNakamoto hm | awaitNakamoto hm | initWallet hm | awaitWallet hm | askUser hm | awaitUser hm =>
    rw [hm]
    rfl
  | quitNakamoto | quitWallet | quitNakamotoFails | quitWalletFails | join | joinPanics =>
    exact absurd h Bool.false_ne_true
  | _ => exact h

/-! ## What has been asked -/

end Site

/-- The wallet's response to a request. -/
def WalletAnswers : IPCMessageReqWallet → IPCMessageRespWallet → Prop
  | .initializeWith _, resp => resp = .initialized
  | .quit, resp => resp = .quitting
  | .signRequest dataString, resp => ∃ signature, resp = .signResponse dataString signature
  | .verifyRequest dataString _, resp => ∃ isSuccess, resp = .verifyResponse isSuccess dataString
  | .getUserInfo, resp => ∃ userName userId, resp = .userInfo userName userId

theorem walletAnswers_of_handle {H : Host} {rng : ℕ} {wallet wallet' : Option SigningWallet}
    {req : IPCMessageReqWallet} {resp : IPCMessageRespWallet}
    (h : walletHandle H rng wallet req = .ok (wallet', resp)) : WalletAnswers req resp := by
  cases req with
  | initializeWith =>
    obtain ⟨_, -, h⟩ := Exec.bind_eq_ok.mp h
    exact (Prod.mk.inj (Except.ok.inj h)).2.symm
  | quit => exact (Prod.mk.inj (Except.ok.inj h)).2.symm
  | signRequest =>
    obtain ⟨_, -, h⟩ := Exec.bind_eq_ok.mp h
    obtain ⟨_, -, h⟩ := Exec.bind_eq_ok.mp h
    obtain ⟨signature, -, h⟩ := Exec.bind_eq_ok.mp h
    exact ⟨signature, (Prod.mk.inj (Except.ok.inj h)).2.symm⟩
  | verifyRequest =>
    obtain ⟨_, -, h⟩ := Exec.bind_eq_ok.mp h
    obtain ⟨isSuccess, -, h⟩ := Exec.bind_eq_ok.mp h
    exact ⟨isSuccess, (Prod.mk.inj (Except.ok.inj h)).2.symm⟩
  | getUserInfo =>
    obtain ⟨signer, -, h⟩ := Exec.bind_eq_ok.mp h
    obtain ⟨userId, -, h⟩ := Exec.bind_eq_ok.mp h
    exact ⟨_, userId, (Prod.mk.inj (Except.ok.inj h)).2.symm⟩

/-- It quits when it is asked to. -/
theorem WalletAnswers.quits {req : IPCMessageReqWallet} (h : WalletAnswers req .quitting) :
    req = .quit := by
  cases req with
  | quit => rfl
  | initializeWith => exact absurd h nofun
  | signRequest | verifyRequest =>
    obtain ⟨_, h⟩ := h
    exact absurd h nofun
  | getUserInfo =>
    obtain ⟨_, _, h⟩ := h
    exact absurd h nofun

theorem Answers.quits {H : Host} {shared : Shared} {req : IPCMessageReqNakamoto}
    (h : Answers H shared req (.printing .quitting)) : req = .quit := by
  rcases h.cases with ⟨_, _, _, neighbors, -, hpc⟩ | ⟨_, hpc⟩ | ⟨_, hpc⟩ | ⟨resp, hpc, -, hquits, -⟩
  · cases neighbors with
    | nil => exact absurd (NakamotoPc.printing.inj hpc) nofun
    | cons => exact absurd hpc nofun
  · exact absurd hpc nofun
  · exact absurd hpc nofun
  · exact hquits (NakamotoPc.printing.inj hpc).symm

theorem Answers.ne_exited {H : Host} {shared : Shared} {req : IPCMessageReqNakamoto} :
    ¬ Answers H shared req .exited := by
  intro h
  rcases h.cases with ⟨_, _, _, neighbors, -, hpc⟩ | ⟨_, hpc⟩ | ⟨_, hpc⟩ | ⟨_, hpc, -⟩
  · cases neighbors <;> exact absurd hpc nofun
  · exact absurd hpc nofun
  · exact absurd hpc nofun
  · exact absurd hpc nofun

/-- `main` has told the node to quit, or both. -/
def MainPc.closing : MainPc → Bool
  | quitWallet | waiting | finished => true
  | _ => false

namespace Site
variable {A : TextAreas} {L : Launch A} {s t : Site A} {a : SiteMove}

/-- The node has the first request before it, or the response before the reader, unless it has panicked
or is connecting to its neighbors. -/
def NakamotoOwes (L : Launch A) (s : Site A) : Prop :=
  L.initialRequest ∈ s.nakamotoIn ∨ s.nakamoto.pc = .printing .initialized ∨
    .initialized ∈ s.nakamotoOut ∨ (∃ e, s.nakamoto.pc = .panicked e) ∨
    ∃ neighbor rest, s.nakamoto.pc = .connecting neighbor rest

theorem owes_of_create {neighbors : List Network.NetAddress} (h : s.nakamoto.pc = .create neighbors) :
    NakamotoOwes L s := by
  rcases NakamotoPc.create_cases neighbors with hcreate | ⟨neighbor, rest, hcreate⟩
  · exact .inr (.inl (h.trans hcreate))
  · exact .inr (.inr (.inr (.inr ⟨neighbor, rest, h.trans hcreate⟩)))

/-- What the node is at is not the first request. -/
theorem NakamotoOwes.resumed (h : NakamotoOwes L s) (hwork : s.nakamoto.pc.atWork = true)
    (hprints : ∀ resp, s.nakamoto.pc ≠ .printing resp) (nakamoto : NakamotoMain) : NakamotoOwes L { s with nakamoto := nakamoto } := by
  rcases h with hmem | hprinting | hmem | ⟨e, he⟩ | ⟨neighbor, rest, hconn⟩
  · exact .inl hmem
  · exact absurd hprinting (hprints _)
  · exact .inr (.inr (.inl hmem))
  · rw [he] at hwork
    exact absurd hwork Bool.false_ne_true
  · rw [hconn] at hwork
    exact absurd hwork Bool.false_ne_true

def WalletOwes (s : Site A) (req : IPCMessageReqWallet) : Prop :=
  req ∈ s.walletIn ∨ (∃ resp ∈ s.walletOut, WalletAnswers req resp) ∨ ∃ e, s.walletPc = .panicked e

/-- What is on its way when `main` waits. -/
structure Phases (L : Launch A) (s : Site A) : Prop where
  app : s.main.starting = true → s.app.shouldQuit = false
  awaitNakamoto : s.main = .awaitNakamoto → NakamotoOwes L s
  awaitWallet : s.main = .awaitWallet → s.WalletOwes (.initializeWith L.walletFile)
  awaitUser : s.main = .awaitUser → s.WalletOwes .getUserInfo
  ui : s.main.closing = true → s.ui = .ended
  nakamoto : s.main.closing = true →
    .quit ∈ s.nakamotoIn ∨ s.nakamoto.pc = .printing .quitting ∨ s.nakamoto.pc.over = true
  wallet : s.main = .waiting → .quit ∈ s.walletIn ∨ s.walletPc.over = true
  nakamotoRuns : s.main.starting = true ∨ s.main = .joining →
    .quit ∉ s.nakamotoIn ∧ s.nakamoto.pc ≠ .printing .quitting ∧ s.nakamoto.pc ≠ .exited
  walletRuns : s.main.starting = true ∨ s.main = .joining ∨ s.main = .quitWallet →
    .quit ∉ s.walletIn ∧ s.walletPc ≠ .exited
  finished : s.main = .finished → s.walletPc.over = true ∧ s.nakamoto.pc.over = true ∧
    s.publisher = .ended ∧ s.status = .ended ∧ s.reader = .ended
  panicked : s.main = .panicked → s.reader = .panicked ∨ (∃ e, s.walletPc = .panicked e) ∨
    ∃ e, s.nakamoto.pc = .panicked e

theorem phases_start : Phases L (start A) where
  app := fun _ => rfl
  awaitNakamoto := by simp [start]
  awaitWallet := by simp [start]
  awaitUser := by simp [start]
  ui := by simp [start, MainPc.closing]
  nakamoto := by simp [start, MainPc.closing]
  wallet := by simp [start]
  nakamotoRuns := by simp [start]
  walletRuns := by simp [start]
  finished := by simp [start]
  panicked := by simp [start]

/-- A step of `main` at the end. -/
theorem Phases.ofClosing (hmain : t.main.starting = false) (hjoining : t.main ≠ .joining)
    (hui : t.main.closing = true → t.ui = .ended)
    (hnakamoto : t.main.closing = true →
      .quit ∈ t.nakamotoIn ∨ t.nakamoto.pc = .printing .quitting ∨ t.nakamoto.pc.over = true)
    (hwallet : t.main = .waiting → .quit ∈ t.walletIn ∨ t.walletPc.over = true)
    (hwalletRuns : t.main = .quitWallet → .quit ∉ t.walletIn ∧ t.walletPc ≠ .exited)
    (hfinished : t.main = .finished → t.walletPc.over = true ∧ t.nakamoto.pc.over = true ∧
      t.publisher = .ended ∧ t.status = .ended ∧ t.reader = .ended)
    (hpanicked : t.main = .panicked → t.reader = .panicked ∨ (∃ e, t.walletPc = .panicked e) ∨
      ∃ e, t.nakamoto.pc = .panicked e) : Phases L t := by
  have hne : ∀ m : MainPc, m.starting = true → t.main ≠ m := by
    rintro m hm rfl
    exact absurd (hmain.symm.trans hm) Bool.false_ne_true
  have hstarting : ¬ t.main.starting = true := fun hm =>
    absurd (hmain.symm.trans hm) Bool.false_ne_true
  exact ⟨fun hm => absurd hm hstarting, fun hm => absurd hm (hne _ rfl), fun hm => absurd hm (hne _ rfl),
    fun hm => absurd hm (hne _ rfl), hui, hnakamoto, hwallet,
    fun hm => absurd hm (not_or.mpr ⟨hstarting, hjoining⟩),
    fun hm => hwalletRuns ((hm.resolve_left hstarting).resolve_left hjoining), hfinished, hpanicked⟩

theorem Phases.ofPanic (hmain : t.main = .panicked) (hpanicked : t.reader = .panicked ∨
    (∃ e, t.walletPc = .panicked e) ∨ ∃ e, t.nakamoto.pc = .panicked e) : Phases L t := by
  have hclosing : ¬ t.main.closing = true := by rw [hmain]; exact Bool.false_ne_true
  exact .ofClosing (by rw [hmain]; rfl) (by simp [hmain]) (fun hm => absurd hm hclosing)
    (fun hm => absurd hm hclosing) (by simp [hmain]) (by simp [hmain]) (by simp [hmain])
    fun _ => hpanicked

/-- The threads are spawned. -/
theorem Phases.spawn (h : Phases L s) (hs : s.main.starting = true) {app : App A}
    {walletOut : List IPCMessageRespWallet} :
    Phases L { s with main := .joining, app := app, walletOut := walletOut } := by
  have hclosing : ¬ MainPc.joining.closing = true := Bool.false_ne_true
  exact ⟨fun hm => absurd hm Bool.false_ne_true, by simp, by simp, by simp, fun hm => absurd hm hclosing,
    fun hm => absurd hm hclosing, by simp, fun _ => h.nakamotoRuns (.inl hs),
    fun _ => h.walletRuns (.inl hs), by simp, by simp⟩

/-- A step of a thread. -/
theorem Phases.thread (h : Phases L s) (hs : s.main.spawned = true) (hmain : t.main = s.main)
    (hui : s.ui = .ended → t.ui = .ended) (hwalletPc : t.walletPc = s.walletPc)
    (hnakamoto : t.nakamoto = s.nakamoto) (hwalletIn : Asked .quit s.walletIn t.walletIn)
    (hnakamotoIn : Asked .quit s.nakamotoIn t.nakamotoIn) : Phases L t := by
  have hstarting := (spawned_cases hs).1
  have hne : ∀ m : MainPc, m.spawned = false → t.main ≠ m := by
    rintro m hm rfl
    exact absurd ((hmain ▸ hm).symm.trans hs) Bool.false_ne_true
  refine ⟨fun hm => ?_, fun hm => absurd hm (hne _ rfl), fun hm => absurd hm (hne _ rfl),
    fun hm => absurd hm (hne _ rfl), fun hm => hui (h.ui (hmain ▸ hm)), fun hm => ?_, fun hm => ?_,
    fun hm => ?_, fun hm => ?_, fun hm => absurd hm (hne _ rfl), fun hm => absurd hm (hne _ rfl)⟩
  · rw [hmain] at hm
    exact absurd (hstarting.symm.trans hm) Bool.false_ne_true
  · rw [hnakamotoIn.mem, hnakamoto]
    exact h.nakamoto (hmain ▸ hm)
  · rw [hwalletIn.mem, hwalletPc]
    exact h.wallet (hmain ▸ hm)
  · rw [hnakamotoIn.mem, hnakamoto]
    exact h.nakamotoRuns (hmain ▸ hm)
  · rw [hwalletIn.mem, hwalletPc]
    exact h.walletRuns (hmain ▸ hm)

/-- A step of the node. -/
theorem Phases.ofNakamoto (h : Phases L s) (hpc : s.nakamoto.pc.over = false)
    {nakamotoIn : List IPCMessageReqNakamoto} {nakamoto : NakamotoMain}
    {nakamotoOut : List IPCMessageRespNakamoto}
    (ht : t = { s with nakamotoIn := nakamotoIn, nakamoto := nakamoto, nakamotoOut := nakamotoOut })
    (howes : NakamotoOwes L s → NakamotoOwes L t)
    (hquit : .quit ∈ s.nakamotoIn ∨ s.nakamoto.pc = .printing .quitting →
      .quit ∈ nakamotoIn ∨ nakamoto.pc = .printing .quitting ∨ nakamoto.pc.over = true)
    (hruns : .quit ∉ s.nakamotoIn → s.nakamoto.pc ≠ .printing .quitting →
      .quit ∉ nakamotoIn ∧ nakamoto.pc ≠ .printing .quitting ∧ nakamoto.pc ≠ .exited) :
    Phases L t := by
  subst ht
  refine { h with
    awaitNakamoto := fun hm => howes (h.awaitNakamoto hm)
    nakamoto := fun hm => ?_
    nakamotoRuns := fun hm => ?_
    finished := fun hm => ?_
    panicked := fun hm => ?_ }
  · rcases h.nakamoto hm with hin | hprinting | hover
    · exact hquit (.inl hin)
    · exact hquit (.inr hprinting)
    · exact absurd (hpc.symm.trans hover) Bool.false_ne_true
  · obtain ⟨hin, hprinting, -⟩ := h.nakamotoRuns hm
    exact hruns hin hprinting
  · exact absurd (hpc.symm.trans (h.finished hm).2.1) Bool.false_ne_true
  · rcases h.panicked hm with hreader | hwallet | ⟨e, he⟩
    · exact .inl hreader
    · exact .inr (.inl hwallet)
    · rw [he] at hpc
      exact absurd hpc.symm Bool.false_ne_true

/-- A step of the wallet. -/
theorem Phases.ofWallet (h : Phases L s) (hpc : s.walletPc = .reading) {req : IPCMessageReqWallet}
    {rest : List IPCMessageReqWallet} (hin : s.walletIn = req :: rest) {wallet : Option SigningWallet}
    {walletPc : WalletPc} {walletOut : List IPCMessageRespWallet}
    (howes : (∀ resp ∈ s.walletOut, resp ∈ walletOut) ∧
      ((∃ resp ∈ walletOut, WalletAnswers req resp) ∨ ∃ e, walletPc = .panicked e))
    (hquit : req = .quit → walletPc.over = true) (hruns : walletPc = .exited → req = .quit) :
    Phases L
      { s with walletIn := rest, wallet := wallet, walletPc := walletPc, walletOut := walletOut } := by
  obtain ⟨hkept, hanswer⟩ := howes
  have howed : ∀ req', s.WalletOwes req' →
      { s with walletIn := rest, wallet := wallet, walletPc := walletPc, walletOut := walletOut }.WalletOwes
        req' := by
    rintro req' (hmem | ⟨resp, hmem, hresp⟩ | ⟨e, he⟩)
    · rw [hin] at hmem
      rcases List.mem_cons.mp hmem with rfl | hmem
      · exact .inr hanswer
      · exact .inl hmem
    · exact .inr (.inl ⟨resp, hkept resp hmem, hresp⟩)
    · exact absurd (hpc.symm.trans he) nofun
  refine { h with
    awaitWallet := fun hm => howed _ (h.awaitWallet hm)
    awaitUser := fun hm => howed _ (h.awaitUser hm)
    wallet := fun hm => ?_
    walletRuns := fun hm => ?_
    finished := fun hm => ?_
    panicked := fun hm => ?_ }
  · rcases h.wallet hm with hmem | hover
    · rw [hin] at hmem
      rcases List.mem_cons.mp hmem with heq | hmem
      · exact .inr (hquit heq.symm)
      · exact .inl hmem
    · rw [hpc] at hover
      exact absurd hover Bool.false_ne_true
  · obtain ⟨hnot, -⟩ := h.walletRuns hm
    rw [hin, List.mem_cons, not_or] at hnot
    exact ⟨hnot.2, fun hexited => hnot.1 (hruns hexited).symm⟩
  · have hover := (h.finished hm).1
    rw [hpc] at hover
    exact absurd hover Bool.false_ne_true
  · rcases h.panicked hm with hreader | ⟨e, he⟩ | hnakamoto
    · exact .inl hreader
    · exact absurd (hpc.symm.trans he) nofun
    · exact .inr (.inr hnakamoto)

/-- A step of `main` before the threads run. -/
theorem Phases.start (h : Phases L s) (hs : s.main.starting = true) (hmain : t.main.starting = true)
    (happ : t.app = s.app) (hwalletPc : t.walletPc = s.walletPc) (hnakamoto : t.nakamoto = s.nakamoto)
    (hwalletIn : Asked .quit s.walletIn t.walletIn)
    (hnakamotoIn : Asked .quit s.nakamotoIn t.nakamotoIn)
    (hawaitNakamoto : t.main = .awaitNakamoto → NakamotoOwes L t)
    (hawaitWallet : t.main = .awaitWallet → t.WalletOwes (.initializeWith L.walletFile))
    (hawaitUser : t.main = .awaitUser → t.WalletOwes .getUserInfo) : Phases L t := by
  have hne : ∀ m : MainPc, m.starting = false → t.main ≠ m := by
    rintro m hm rfl
    exact absurd (hm.symm.trans hmain) Bool.false_ne_true
  have hclosing : ¬ t.main.closing = true := by
    cases hm : t.main <;> first | exact Bool.false_ne_true | exact absurd hm (hne _ rfl)
  refine ⟨fun _ => happ ▸ h.app hs, hawaitNakamoto, hawaitWallet, hawaitUser,
    fun hm => absurd hm hclosing, fun hm => absurd hm hclosing, fun hm => absurd hm (hne _ rfl),
    fun _ => ?_, fun _ => ?_, fun hm => absurd hm (hne _ rfl), fun hm => absurd hm (hne _ rfl)⟩
  · rw [hnakamotoIn.mem, hnakamoto]
    exact h.nakamotoRuns (.inl hs)
  · rw [hwalletIn.mem, hwalletPc]
    exact h.walletRuns (.inl hs)

theorem ne_quit_of_statusRound {userId : UserId} {req : IPCMessageReqNakamoto}
    (h : req ∈ Site.statusRound userId) : req ≠ .quit := by
  rintro rfl
  simp [Site.statusRound] at h

theorem ne_quit_of_key {key : Key A} {req : IPCMessageReqNakamoto} (h : keyRequests key = [req]) :
    req ≠ .quit := by
  rintro rfl
  cases key <;> simp [keyRequests] at h

theorem Step.phases (hstep : Step L s a t) (hsound : Sound L s) (h : Phases L s) : Phases L t := by
  cases hstep with
  | initNakamoto hm =>
    exact h.start (by rw [hm]; rfl) rfl rfl rfl rfl (.inl rfl) (.put (by simp))
      (fun _ => .inl (by simp [Launch.initialRequest])) (by simp) (by simp)
  | awaitNakamoto hm hout =>
    have hs : s.main.starting = true := by rw [hm]; rfl
    have howes := h.awaitNakamoto hm
    split
    · exact h.start hs rfl rfl rfl rfl (.inl rfl) (.inl rfl) (by simp) (by simp) (by simp)
    · next hcontains =>
      refine h.start hs rfl rfl rfl rfl (.inl rfl) (.inl rfl) (fun _ => ?_) (by simp) (by simp)
      refine howes.imp id (.imp id (.imp (fun hmem => ?_) id))
      rw [hout] at hmem
      rcases List.mem_cons.mp hmem with rfl | hmem
      · exact absurd (contains_writeVariant "Initialized" _) hcontains
      · exact hmem
  | initWallet hm =>
    exact h.start (by rw [hm]; rfl) rfl rfl rfl rfl (.put (by simp)) (.inl rfl) (by simp)
      (fun _ => .inl (by simp)) (by simp)
  | awaitWallet hm hout =>
    have hs : s.main.starting = true := by rw [hm]; rfl
    have howes := h.awaitWallet hm
    split
    · exact h.start hs rfl rfl rfl rfl (.inl rfl) (.inl rfl) (by simp) (by simp) (by simp)
    · next hcontains =>
      refine h.start hs rfl rfl rfl rfl (.inl rfl) (.inl rfl) (by simp) (fun _ => ?_) (by simp)
      refine howes.imp id (.imp ?_ id)
      rintro ⟨resp, hmem, hresp⟩
      rw [hout] at hmem
      rcases List.mem_cons.mp hmem with rfl | hmem
      · rw [hresp] at hcontains
        exact absurd (contains_writeVariant "Initialized" _) hcontains
      · exact ⟨resp, hmem, hresp⟩
  | askUser hm =>
    exact h.start (by rw [hm]; rfl) rfl rfl rfl rfl (.put (by simp)) (.inl rfl) (by simp) (by simp)
      fun _ => .inl (by simp)
  | awaitUser hm hout =>
    have hs : s.main.starting = true := by rw [hm]; rfl
    have howes := h.awaitUser hm
    split
    · exact h.spawn hs
    · next hcontains =>
      refine h.start hs hs rfl rfl rfl (.inl rfl) (.inl rfl) (by simp [hm]) (by simp [hm]) fun _ => ?_
      refine howes.imp id (.imp ?_ id)
      rintro ⟨resp, hmem, hresp⟩
      rw [hout] at hmem
      rcases List.mem_cons.mp hmem with rfl | hmem
      · obtain ⟨userName, userId, rfl⟩ := hresp
        exact absurd (contains_writeVariant "UserInfo" _) hcontains
      · exact ⟨resp, hmem, hresp⟩
  | draw hs hui | noKey hs hui | key hs hui | redraw hs hui =>
    exact h.thread hs rfl (by simp [hui]) rfl rfl (.inl rfl) (.inl rfl)
  | save hs hui hreq =>
    exact h.thread hs rfl (by simp [hui]) rfl rfl (.inl rfl)
      (.put (ne_quit_of_key hreq))
  | pay hs hui =>
    exact h.thread hs rfl (by simp [hui]) rfl rfl (.put (by simp))
      (.inl rfl)
  | botSend hs => exact h.thread hs rfl id rfl rfl (.put (by simp)) (.inl rfl)
  | publish hs => exact h.thread hs rfl id rfl rfl (.inl rfl) (.put (by simp))
  | statusAsks hs hstatus =>
    obtain ⟨⟨userId, hreq⟩, -⟩ := forall_mem_rest (hsound.status _ hstatus) rfl
    exact h.thread hs rfl id rfl rfl (.inl rfl) (.put (ne_quit_of_statusRound hreq))
  | endUi hs => exact h.thread hs rfl (fun _ => rfl) rfl rfl (.inl rfl) (.inl rfl)
  | publisherOn hs | publisherEnds hs | publisherReads hs | publisherEof hs | publisherGoes hs
  | statusRound hs | statusAgain hs | statusEnds hs | readerOn hs | readerEnds hs | readerPanics hs
  | readerReads hs | readerEof hs => exact h.thread hs rfl id rfl rfl (.inl rfl) (.inl rfl)
  | quitNakamoto hm hui =>
    exact .ofClosing rfl (by simp) (fun _ => hui) (fun _ => .inl (by simp)) (by simp)
      (fun _ => h.walletRuns (.inr (.inl hm))) (by simp) (by simp)
  | quitNakamotoFails hm _ hpc =>
    obtain ⟨-, -, hexited⟩ := h.nakamotoRuns (.inr hm)
    refine .ofPanic rfl ?_
    cases hnode : s.nakamoto.pc with
    | panicked e => exact .inr (.inr ⟨e, rfl⟩)
    | exited => exact absurd hnode hexited
    | _ =>
      rw [hnode] at hpc
      exact absurd hpc Bool.false_ne_true
  | quitWallet hm =>
    exact .ofClosing rfl (by simp) (fun _ => h.ui (by rw [hm]; rfl)) (fun _ => h.nakamoto (by rw [hm]; rfl))
      (fun _ => .inl (by simp)) (by simp) (by simp) (by simp)
  | quitWalletFails hm hpc =>
    obtain ⟨-, hexited⟩ := h.walletRuns (.inr (.inr hm))
    refine .ofPanic rfl ?_
    cases hwallet : s.walletPc with
    | panicked e => exact .inr (.inl ⟨e, rfl⟩)
    | exited => exact absurd hwallet hexited
    | reading =>
      rw [hwallet] at hpc
      exact absurd hpc Bool.false_ne_true
  | join hm hnakamoto hwallet hp hs hr =>
    exact .ofClosing rfl (by simp) (fun _ => h.ui (by rw [hm]; rfl)) (fun _ => .inr (.inr hnakamoto))
      (by simp) (by simp) (fun _ => ⟨hwallet, hnakamoto, hp, hs, hr⟩) (by simp)
  | joinPanics _ _ _ _ _ hr =>
    exact .ofPanic rfl (.inl hr)
  | @wallet _ req _ _ resp hpc hin hhandle =>
    have hanswer := walletAnswers_of_handle hhandle
    refine h.ofWallet hpc hin ⟨fun _ hmem => List.mem_append_left _ hmem, .inl ⟨resp, by simp, hanswer⟩⟩
      ?_ ?_
    · rintro rfl
      obtain rfl : resp = .quitting := hanswer
      rfl
    · intro hexited
      split at hexited
      · next hresp => exact (hresp ▸ hanswer).quits
      · exact absurd hexited (by simp)
  | walletPanics hpc hin =>
    exact h.ofWallet hpc hin ⟨fun _ => id, .inr ⟨_, rfl⟩⟩ (fun _ => rfl) (by simp)
  | @nakamoto _ _ shared req _ pc hpc hin hhandle =>
    have hanswer := answers_of_handle hhandle
    refine h.ofNakamoto (by rw [hpc]; rfl) rfl ?_ ?_ ?_
    · rintro (hmem | hprinting | hmem | ⟨e, he⟩ | ⟨_, _, hconn⟩)
      · rw [hin] at hmem
        rcases List.mem_cons.mp hmem with rfl | hmem
        · obtain ⟨neighbors, rfl⟩ := hanswer
          exact owes_of_create rfl
        · exact .inl hmem
      · exact absurd (hpc.symm.trans hprinting) (by simp)
      · exact .inr (.inr (.inl hmem))
      · exact absurd (hpc.symm.trans he) (by simp)
      · exact absurd (hpc.symm.trans hconn) (by simp)
    · rintro (hmem | hprinting)
      · rw [hin] at hmem
        rcases List.mem_cons.mp hmem with rfl | hmem
        · exact .inr (.inl hanswer)
        · exact .inl hmem
      · exact absurd (hpc.symm.trans hprinting) (by simp)
    · intro hnot _
      rw [hin, List.mem_cons, not_or] at hnot
      refine ⟨hnot.2, ?_, ?_⟩
      · rintro rfl
        exact hnot.1 hanswer.quits.symm
      · rintro rfl
        exact hanswer.ne_exited
  | nakamotoPanics hpc hin =>
    refine h.ofNakamoto (by rw [hpc]; rfl) rfl (fun _ => .inr (.inr (.inr (.inl ⟨_, rfl⟩))))
      (fun _ => .inr (.inr rfl)) fun hnot _ => ⟨?_, by simp, by simp⟩
    rw [hin, List.mem_cons, not_or] at hnot
    exact hnot.2
  | @connect neighbor next rest hpc =>
    have hcreate := NakamotoPc.create_cases ((next :: rest).erase neighbor)
    refine h.ofNakamoto (by rw [hpc]; rfl) rfl (fun _ => owes_of_create rfl) ?_ fun hnot _ => ⟨hnot, ?_⟩
    · rintro (hmem | hprinting)
      · exact .inl hmem
      · exact absurd (hpc.symm.trans hprinting) (by simp)
    · rw [NakamotoMain.goTo_pc]
      rcases hcreate with hcreate | ⟨_, _, hcreate⟩ <;> simp [hcreate]
  | connectPanics hpc =>
    exact h.ofNakamoto (by rw [hpc]; rfl) rfl (fun _ => .inr (.inr (.inr (.inl ⟨_, rfl⟩))))
      (fun _ => .inr (.inr rfl)) fun hnot _ => ⟨hnot, by simp, by simp⟩
  | resume hresume =>
    have hwork := atWork_of_resume hresume
    have hprints := not_printing_of_resume hresume
    refine h.ofNakamoto (over_of_atWork hwork) rfl (fun howes => howes.resumed hwork hprints _) ?_
      fun hnot _ => ⟨hnot, ?_⟩
    · rintro (hmem | hprinting)
      · exact .inl hmem
      · exact absurd hprinting (hprints _)
    · rw [NakamotoMain.goTo_pc]
      rcases resumed_of_ok hresume with hdone | ⟨_, _, hdone⟩ <;> simp [hdone]
  | resumePanics hwork hresume =>
    exact h.ofNakamoto (over_of_atWork hwork) rfl
      (fun howes => howes.resumed hwork (not_printing_of_resume hresume) _)
      (fun _ => .inr (.inr rfl)) fun hnot _ => ⟨hnot, by simp, by simp⟩
  | @print resp hpc =>
    refine h.ofNakamoto (by rw [hpc]; rfl) rfl ?_ ?_ fun hnot hne => ⟨hnot, ?_, ?_⟩
    · rintro (hmem | hprinting | hmem | ⟨e, he⟩ | ⟨_, _, hconn⟩)
      · exact .inl hmem
      · obtain rfl := NakamotoPc.printing.inj (hpc.symm.trans hprinting)
        exact .inr (.inr (.inl (by simp)))
      · exact .inr (.inr (.inl (List.mem_append_left _ hmem)))
      · exact absurd (hpc.symm.trans he) (by simp)
      · exact absurd (hpc.symm.trans hconn) (by simp)
    · rintro (hmem | hprinting)
      · exact .inl hmem
      · obtain rfl := NakamotoPc.printing.inj (hpc.symm.trans hprinting)
        exact .inr (.inr rfl)
    · dsimp only
      split <;> simp
    · dsimp only
      rw [if_neg fun hresp => hne (by rw [hpc, hresp])]
      simp
  | notify =>
    refine { h with awaitNakamoto := fun hm => ?_ }
    exact (h.awaitNakamoto hm).imp id (.imp id (.imp (List.mem_append_left _) id))

theorem phases_of_run {moves : List SiteMove} (hrun : Run (Step L) (start A) moves s) : Phases L s := by
  have hall := hrun.invariant (I := fun s => (Sound L s ∧ Startup L s) ∧ Phases L s)
    (fun _ _ _ h hstep => ⟨⟨hstep.sound h.1.1, hstep.startup h.1.1 h.1.2⟩, hstep.phases h.1.1 h.2⟩)
    ⟨⟨sound_start, startup_start⟩, phases_start⟩
  exact hall.2

/-! ## What can go on -/

/-- The client, or one of its processes, has a step. -/
def Moves (L : Launch A) (s : Site A) : Prop := ∃ a t, Step L s a t ∧ a.foreign = false

end Site

theorem locked_ne_outOfFuel {created poisoned : Bool} {e : NakamotoMainPanic}
    {x : Exec NakamotoMainPanic NakamotoPc} (h : x ≠ Exec.outOfFuel) :
    (if created then unwrapResult e poisoned >>= fun _ => x else Exec.panic .noNakamoto) ≠
      Exec.outOfFuel := by
  cases created with
  | false => exact Exec.panic_ne_outOfFuel _
  | true => exact Exec.bind_ne_outOfFuel (unwrapResult_ne_outOfFuel _ _) fun _ _ => h

theorem nakamotoHandle_ne_outOfFuel {H : Host} {poison : Poison} {map : List (String × String)}
    {shared : Shared} {created : Bool} {req : IPCMessageReqNakamoto} :
    nakamotoHandle H poison map shared created req ≠ Exec.outOfFuel := by
  cases req with
  | initializeWith =>
    refine Exec.bind_ne_outOfFuel (Exec.unwrap_ne_outOfFuel _ _) fun _ _ => ?_
    refine Exec.bind_ne_outOfFuel (Exec.unwrap_ne_outOfFuel _ _) fun _ _ => ?_
    exact Exec.bind_ne_outOfFuel (Exec.unwrap_ne_outOfFuel _ _) fun _ _ => Exec.ok_ne_outOfFuel _
  | quit => exact Exec.ok_ne_outOfFuel _
  | publishTx =>
    refine Exec.bind_ne_outOfFuel (Exec.mapPanic_ne_outOfFuel (publishTx_ne_outOfFuel _ _ _))
      fun tx _ => locked_ne_outOfFuel ?_
    refine Exec.bind_ne_outOfFuel (Exec.mapPanic_ne_outOfFuel ?_) fun _ _ => Exec.ok_ne_outOfFuel _
    refine Exec.bind_ne_outOfFuel (verifySig_ne_outOfFuel _ _) fun _ _ => ?_
    split <;> exact Exec.ok_ne_outOfFuel _
  | requestBlock | requestChainStatus =>
    refine locked_ne_outOfFuel ?_
    exact Exec.bind_ne_outOfFuel (Exec.unwrap_ne_outOfFuel _ _) fun _ _ => Exec.ok_ne_outOfFuel _
  | _ => exact locked_ne_outOfFuel (Exec.ok_ne_outOfFuel _)

theorem nakamotoResume_ne_outOfFuel {H : Host} {poison : Poison} {shared : Shared} {pc : NakamotoPc} :
    nakamotoResume H poison shared pc ≠ some Exec.outOfFuel := by
  cases pc with
  | connecting => cases hjoined : poison.neighbors <;> simp [nakamotoResume, hjoined]
  | sending | serialized =>
    refine fun h => Exec.bind_ne_outOfFuel (unwrapResult_ne_outOfFuel _ _) (fun _ _ => ?_)
      (Option.some.inj h)
    exact Exec.ok_ne_outOfFuel _
  | _ => simp [nakamotoResume]

theorem walletHandle_ne_outOfFuel {H : Host} {rng : ℕ} {wallet : Option SigningWallet}
    {req : IPCMessageReqWallet} : walletHandle H rng wallet req ≠ Exec.outOfFuel := by
  cases req with
  | initializeWith =>
    exact Exec.bind_ne_outOfFuel (Exec.unwrap_ne_outOfFuel _ _) fun _ _ => Exec.ok_ne_outOfFuel _
  | quit => exact Exec.ok_ne_outOfFuel _
  | signRequest =>
    refine Exec.bind_ne_outOfFuel (Exec.unwrap_ne_outOfFuel _ _) fun _ _ => ?_
    refine Exec.bind_ne_outOfFuel (Exec.unwrap_ne_outOfFuel _ _) fun _ _ => ?_
    exact Exec.bind_ne_outOfFuel (Exec.unwrap_ne_outOfFuel _ _) fun _ _ => Exec.ok_ne_outOfFuel _
  | verifyRequest =>
    refine Exec.bind_ne_outOfFuel (Exec.unwrap_ne_outOfFuel _ _) fun signer _ => ?_
    refine Exec.bind_ne_outOfFuel (Exec.mapPanic_ne_outOfFuel ?_) fun _ _ => Exec.ok_ne_outOfFuel _
    refine Exec.bind_ne_outOfFuel (Exec.unwrap_ne_outOfFuel _ _) fun _ _ => ?_
    refine Exec.bind_ne_outOfFuel (Exec.unwrap_ne_outOfFuel _ _) fun _ _ => ?_
    exact Exec.bind_ne_outOfFuel (Exec.unwrap_ne_outOfFuel _ _) fun _ _ => Exec.ok_ne_outOfFuel _
  | getUserInfo =>
    refine Exec.bind_ne_outOfFuel (Exec.unwrap_ne_outOfFuel _ _) fun signer _ => ?_
    refine Exec.bind_ne_outOfFuel (Exec.mapPanic_ne_outOfFuel ?_) fun _ _ => Exec.ok_ne_outOfFuel _
    unfold Wallet.getUserId
    dsimp only
    split
    · exact Exec.ok_ne_outOfFuel _
    · exact Exec.panic_ne_outOfFuel _

namespace Site
variable {A : TextAreas} {L : Launch A} {s t : Site A} {a : SiteMove}

theorem moves_of_nakamoto (hpc : s.nakamoto.pc.over = false)
    (hconnected : ∀ neighbor rest, s.nakamoto.pc ≠ .connecting neighbor rest)
    (hin : s.nakamoto.pc = .reading → s.nakamotoIn ≠ []) : Moves L s := by
  have hresumes {x : Exec NakamotoMainPanic NakamotoPc} (hwork : s.nakamoto.pc.atWork = true)
      (hx : nakamotoResume L.host .clean Nakamoto.fresh.shared s.nakamoto.pc = some x) : Moves L s := by
    obtain ⟨pc, rfl⟩ | ⟨e, rfl⟩ | rfl := Exec.outcome_cases x
    · exact ⟨_, _, .resume hx, rfl⟩
    · exact ⟨_, _, .resumePanics hwork hx, rfl⟩
    · exact absurd hx nakamotoResume_ne_outOfFuel
  cases hnode : s.nakamoto.pc with
  | reading =>
    obtain ⟨req, rest, hcons⟩ := List.exists_cons_of_ne_nil (hin hnode)
    obtain ⟨pc, h⟩ | ⟨e, h⟩ | h := Exec.outcome_cases
      (nakamotoHandle L.host .clean [] Nakamoto.fresh.shared s.nakamoto.created req)
    · exact ⟨_, _, .nakamoto hnode hcons h, rfl⟩
    · exact ⟨_, _, .nakamotoPanics hnode hcons h, rfl⟩
    · exact absurd h nakamotoHandle_ne_outOfFuel
  | connecting neighbor rest => exact absurd hnode (hconnected neighbor rest)
  | sending | serialized => exact hresumes (by rw [hnode]; rfl) (by rw [hnode]; rfl)
  | printing => exact ⟨_, _, .print hnode, rfl⟩
  | exited | panicked =>
    rw [hnode] at hpc
    exact absurd hpc.symm Bool.false_ne_true

theorem moves_of_wallet (hpc : s.walletPc.over = false) (hin : s.walletIn ≠ []) : Moves L s := by
  have hreading : s.walletPc = .reading := by
    cases hwallet : s.walletPc with
    | reading => rfl
    | _ =>
      rw [hwallet] at hpc
      exact absurd hpc.symm Bool.false_ne_true
  obtain ⟨req, rest, hcons⟩ := List.exists_cons_of_ne_nil hin
  obtain ⟨⟨wallet, resp⟩, h⟩ | ⟨e, h⟩ | h := Exec.outcome_cases (walletHandle L.host 0 s.wallet req)
  · exact ⟨_, _, .wallet hreading hcons h, rfl⟩
  · exact ⟨_, _, .walletPanics hreading hcons h, rfl⟩
  · exact absurd h walletHandle_ne_outOfFuel

/-- The node waits for its neighbors; it goes on when one of them accepts. -/
def Connecting (L : Launch A) (s : Site A) : Prop :=
  ∃ neighbor rest, s.nakamoto.pc = .connecting neighbor rest ∧
    ∀ next ∈ neighbor :: rest, ∃ t, Step L s (.connect next) t

/-- `main` waits for the node to be created. -/
theorem moves_of_nakamotoOwes (howes : NakamotoOwes L s) (hout : s.nakamotoOut = [])
    (hpc : s.nakamoto.pc ≠ .exited) (hpanicked : ∀ e, s.nakamoto.pc ≠ .panicked e) :
    Moves L s ∨ Connecting L s := by
  by_cases hconn : ∃ neighbor rest, s.nakamoto.pc = .connecting neighbor rest
  · obtain ⟨neighbor, rest, hconn⟩ := hconn
    exact .inr ⟨neighbor, rest, hconn, fun next hnext => ⟨_, .connect hconn hnext⟩⟩
  have hlive : s.nakamoto.pc.over = false := by
    cases hnode : s.nakamoto.pc with
    | exited => exact absurd hnode hpc
    | panicked e => exact absurd hnode (hpanicked e)
    | _ => rfl
  refine .inl (moves_of_nakamoto hlive (fun neighbor rest h => hconn ⟨neighbor, rest, h⟩)
    fun hreading hnil => ?_)
  rcases howes with hmem | hprinting | hmem | ⟨e, he⟩ | hconn'
  · rw [hnil] at hmem
    exact absurd hmem List.not_mem_nil
  · exact absurd (hreading.symm.trans hprinting) nofun
  · rw [hout] at hmem
    exact absurd hmem List.not_mem_nil
  · exact absurd he (hpanicked e)
  · exact hconn hconn'

theorem moves_of_walletOwes {req : IPCMessageReqWallet} (howes : s.WalletOwes req)
    (hout : s.walletOut = []) (hpc : s.walletPc ≠ .exited) (hpanicked : ∀ e, s.walletPc ≠ .panicked e) :
    Moves L s := by
  have hlive : s.walletPc.over = false := by
    cases hwallet : s.walletPc with
    | exited => exact absurd hwallet hpc
    | panicked e => exact absurd hwallet (hpanicked e)
    | reading => rfl
  refine moves_of_wallet hlive fun hnil => ?_
  rcases howes with hmem | ⟨resp, hmem, -⟩ | ⟨e, he⟩
  · rw [hnil] at hmem
    exact absurd hmem List.not_mem_nil
  · rw [hout] at hmem
    exact absurd hmem List.not_mem_nil
  · exact absurd he (hpanicked e)

/-! ## Starting -/

/-- While `main` starts, it waits for nothing that does not come, but for the neighbors of the node. -/
theorem moves_of_starting (h : Phases L s) (hs : s.main.starting = true)
    (hwallet : ∀ e, s.walletPc ≠ .panicked e) (hnakamoto : ∀ e, s.nakamoto.pc ≠ .panicked e) :
    Moves L s ∨ Connecting L s := by
  obtain ⟨-, -, hnode⟩ := h.nakamotoRuns (.inl hs)
  obtain ⟨-, hexited⟩ := h.walletRuns (.inl hs)
  cases hm : s.main with
  | start => exact .inl ⟨_, _, .initNakamoto hm, rfl⟩
  | initWallet => exact .inl ⟨_, _, .initWallet hm, rfl⟩
  | askUser => exact .inl ⟨_, _, .askUser hm, rfl⟩
  | awaitNakamoto =>
    cases hout : s.nakamotoOut with
    | nil => exact moves_of_nakamotoOwes (h.awaitNakamoto hm) hout hnode hnakamoto
    | cons resp rest => exact .inl ⟨_, _, .awaitNakamoto hm hout, rfl⟩
  | awaitWallet =>
    cases hout : s.walletOut with
    | nil => exact .inl (moves_of_walletOwes (h.awaitWallet hm) hout hexited hwallet)
    | cons resp rest => exact .inl ⟨_, _, .awaitWallet hm hout, rfl⟩
  | awaitUser =>
    cases hout : s.walletOut with
    | nil => exact .inl (moves_of_walletOwes (h.awaitUser hm) hout hexited hwallet)
    | cons resp rest => exact .inl ⟨_, _, .awaitUser hm hout, rfl⟩
  | joining | quitWallet | waiting | finished | panicked =>
    rw [hm] at hs
    exact absurd hs Bool.false_ne_true

/-! ## Quitting -/

/-- The client has come to its end, with everything else, or by a panic of `main`, which unwraps what it
gets from the reader's thread and from its last two writes. -/
def Over (s : Site A) : Prop :=
  (s.main = .finished ∧ s.walletPc.over = true ∧ s.nakamoto.pc.over = true ∧ s.ui = .ended ∧
    s.publisher = .ended ∧ s.status = .ended ∧ s.reader = .ended) ∨
  s.main = .panicked ∧ (s.reader = .panicked ∨ (∃ e, s.walletPc = .panicked e) ∨
    ∃ e, s.nakamoto.pc = .panicked e)

section
variable (hs : s.main.spawned = true) (hquit : s.app.shouldQuit = true)
include hs hquit

theorem moves_of_publisher (hwallet : s.walletPc.over = true) : Moves L s ∨ s.publisher = .ended := by
  cases hp : s.publisher with
  | outer => exact .inl ⟨_, _, .publisherEnds hs (.inl hp) hquit, rfl⟩
  | inner => exact .inl ⟨_, _, .publisherEnds hs (.inr (.inl hp)) hquit, rfl⟩
  | holding resp => exact .inl ⟨_, _, .publisherEnds hs (.inr (.inr ⟨resp, hp⟩)) hquit, rfl⟩
  | publishing => exact .inl ⟨_, _, .publish hs hp, rfl⟩
  | reading =>
    cases hout : s.walletOut with
    | nil => exact .inl ⟨_, _, .publisherEof hs hp hout hwallet, rfl⟩
    | cons => exact .inl ⟨_, _, .publisherReads hs hp hout, rfl⟩
  | ended => exact .inr rfl

theorem moves_of_status : Moves L s ∨ s.status = .ended := by
  cases hstatus : s.status with
  | outer => exact .inl ⟨_, _, .statusEnds hs hstatus hquit, rfl⟩
  | writing rest =>
    cases rest with
    | nil => exact .inl ⟨_, _, .statusAgain hs hstatus, rfl⟩
    | cons => exact .inl ⟨_, _, .statusAsks hs hstatus, rfl⟩
  | ended => exact .inr rfl

theorem moves_of_reader (hnakamoto : s.nakamoto.pc.over = true) :
    Moves L s ∨ s.reader = .ended ∨ s.reader = .panicked := by
  cases hr : s.reader with
  | outer => exact .inl ⟨_, _, .readerEnds hs hr hquit, rfl⟩
  | inner => exact .inl ⟨_, _, .readerPanics hs hr hquit, rfl⟩
  | reading =>
    cases hout : s.nakamotoOut with
    | nil => exact .inl ⟨_, _, .readerEof hs hr hout hnakamoto, rfl⟩
    | cons => exact .inl ⟨_, _, .readerReads hs hr hout, rfl⟩
  | ended => exact .inr (.inl rfl)
  | panicked => exact .inr (.inr rfl)

/-- `main` joins the UI thread first, which ends by itself. -/
theorem moves_of_joining (hm : s.main = .joining) : Moves L s := by
  cases hui : s.ui with
  | drawing =>
    obtain ⟨app, hdraw⟩ := s.app.draw_ok
    exact ⟨_, _, .draw hs hui hdraw, rfl⟩
  | polling => exact ⟨_, _, .noKey hs hui, rfl⟩
  | handled => exact ⟨_, _, .endUi hs hui hquit, rfl⟩
  | ended =>
    cases hpc : s.nakamoto.pc.over with
    | false => exact ⟨_, _, .quitNakamoto hm hui hpc, rfl⟩
    | true => exact ⟨_, _, .quitNakamotoFails hm hui hpc, rfl⟩

/-- Then it waits for the processes, and for the other threads. -/
theorem moves_of_waiting (h : Phases L s) (hcreating : Creating L s) (hm : s.main = .waiting) :
    Moves L s := by
  have hclosing : s.main.closing = true := by rw [hm]; rfl
  cases hnode : s.nakamoto.pc.over with
  | false =>
    refine moves_of_nakamoto hnode (hcreating.connected (spawned_cases hs).2.2) fun hreading hnil => ?_
    rcases h.nakamoto hclosing with hmem | hprinting | hover
    · rw [hnil] at hmem
      exact absurd hmem List.not_mem_nil
    · exact absurd (hreading.symm.trans hprinting) nofun
    · exact absurd (hnode.symm.trans hover) Bool.false_ne_true
  | true =>
    cases hwallet : s.walletPc.over with
    | false =>
      refine moves_of_wallet hwallet fun hnil => ?_
      rcases h.wallet hm with hmem | hover
      · rw [hnil] at hmem
        exact absurd hmem List.not_mem_nil
      · exact absurd (hwallet.symm.trans hover) Bool.false_ne_true
    | true =>
      rcases moves_of_publisher hs hquit hwallet with hmoves | hp
      · exact hmoves
      rcases moves_of_status hs hquit with hmoves | hstatus
      · exact hmoves
      rcases moves_of_reader hs hquit hnode with hmoves | hr | hr
      · exact hmoves
      · exact ⟨_, _, .join hm hnode hwallet hp hstatus hr, rfl⟩
      · exact ⟨_, _, .joinPanics hm hnode hwallet hp hstatus hr, rfl⟩

end

theorem moves_or_over (h : Phases L s) (hcreating : Creating L s) (hquit : s.app.shouldQuit = true) : Moves L s ∨ s.Over := by
  have hstarting : ¬ s.main.starting = true := fun hs =>
    absurd ((h.app hs).symm.trans hquit) Bool.false_ne_true
  cases hm : s.main with
  | joining => exact .inl (moves_of_joining (by rw [hm]; rfl) hquit hm)
  | quitWallet =>
    cases hpc : s.walletPc.over with
    | false => exact .inl ⟨_, _, .quitWallet hm hpc, rfl⟩
    | true => exact .inl ⟨_, _, .quitWalletFails hm hpc, rfl⟩
  | waiting => exact .inl (moves_of_waiting (by rw [hm]; rfl) hquit h hcreating hm)
  | finished =>
    obtain ⟨hwallet, hnode, hp, hstatus, hr⟩ := h.finished hm
    exact .inr (.inl ⟨hm, hwallet, hnode, h.ui (by rw [hm]; rfl), hp, hstatus, hr⟩)
  | panicked => exact .inr (.inr ⟨hm, h.panicked hm⟩)
  | _ =>
    rw [hm] at hstarting
    exact absurd rfl hstarting

/-- Once the user has quit. -/
structure Quitting (L : Launch A) (s : Site A) : Prop where
  sound : Sound L s
  startup : Startup L s
  main : s.main.starting = false
  shouldQuit : s.app.shouldQuit = true

theorem Step.quitting (hstep : Step L s a t) (h : Quitting L s) : Quitting L t where
  sound := hstep.sound h.sound
  startup := hstep.startup h.sound h.startup
  main := by
    by_contra hstarting
    rw [Bool.not_eq_false] at hstarting
    exact absurd (h.main.symm.trans (hstep.starting hstarting)) Bool.false_ne_true
  shouldQuit := hstep.shouldQuit h.main h.shouldQuit

/-- Then no neighbor of the node is left to connect. -/
theorem Step.rank_of_quitting (hstep : Step L s a t) (h : Quitting L s) :
    t.rank + 1 ≤ s.rank + if a.outside then 3 else 0 := by
  have hrank := hstep.rank (.inr h.shouldQuit)
  cases hstep with
  | connect hpc | connectPanics hpc =>
    have hmain : s.main ≠ .start ∧ s.main ≠ .awaitNakamoto := by
      refine ⟨fun hm => ?_, fun hm => ?_⟩ <;> exact absurd h.main (by rw [hm]; nofun)
    exact absurd hpc (h.startup.nakamoto.connected hmain _ _)
  | _ => exact hrank

end Site

/-- In every run of a client with its two processes from the start: as long as the client starts, there
are at most 33 steps, and three more for each notification that the node prints, each neighbor that accepts
a connection of the node, and the panic of a thread that connects to one; and there is a next one unless one
of the processes has panicked, or the node is still connecting to neighbors, and goes on when any of these
accepts. -/
theorem startup_completes {A : TextAreas} {L : Launch A} {s : Site A} {moves : List SiteMove}
    (hrun : Run (Site.Step L) (Site.start A) moves s) (hstarting : s.main.starting = true) :
    moves.length ≤ 33 + 3 * moves.countP SiteMove.foreign ∧
    ((∀ e, s.walletPc ≠ .panicked e) → (∀ e, s.nakamoto.pc ≠ .panicked e) →
      (∃ a t, Site.Step L s a t ∧ a.foreign = false) ∨ ∃ neighbor rest,
        s.nakamoto.pc = .connecting neighbor rest ∧
        ∀ next ∈ neighbor :: rest, ∃ t, Site.Step L s (.connect next) t) := by
  have hguarded := hrun.guarded_of_last (P := fun s => s.main.starting = true)
    (fun _ _ _ hstep => hstep.starting) hstarting
  have hlength := hguarded.length_le Site.rank SiteMove.foreign 3
    fun _ _ _ hstep => hstep.1.rank (.inl hstep.2)
  have hrank : (Site.start A).rank = 33 := rfl
  rw [hrank] at hlength
  exact ⟨by omega, Site.moves_of_starting (Site.phases_of_run hrun) hstarting⟩

/-- `main` waits for the node, and the node for its neighbor; when that accepts, there is a next step. -/
theorem startup_completes_launch : ∃ moves s t, Run (Site.Step aliceLaunch) (Site.start lineAreas) moves s ∧
    s.main = .awaitNakamoto ∧ s.nakamoto.pc = .connecting neighborAddress [] ∧
    Site.Step aliceLaunch s (.connect neighborAddress) t ∧ t.main = .awaitNakamoto ∧
    ∃ a u, Site.Step aliceLaunch t a u ∧ a.foreign = false := by
  have hrun := Site.run_connecting Nakamoto.fresh.shared
  refine ⟨_, _, _, hrun, rfl, rfl, Site.connect_neighbor, rfl, ?_⟩
  have hnext := (startup_completes (hrun.snoc Site.connect_neighbor) rfl).2 nofun nofun
  refine hnext.resolve_right ?_
  rintro ⟨neighbor, rest, hconn, -⟩
  exact absurd hconn nofun

/-- In every run of a client with its two processes, once the user has quit: there are at most boundedly
many steps more, and three for each notification and each command of the bot; and there is a next one
until the client has come to its end, with its threads and both processes, or by a panic of `main`. That
follows only on a panic of a process, or of the thread that reads what the node prints. -/
theorem quit_completes {A : TextAreas} {L : Launch A} {s : Site A} {moves : List SiteMove}
    (hrun : Run (Site.Step L) (Site.start A) moves s) (hquit : s.app.shouldQuit = true) :
    (∃ n, ∀ moves' t, Run (Site.Step L) s moves' t →
      moves'.length ≤ n + 3 * moves'.countP SiteMove.outside) ∧
    ((∃ a t, Site.Step L s a t ∧ a.outside = false) ∨ s.Over) := by
  have hphases := Site.phases_of_run hrun
  obtain ⟨hsound, hstartup⟩ := Site.sound_of_run hrun
  have hmain : s.main.starting = false := by
    by_contra hstarting
    rw [Bool.not_eq_false] at hstarting
    exact absurd ((hphases.app hstarting).symm.trans hquit) Bool.false_ne_true
  refine ⟨⟨s.rank, fun moves' t hrun' => ?_⟩, ?_⟩
  · have hguarded := hrun'.guarded_of_first (P := Site.Quitting L)
      (fun _ _ _ h hstep => hstep.quitting h) ⟨hsound, hstartup, hmain, hquit⟩
    have hlength := hguarded.length_le Site.rank SiteMove.outside 3
      fun _ _ _ hstep => hstep.1.rank_of_quitting hstep.2
    omega
  · refine (Site.moves_or_over hphases hstartup.nakamoto hquit).imp ?_ id
    rintro ⟨a, t, hstep, hforeign⟩
    exact ⟨a, t, hstep, outside_of_foreign hforeign⟩

/-- Escape is the first key. -/
theorem quit_completes_launch : ∃ moves s, Run (Site.Step aliceLaunch) (Site.start lineAreas) moves s ∧
    (∃ n, ∀ moves' t, Run (Site.Step aliceLaunch) s moves' t →
      moves'.length ≤ n + 3 * moves'.countP SiteMove.outside) ∧
    ∃ a t, Site.Step aliceLaunch s a t ∧ a.outside = false := by
  obtain ⟨app, hdraw⟩ := Site.launched.app.draw_ok
  have hdrawn := (Site.run_launchMoves Nakamoto.fresh.shared).snoc (.draw rfl rfl hdraw)
  have hrun := hdrawn.snoc (@Site.Step.key _ _ _ .esc rfl rfl rfl rfl)
  obtain ⟨hlength, hmoves⟩ := quit_completes hrun rfl
  refine ⟨_, _, hrun, hlength, hmoves.resolve_right ?_⟩
  rintro (⟨hmain, -⟩ | ⟨hmain, -⟩) <;> exact absurd hmain nofun

end NakamotoNode.Client
