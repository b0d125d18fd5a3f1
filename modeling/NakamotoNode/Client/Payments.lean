import NakamotoNode.Client.Publishing

/-! # What a payment is checked against

The status thread asks for the balance of the user, the reading thread puts the answer into the app, and
the UI thread validates the lines whenever it draws. So a payment that is made at Enter was valid against
a balance that the node had read out of its finalized ledger, for the user of the wallet, and it is the
payment of the lines as they stand (`payments_covered`). -/

namespace NakamotoNode.Client
open Foundations Foundations.RustStd Chain Node
set_option autoImplicit false

/-- The node has answered a request for the balance of the user with this one. -/
def Reported (moves : List SiteMove) (userId : UserId) (balance : ℤ) : Prop :=
  ∃ shared, .nakamoto (.getAddressBalance userId) shared ∈ moves ∧
    balance = shared.chain.finalizedBalanceMap.balance userId

theorem Reported.mono {moves : List SiteMove} {userId : UserId} {balance : ℤ}
    (h : Reported moves userId balance) (a : SiteMove) : Reported (moves ++ [a]) userId balance := by
  obtain ⟨shared, hmem, hbalance⟩ := h
  exact ⟨shared, List.mem_append_left _ hmem, hbalance⟩

/-- A balance is the answer to one request only. -/
theorem Answers.balance {H : Host} {shared : Shared} {req : IPCMessageReqNakamoto} {userId : UserId}
    {balance : ℤ} (h : Answers H shared req (.printing (.addressBalance userId balance))) :
    req = .getAddressBalance userId ∧ balance = shared.chain.finalizedBalanceMap.balance userId := by
  rcases h.cases with ⟨_, _, _, neighbors, -, hpc⟩ | ⟨_, hpc⟩ | ⟨_, hpc⟩ | ⟨resp, hpc, -, -, hreads⟩
  · cases neighbors with
    | nil => exact absurd (NakamotoPc.printing.inj hpc) nofun
    | cons => exact absurd hpc nofun
  · exact absurd hpc nofun
  · exact absurd hpc nofun
  · exact hreads userId balance (NakamotoPc.printing.inj hpc).symm

namespace Site
variable {A : TextAreas} {L : Launch A} {s t : Site A} {a : SiteMove} {moves : List SiteMove}

structure Balanced (moves : List SiteMove) (s : Site A) : Prop where
  printing : ∀ userId balance, s.nakamoto.pc = .printing (.addressBalance userId balance) →
    Reported moves userId balance
  nakamotoOut : ∀ userId balance, .addressBalance userId balance ∈ s.nakamotoOut →
    Reported moves userId balance
  app : s.app.userBalance = -1 ∨ Reported moves s.app.userId s.app.userBalance
  drawn : s.ui = .polling → s.app.Drawn (Reported moves s.app.userId)

theorem balanced_start : Balanced [] (start A) where
  printing := nofun
  nakamotoOut := nofun
  app := .inl rfl
  drawn := nofun

theorem Balanced.mono (h : Balanced moves s) (a : SiteMove) : Balanced (moves ++ [a]) s where
  printing := fun userId balance hpc => (h.printing userId balance hpc).mono a
  nakamotoOut := fun userId balance hmem => (h.nakamotoOut userId balance hmem).mono a
  app := h.app.imp id fun hreported => hreported.mono a
  drawn := fun hui => (h.drawn hui).mono fun _ hreported => hreported.mono a

/-- A balance that is read leaves the lines as they were validated. -/
theorem drawn_onResp {app : App A} {P : ℤ → Prop} (h : app.Drawn P) (resp : IPCMessageRespNakamoto) :
    (onResp app resp).Drawn P := by
  cases resp with
  | addressBalance =>
    unfold onResp App.setBalance
    dsimp only
    split <;> exact h
  | _ => exact h

theorem Step.balanced (hstep : Step L s a t) (hold : Balanced moves s) :
    Balanced (moves ++ [a]) t := by
  have h := hold.mono a
  cases hstep with
  | awaitNakamoto _ hout =>
    exact { h with nakamotoOut := fun u b hmem => h.nakamotoOut u b (hout ▸ List.mem_cons_of_mem _ hmem) }
  | @awaitUser resp =>
    split
    · refine { h with app := .inl ?_, drawn := fun _ hvalid => ?_ }
      · cases resp <;> rfl
      · cases resp <;> exact absurd hvalid Bool.false_ne_true
    · exact { h with }
  | draw _ _ hdraw =>
    obtain ⟨hbalance, -, huserId⟩ := App.draw_frame hdraw
    refine { h with app := ?_, drawn := fun _ => ?_ }
    · rw [hbalance, huserId]
      exact h.app
    · rw [huserId]
      exact App.drawn_of_draw hdraw h.app
  | noKey => exact { h with drawn := nofun }
  | key | save | pay =>
    obtain ⟨hbalance, huserId, -⟩ := App.onKey_frame _
    refine { h with app := ?_, drawn := nofun }
    dsimp only
    rw [hbalance, huserId]
    exact h.app
  | redraw => exact { h with drawn := nofun }
  | endUi => exact { h with drawn := nofun }
  | @readerReads resp _ _ _ hout =>
    obtain ⟨huserId, -⟩ := onResp_frame s.app resp
    refine { h with nakamotoOut := fun u b hmem => ?_, app := ?_, drawn := fun hui => ?_ }
    · exact h.nakamotoOut u b (hout ▸ List.mem_cons_of_mem _ hmem)
    · cases resp with
      | addressBalance userId balance =>
        unfold onResp App.setBalance
        dsimp only
        split
        · next huser => exact .inr (h.nakamotoOut _ _ (by rw [hout, ← huser]; exact List.mem_cons_self))
        · exact h.app
      | _ => exact h.app
    · rw [huserId]
      exact drawn_onResp (h.drawn hui) resp
  | @nakamoto _ _ shared req _ pc _ _ hhandle =>
    refine { h with printing := fun userId balance hpc => ?_ }
    obtain rfl : pc = _ := hpc
    obtain ⟨rfl, rfl⟩ := (answers_of_handle hhandle).balance
    exact ⟨shared, by simp, rfl⟩
  | nakamotoPanics => exact { h with printing := nofun }
  | @connect neighbor next rest =>
    refine { h with printing := fun userId balance hpc => ?_ }
    rw [NakamotoMain.goTo_pc] at hpc
    rcases NakamotoPc.create_cases ((next :: rest).erase neighbor) with hcreate | ⟨_, _, hcreate⟩
    · exact absurd (NakamotoPc.printing.inj (hcreate.symm.trans hpc)) nofun
    · exact absurd (hcreate.symm.trans hpc) nofun
  | resume hresume =>
    refine { h with printing := fun userId balance hpc => ?_ }
    rw [NakamotoMain.goTo_pc] at hpc
    rcases resumed_of_ok hresume with hdone | ⟨_, _, hdone⟩ <;>
      exact absurd (NakamotoPc.printing.inj (hdone.symm.trans hpc)) nofun
  | connectPanics | resumePanics => exact { h with printing := nofun }
  | @print resp hpc =>
    refine { h with printing := fun u b hprinting => ?_, nakamotoOut := fun u b hmem => ?_ }
    · dsimp only at hprinting
      split at hprinting <;> exact absurd hprinting nofun
    · rcases List.mem_append.mp hmem with hmem | hmem
      · exact h.nakamotoOut u b hmem
      · rw [List.mem_singleton] at hmem
        exact h.printing u b (hmem ▸ hpc)
  | notify =>
    refine { h with nakamotoOut := fun u b hmem => ?_ }
    rcases List.mem_append.mp hmem with hmem | hmem
    · exact h.nakamotoOut u b hmem
    · exact absurd (List.mem_singleton.mp hmem) nofun
  | _ => exact { h with }

section
variable {sender receiver : UserId} {message : String} {millis : ℕ}

theorem covered_of_pay (hrun : Run (Step L) (start A) moves s)
    (hmem : .pay sender receiver message millis ∈ moves) : ∃ userId balance, L.IsUser userId ∧
      Reported moves userId balance ∧ App.Valid sender receiver message balance := by
  obtain ⟨before, u, v, hprefix, hbefore, hstep⟩ := hrun.step_of_mem hmem
  obtain ⟨-, hstartup⟩ := sound_of_run hbefore
  have hbalanced := hbefore.invariant_labels (I := Balanced)
    (fun _ _ _ _ h hstep => hstep.balanced h) balanced_start
  cases hstep with
  | pay hspawned hui hpayment =>
    obtain ⟨balance, ⟨shared, hshared, hbalance⟩, hvalid⟩ := (hbalanced.drawn hui).payment hpayment
    refine ⟨u.app.userId, balance, hstartup.user hspawned, ⟨shared, ?_, hbalance⟩, hvalid⟩
    exact hprefix.subset (List.mem_append_left _ hshared)

theorem user_of_botSend (hrun : Run (Step L) (start A) moves s)
    (hmem : .botSend sender receiver message millis ∈ moves) : L.IsUser sender := by
  obtain ⟨before, u, v, -, hbefore, hstep⟩ := hrun.step_of_mem hmem
  obtain ⟨-, hstartup⟩ := sound_of_run hbefore
  cases hstep with
  | botSend hspawned => exact hstartup.user hspawned

end
end Site

/-- In every run of a client with its wallet and its node, from the start: a payment of the UI thread has
two ids of the right length and a message that was valid against the balance of the user of the wallet, as
the node had reported it before out of its finalized ledger; and a payment of the bot thread has that user
as its sender. -/
theorem payments_covered {A : TextAreas} {L : Launch A} {s : Site A} {moves : List SiteMove}
    (hrun : Run (Site.Step L) (Site.start A) moves s) {sender receiver : UserId} {message : String}
    {millis : ℕ} :
    (.pay sender receiver message millis ∈ moves → ∃ userId balance, L.IsUser userId ∧
      Reported moves userId balance ∧ App.Valid sender receiver message balance) ∧
    (.botSend sender receiver message millis ∈ moves → L.IsUser sender) :=
  ⟨Site.covered_of_pay hrun, Site.user_of_botSend hrun⟩

/-- Alice pays out of her balance. -/
theorem payments_covered_payment : ∃ moves userId balance,
    .pay alice bob aliceMessage 1678250102871 ∈ moves ∧ aliceLaunch.IsUser userId ∧
      Reported moves userId balance ∧ App.Valid alice bob aliceMessage balance := by
  obtain ⟨typing, app, hrun, -, -⟩ := Site.run_payment Nakamoto.fresh.shared rfl
  have hmem : SiteMove.pay alice bob aliceMessage 1678250102871 ∈
      Site.launchMoves Nakamoto.fresh.shared ++ (Site.balanceMoves Nakamoto.fresh.shared ++
        (typing ++ Site.payMoves)) := by simp [Site.payMoves]
  obtain ⟨userId, balance, huser, hreported, hvalid⟩ := (payments_covered hrun).1 hmem
  exact ⟨_, userId, balance, hmem, huser, hreported, hvalid⟩

end NakamotoNode.Client
