import NakamotoNode.Client.Amounts

/-! # The user interface

`App` of `bin_client/src/app.rs`, and what the loop of the UI thread of `bin_client/src/main.rs` does with
a key. The inputs are validated whenever the loop draws, against the balance of that moment, and a payment
is made of them at the next Enter (`onKey`). What is drawn besides, styles and the text areas themselves
are left out; of a text area the client reads the first line. -/

namespace NakamotoNode.Client
open Foundations Foundations.RustStd Chain
set_option autoImplicit false

/-- The crate `tui_textarea`. -/
structure TextAreas where
  TextArea : Type
  Input : Type
  /-- `TextArea::new(vec![line])` -/
  new : String → TextArea
  /-- `lines()[0]` -/
  line : TextArea → String
  input : TextArea → Input → TextArea

/-- The text areas, in their order. -/
inductive Area where
  | sender
  | receiver
  | message
  deriving DecidableEq, Repr

namespace Area

/-- `(idx + 3 - 1) % 3` -/
def above : Area → Area
  | sender => message
  | receiver => sender
  | message => receiver

/-- `(idx + 3 + 1) % 3` -/
def below : Area → Area
  | sender => receiver
  | receiver => message
  | message => sender

end Area

/-- `App`, less the maps of status items. -/
structure App (A : TextAreas) where
  friendlyUserName : String
  areInputsValid : Bool
  userId : UserId
  userBalance : ℤ
  shouldQuit : Bool
  notifyLog : List String
  stderrLog : List String
  textareas : Area → A.TextArea
  textareaChoosingIdx : Area

/-- A key as the loop tells them apart. -/
inductive Key (A : TextAreas) where
  | esc
  | down
  | up
  | enter
  /-- control + s -/
  | save
  | other (input : A.Input)

/-- `validate_id_textarea`, of the line. -/
def validateId (line : String) : Bool := decide (line.utf8ByteSize = 80)

namespace App
variable {A : TextAreas}

def new (userName : String) (defaultSender defaultReceiver : UserId) (defaultMessage : String) :
    App A where
  friendlyUserName := userName
  areInputsValid := false
  userId := defaultSender
  userBalance := -1
  shouldQuit := false
  notifyLog := []
  stderrLog := []
  textareas
    | .sender => A.new defaultSender
    | .receiver => A.new defaultReceiver
    | .message => A.new defaultMessage
  textareaChoosingIdx := .receiver

def sender (app : App A) : UserId := A.line (app.textareas .sender)

def receiver (app : App A) : UserId := A.line (app.textareas .receiver)

def message (app : App A) : String := A.line (app.textareas .message)

def clientLog (app : App A) (log : String) : App A :=
  { app with
    stderrLog := app.stderrLog ++ ["[Client(" ++ app.friendlyUserName ++ ")] " ++ log] }

/-- What `on_enter` logs; it returns the three lines. -/
def onEnter (app : App A) : App A :=
  { app with
    stderrLog := app.stderrLog ++
      ["[Client] ENTER pressed.  Sender: " ++ app.sender ++ "  Receiver: " ++ app.receiver ++
        "  Message: " ++ app.message] }

def onUp (app : App A) : App A :=
  { app with textareaChoosingIdx := app.textareaChoosingIdx.above }

def onDown (app : App A) : App A :=
  { app with textareaChoosingIdx := app.textareaChoosingIdx.below }

def onQuit (app : App A) : App A := { app with shouldQuit := true }

def onTextareaInput (app : App A) (input : A.Input) : App A :=
  { app with
    textareas := Function.update app.textareas app.textareaChoosingIdx
      (A.input (app.textareas app.textareaChoosingIdx) input) }

/-- `draw`, as far as it changes the app. -/
def draw (app : App A) : Exec ValidatePanic (App A) :=
  let isSenderValid := validateId app.sender
  let isReceiverValid := validateId app.receiver
  validateMessage app.message app.userBalance >>= fun isMessageValid =>
  .ok { app with areInputsValid := isSenderValid && isReceiverValid && isMessageValid }

/-- A balance that the node reports. -/
def setBalance (app : App A) (userId : UserId) (balance : ℤ) : App A :=
  if userId = app.userId then { app with userBalance := balance } else app

/-- The payment of a key: the three lines at Enter, if they were valid when last drawn. -/
def payment (app : App A) : Key A → Option (UserId × UserId × String)
  | .enter => if app.areInputsValid then some (app.sender, app.receiver, app.message) else none
  | _ => none

/-- The app after a key. -/
def onKey (app : App A) : Key A → App A
  | .esc => app.onQuit
  | .down => app.onDown
  | .up => app.onUp
  | .enter =>
      if app.areInputsValid then app.onEnter
      else app.clientLog "Invalid inputs! Cannot create Tx."
  | .save => app
  | .other input => app.onTextareaInput input

/-! ## What a payment was drawn from -/

/-- The lines are valid against a balance. -/
def Valid (sender receiver : UserId) (message : String) (balance : ℤ) : Prop :=
  validateId sender = true ∧ validateId receiver = true ∧
    validateMessage message balance = .ok true

/-- The inputs, if they count as valid, are valid against a balance that has `P`. -/
def Drawn (app : App A) (P : ℤ → Prop) : Prop :=
  app.areInputsValid = true → ∃ balance, P balance ∧
    Valid app.sender app.receiver app.message balance

variable {app app' : App A}

/-- `validate_message_textarea` has what it indexes. -/
theorem validateMessage_ok (message : String) (balance : ℤ) :
    ∃ isValid, validateMessage message balance = .ok isValid := by
  unfold validateMessage
  split
  · exact ⟨false, rfl⟩
  · next hsend =>
    rw [clientAmount, amountStr_eq (by simpa using hsend), Exec.ok_bind, Exec.ok_bind]
    split
    · exact ⟨false, rfl⟩
    · exact ⟨_, rfl⟩

theorem draw_ok (app : App A) : ∃ app', app.draw = .ok app' := by
  obtain ⟨isValid, h⟩ := validateMessage_ok app.message app.userBalance
  exact ⟨_, by rw [draw, h]; rfl⟩

/-- No message is valid before the node has reported a balance. -/
theorem not_valid_new {sender receiver : UserId} {message : String} :
    ¬ Valid sender receiver message (-1) := by
  rintro ⟨-, -, hmessage⟩
  obtain ⟨-, amount, -, hpos, hle⟩ := validateMessage_eq_true hmessage
  omega

theorem drawn_of_draw {P : ℤ → Prop} (h : app.draw = .ok app')
    (hbalance : app.userBalance = -1 ∨ P app.userBalance) : app'.Drawn P := by
  obtain ⟨isMessageValid, hmessage, h⟩ := Exec.bind_eq_ok.mp h
  obtain rfl := Except.ok.inj h
  intro hvalid
  simp only [Bool.and_eq_true] at hvalid
  obtain ⟨⟨hsender, hreceiver⟩, rfl⟩ := hvalid
  rcases hbalance with hnew | hP
  · rw [hnew] at hmessage
    exact absurd ⟨hsender, hreceiver, hmessage⟩ not_valid_new
  · exact ⟨app.userBalance, hP, hsender, hreceiver, hmessage⟩

theorem draw_valid (h : Valid app.sender app.receiver app.message app.userBalance) :
    app.draw = .ok { app with areInputsValid := true } := by
  obtain ⟨hsender, hreceiver, hmessage⟩ := h
  rw [draw, hmessage, hsender, hreceiver]
  rfl

theorem draw_cases (h : app.draw = .ok app') :
    ∃ areInputsValid, app' = { app with areInputsValid := areInputsValid } := by
  obtain ⟨isMessageValid, -, h⟩ := Exec.bind_eq_ok.mp h
  exact ⟨_, (Except.ok.inj h).symm⟩

theorem draw_frame (h : app.draw = .ok app') : app'.userBalance = app.userBalance ∧
    app'.shouldQuit = app.shouldQuit ∧ app'.userId = app.userId := by
  obtain ⟨areInputsValid, rfl⟩ := draw_cases h
  exact ⟨rfl, rfl, rfl⟩

theorem onKey_frame (key : Key A) : (app.onKey key).userBalance = app.userBalance ∧
    (app.onKey key).userId = app.userId ∧
    (app.shouldQuit = true → (app.onKey key).shouldQuit = true) := by
  cases key with
  | esc => exact ⟨rfl, rfl, fun _ => rfl⟩
  | enter =>
    unfold onKey
    dsimp only
    split <;> exact ⟨rfl, rfl, id⟩
  | _ => exact ⟨rfl, rfl, id⟩

theorem Drawn.mono {P Q : ℤ → Prop} (hPQ : ∀ balance, P balance → Q balance) (h : app.Drawn P) :
    app.Drawn Q := by
  intro hvalid
  obtain ⟨balance, hP, hlines⟩ := h hvalid
  exact ⟨balance, hPQ balance hP, hlines⟩

theorem Drawn.payment {P : ℤ → Prop} (h : app.Drawn P) {key : Key A} {sender receiver : UserId}
    {message : String} (hpayment : app.payment key = some (sender, receiver, message)) :
    ∃ balance, P balance ∧ Valid sender receiver message balance := by
  cases key with
  | enter =>
    simp only [App.payment, Option.ite_none_right_eq_some, Option.some.injEq, Prod.mk.injEq] at hpayment
    obtain ⟨hvalid, rfl, rfl, rfl⟩ := hpayment
    exact h hvalid
  | _ => exact absurd hpayment (by simp [App.payment])

end App
end NakamotoNode.Client
