import NakamotoNode.Chain.Messages
import NakamotoNode.Client.Signing

/-! # The amount of a message

The client and the chain take the amount out of a message in two ways: `validate_message_textarea` of
`bin_client/src/app.rs` between the first `$` and the next `$` or blank, the chain from the second word
less its leading `$`s. On what the client accepts they agree where the rest of the word has no `$`; else
the chain cannot parse it and panics (`amounts_agree_iff`). -/

namespace NakamotoNode.Client
open Foundations Foundations.RustStd Chain
set_option autoImplicit false

/-- An index past the end in `validate_message_textarea`. -/
inductive ValidatePanic where
  | index
  deriving DecidableEq, Repr

/-- `line.split("$")...[1].split(" ")...[0]` -/
def amountStr (line : String) : Exec ValidatePanic String :=
  Exec.unwrap .index (split '$' line)[1]? >>= fun piece =>
  Exec.unwrap .index (split ' ' piece)[0]?

/-- The amount that the client reads. -/
def clientAmount (line : String) : Exec ValidatePanic (Option ℤ) :=
  amountStr line >>= fun amountStr => .ok (parseI64 amountStr)

/-- `validate_message_textarea`, of the first line of the text area. -/
def validateMessage (line : String) (userBalance : ℤ) : Exec ValidatePanic Bool :=
  if !startsWith line "SEND $" then .ok false
  else
    clientAmount line >>= fun amount =>
    match amount with
    | none => .ok false
    | some amount => .ok (!decide (amount ≤ 0) && !decide (amount > userBalance))

/-- What follows `SEND $` in the second word. -/
def amountWord (line : String) : List Char := (line.toList.drop 6).takeWhile fun c => c ≠ ' '

/-! ## Integers -/

theorem chars_of_parseI64 {s : String} {v : ℤ} (h : parseI64 s = some v) :
    s.toList ≠ [] ∧ '$' ∉ s.toList := by
  obtain ⟨sign, digits, rfl, hdigits, -, -⟩ := parseI64_eq_some.mp h
  refine ⟨fun hnil => ?_, dollar_notMem sign hdigits⟩
  rw [String.toList_append, List.append_eq_nil_iff] at hnil
  exact hdigits.1 (String.toList_inj.mp hnil.2)

/-! ## The two ways -/

variable {line : String} {rest : List Char} {userBalance : ℤ} {millis : ℕ}

theorem split_second {sep : Char} {s : String} {l m : List Char} (h : sep ∉ l)
    (hs : s.toList = l ++ sep :: m) :
    (split sep s)[1]? = some (String.ofList (m.takeWhile fun c => c ≠ sep)) := by
  rw [split, List.getElem?_map, hs, splitOn_second h]
  rfl

theorem startsWith_send (h : startsWith line "SEND $" = true) :
    line.toList = "SEND ".toList ++ '$' :: line.toList.drop 6 := by
  obtain ⟨rest, hrest⟩ := List.isPrefixOf_iff_prefix.mp h
  rw [← hrest]
  rfl

/-- The client reads the word up to its first `$`. -/
theorem amountStr_eq (h : startsWith line "SEND $" = true) :
    amountStr line = .ok (String.ofList ((amountWord line).takeWhile fun c => c ≠ '$')) := by
  have hpiece : (split '$' line)[1]? = _ := split_second (by decide) (startsWith_send h)
  rw [amountStr, hpiece, Exec.unwrap_some, Exec.ok_bind, split_first, String.toList_ofList,
    List.takeWhile_takeWhile, amountWord, List.takeWhile_takeWhile]
  simp only [and_comm]
  rfl

/-- The chain reads the word less its leading `$`s. -/
theorem extractAmount_eq (h : startsWith line "SEND $" = true) :
    extractAmount (timestamped line millis) = Exec.unwrap .amountParse
      (parseI64 (String.ofList ((amountWord line).dropWhile fun c => c = '$'))) := by
  have hline : (timestamped line millis).toList = "SEND".toList ++
      ' ' :: ('$' :: (line.toList.drop 6 ++ ' ' :: ("  // " ++ debugNat millis).toList)) := by
    rw [timestamped, String.toList_append, String.toList_append, startsWith_send h]
    simp
  rw [extractAmount, split_second (by decide) hline, Exec.unwrap_some, Exec.ok_bind]
  unfold trimStartMatches
  rw [String.toList_ofList, List.takeWhile_cons_of_pos (by decide),
    List.dropWhile_cons_of_pos (by decide), takeWhile_append_cons (by simp)]
  rfl

theorem validateMessage_eq_true (h : validateMessage line userBalance = .ok true) :
    startsWith line "SEND $" = true ∧
      ∃ amount, clientAmount line = .ok (some amount) ∧ 0 < amount ∧ amount ≤ userBalance := by
  unfold validateMessage at h
  split at h
  · exact absurd (Except.ok.inj h) (by simp)
  · next hsend =>
    obtain ⟨amount, hamount, h⟩ := Exec.bind_eq_ok.mp h
    cases amount with
    | none => exact absurd (Except.ok.inj h) (by simp)
    | some amount =>
      have hrange := Except.ok.inj h
      simp only [Bool.and_eq_true, Bool.not_eq_true', decide_eq_false_iff_not, not_le,
        not_lt] at hrange
      exact ⟨by simpa using hsend, amount, hamount, hrange⟩

/-- Where the client reads an amount, it is that of the word up to a `$`, which the word does not
start with. -/
theorem amountWord_of_client (hsend : startsWith line "SEND $" = true) {amount : ℤ}
    (h : clientAmount line = .ok (some amount)) :
    parseI64 (String.ofList ((amountWord line).takeWhile fun c => c ≠ '$')) = some amount ∧
      ((amountWord line).dropWhile fun c => c = '$') = amountWord line := by
  rw [clientAmount, amountStr_eq hsend, Exec.ok_bind] at h
  have hparse := Except.ok.inj h
  refine ⟨hparse, ?_⟩
  have hne := (chars_of_parseI64 hparse).1
  rw [String.toList_ofList] at hne
  cases hword : amountWord line with
  | nil => rfl
  | cons c word =>
    apply List.dropWhile_cons_of_neg
    intro hc
    rw [decide_eq_true_iff] at hc
    rw [hword, hc] at hne
    exact hne rfl

/-- For every message and balance that the client accepts and every time: the chain takes out of the
timestamped message the positive amount that the client has read exactly when there is no `$` in what
follows `SEND $` up to the next blank. -/
theorem amounts_agree_iff (h : validateMessage line userBalance = .ok true) (millis : ℕ) :
    (∃ amount, clientAmount line = .ok (some amount) ∧ 0 < amount ∧
      extractAmount (timestamped line millis) = .ok amount) ↔ '$' ∉ amountWord line := by
  obtain ⟨hsend, amount, hamount, hpos, -⟩ := validateMessage_eq_true h
  obtain ⟨hparse, htrim⟩ := amountWord_of_client hsend hamount
  rw [extractAmount_eq hsend, htrim]
  constructor
  · rintro ⟨_, -, -, hextract⟩
    have hword := (chars_of_parseI64 (Exec.unwrap_eq_ok.mp hextract)).2
    rw [String.toList_ofList] at hword
    exact hword
  · intro hword
    have hall : ((amountWord line).takeWhile fun c => c ≠ '$') = amountWord line :=
      List.takeWhile_eq_self_iff.mpr fun c hc => decide_eq_true (ne_of_mem_of_not_mem hc hword)
    rw [hall] at hparse
    exact ⟨amount, hamount, hpos, Exec.unwrap_eq_ok.mpr hparse⟩

theorem amounts_agree_example :
    ∃ amount, clientAmount "SEND $300   // By Alice" = .ok (some amount) ∧ 0 < amount ∧
      extractAmount (timestamped "SEND $300   // By Alice" 1678173972743) = .ok amount :=
  (amounts_agree_iff (show validateMessage _ 1000 = .ok true by decide) _).mpr (by decide)

/-- The client accepts the message as one of $300, and the chain panics at the amount `300$5`. -/
theorem accepted_message_panics : validateMessage "SEND $300$5" 1000 = .ok true ∧
    clientAmount "SEND $300$5" = .ok (some 300) ∧
    extractAmount (timestamped "SEND $300$5" 1678173972743) = Exec.panic .amountParse := by
  refine ⟨by decide, by decide, ?_⟩
  rw [extractAmount_eq (by decide)]
  decide

end NakamotoNode.Client
