import NakamotoNode.Chain.Block
import NakamotoNode.Foundations.Numerals
import NakamotoNode.Foundations.Splitting

/-! # Messages that move money

The format of a message is `SEND $300   // By Alice`: `SEND $`, an amount, and a comment after a blank. The
chain takes the amount out of the second word, whatever the first is, with any number of `$`s and with a
sign (`extractAmount_eq_ok_iff`). So other texts move money too, in both directions (`Sends`,
`extract_amount_iff`). -/

namespace NakamotoNode.Chain
open Foundations Foundations.RustStd
set_option autoImplicit false

/-- Nothing, or a comment after a blank. -/
def Comment (tail : String) : Prop := tail = "" ∨ ∃ comment, tail = " " ++ comment

/-- `SEND $`, the amount in digits, and a comment or none. The amount is positive and in the range. -/
def Sends (message : String) (amount : ℤ) : Prop :=
  ∃ digits tail, Decimal digits ∧ Comment tail ∧ message = "SEND $" ++ digits ++ tail ∧
    amount = decimalValue digits ∧ 0 < amount ∧ InI64 amount

/-- The `$`s, the sign and the digits of an amount. -/
def amountText (dollars : ℕ) (sign : Sign) (digits : String) : String :=
  String.ofList (List.replicate dollars '$') ++ (sign.text ++ digits)

/-- The second word of the message is `$`s and a number in the range, with a sign or none. -/
structure Names (message first : String) (dollars : ℕ) (sign : Sign) (digits : String) : Prop where
  oneWord : ' ' ∉ first.toList
  decimal : Decimal digits
  inRange : InI64 (sign.value (decimalValue digits))
  text : ∃ tail, Comment tail ∧ message = first ++ " " ++ amountText dollars sign digits ++ tail

variable {message first first' word word' tail digits digits' : String} {dollars dollars' : ℕ}
  {sign sign' : Sign} {amount : ℤ}

/-! ## Words -/

theorem comment_iff : Comment tail ↔ EndsAt ' ' tail.toList := by
  constructor
  · rintro (rfl | ⟨comment, rfl⟩)
    · exact .inl rfl
    · exact .inr ⟨comment.toList, by simp⟩
  · rintro (hnil | ⟨more, hmore⟩)
    · exact .inl (String.toList_inj.mp hnil)
    · exact .inr ⟨String.ofList more, String.toList_inj.mp (by simp [hmore])⟩

theorem split_first (sep : Char) (s : String) :
    (split sep s)[0]? = some (String.ofList (s.toList.takeWhile fun c => c ≠ sep)) := by
  rw [split, List.getElem?_map, splitOn_takeWhile]
  rfl

theorem split_first_eq (hfirst : ' ' ∉ first.toList) (rest : String) :
    (split ' ' (first ++ " " ++ rest))[0]? = some first := by
  have htake : (first ++ " " ++ rest).toList.takeWhile (fun c => c ≠ ' ') = first.toList :=
    takeWhile_ne_eq_iff.mpr ⟨hfirst, ' ' :: rest.toList, .inr ⟨_, rfl⟩, by simp⟩
  rw [split_first, htake, String.ofList_toList]

theorem split_second_eq_some : (split ' ' message)[1]? = some word ↔
    ∃ first tail, ' ' ∉ first.toList ∧ ' ' ∉ word.toList ∧ Comment tail ∧
      message = first ++ " " ++ word ++ tail := by
  rw [split, List.getElem?_map, Option.map_eq_some_iff]
  constructor
  · rintro ⟨piece, hpiece, rfl⟩
    obtain ⟨first, tail, hfirst, hword, htail, heq⟩ := splitOn_second_eq_some.mp hpiece
    refine ⟨String.ofList first, String.ofList tail, by rwa [String.toList_ofList],
      by rwa [String.toList_ofList], comment_iff.mpr (by rwa [String.toList_ofList]),
      String.toList_inj.mp ?_⟩
    simp [heq]
  · rintro ⟨first, tail, hfirst, hword, htail, rfl⟩
    refine ⟨word.toList, splitOn_second_eq_some.mpr ⟨first.toList, tail.toList, hfirst, hword,
      comment_iff.mp htail, ?_⟩, String.ofList_toList⟩
    simp

/-- What comes after the second word does not count. -/
theorem extractAmount_word (hfirst : ' ' ∉ first.toList) (hword : ' ' ∉ word.toList)
    (htail : Comment tail) : extractAmount (first ++ " " ++ word ++ tail) =
      Exec.unwrap .amountParse (parseI64 (trimStartMatches '$' word)) := by
  rw [extractAmount, split_second_eq_some.mpr ⟨first, tail, hfirst, hword, htail, rfl⟩,
    Exec.unwrap_some, Exec.ok_bind]

/-! ## Amounts -/

theorem dollar_notMem (sign : Sign) (h : Decimal digits) : '$' ∉ (sign.text ++ digits).toList := by
  intro hmem
  rcases number_chars sign h hmem with he | he | he <;> exact absurd he (by decide)

theorem blank_notMem (dollars : ℕ) (sign : Sign) (h : Decimal digits) :
    ' ' ∉ (amountText dollars sign digits).toList := by
  rw [amountText, String.toList_append, String.toList_ofList, List.mem_append]
  rintro (hmem | hmem)
  · exact absurd (List.eq_of_mem_replicate hmem) (by decide)
  · rcases number_chars sign h hmem with he | he | he <;> exact absurd he (by decide)

theorem trimStartMatches_amountText (dollars : ℕ) (sign : Sign) (h : Decimal digits) :
    trimStartMatches '$' (amountText dollars sign digits) = sign.text ++ digits := by
  have hnumber : (sign.text ++ digits).toList.dropWhile (fun c => c = '$') =
      (sign.text ++ digits).toList := by
    rw [List.dropWhile_eq_self_iff]
    intro hlen hdollar
    rw [decide_eq_true_iff] at hdollar
    exact dollar_notMem sign h (hdollar ▸ List.getElem_mem hlen)
  rw [trimStartMatches, amountText, String.toList_append, String.toList_ofList,
    List.dropWhile_append_of_pos fun c hc => decide_eq_true (List.eq_of_mem_replicate hc), hnumber,
    String.ofList_toList]

theorem eq_amountText (h : trimStartMatches '$' word = sign.text ++ digits) :
    ∃ dollars, word = amountText dollars sign digits := by
  refine ⟨(word.toList.takeWhile fun c => c = '$').length, String.toList_inj.mp ?_⟩
  have hdollars : word.toList.takeWhile (fun c => c = '$') = List.replicate _ '$' :=
    List.eq_replicate_of_mem fun c hc => by simpa using List.mem_takeWhile_imp hc
  rw [amountText, ← h, String.toList_append, String.toList_ofList, ← hdollars, trimStartMatches,
    String.toList_ofList, List.takeWhile_append_dropWhile]

/-- The chain takes an amount out of a message just when its second word is `$`s and a number. -/
theorem extractAmount_eq_ok_iff : extractAmount message = .ok amount ↔
    ∃ first dollars sign digits, Names message first dollars sign digits ∧
      amount = sign.value (decimalValue digits) := by
  constructor
  · intro h
    obtain ⟨word, hword, hparse⟩ := Exec.bind_eq_ok.mp h
    rw [Exec.unwrap_eq_ok] at hword hparse
    obtain ⟨first, tail, hfirst, -, htail, rfl⟩ := split_second_eq_some.mp hword
    obtain ⟨sign, digits, htrim, hdigits, rfl, hrange⟩ := parseI64_eq_some.mp hparse
    obtain ⟨dollars, rfl⟩ := eq_amountText htrim
    exact ⟨first, dollars, sign, digits, ⟨hfirst, hdigits, hrange, tail, htail, rfl⟩, rfl⟩
  · rintro ⟨first, dollars, sign, digits, ⟨hfirst, hdigits, hrange, tail, htail, rfl⟩, rfl⟩
    rw [extractAmount_word hfirst (blank_notMem dollars sign hdigits) htail,
      trimStartMatches_amountText dollars sign hdigits, Exec.unwrap_eq_ok]
    exact parseI64_eq_some.mpr ⟨sign, digits, rfl, hdigits, rfl, hrange⟩

/-- A message names an amount in one way. -/
theorem Names.unique (h : Names message first dollars sign digits)
    (h' : Names message first' dollars' sign' digits') :
    first = first' ∧ dollars = dollars' ∧ sign = sign' ∧ digits = digits' := by
  obtain ⟨tail, htail, htext⟩ := h.text
  obtain ⟨tail', htail', htext'⟩ := h'.text
  have hfirst := split_first_eq h.oneWord (amountText dollars sign digits ++ tail)
  have hfirst' := split_first_eq h'.oneWord (amountText dollars' sign' digits' ++ tail')
  rw [← String.append_assoc, ← htext] at hfirst
  rw [← String.append_assoc, ← htext', hfirst] at hfirst'
  have hword := split_second_eq_some.mpr ⟨first, tail, h.oneWord,
    blank_notMem dollars sign h.decimal, htail, htext⟩
  rw [split_second_eq_some.mpr ⟨first', tail', h'.oneWord, blank_notMem dollars' sign' h'.decimal,
    htail', htext'⟩, Option.some_inj] at hword
  have hnumber := congrArg (trimStartMatches '$') hword
  rw [trimStartMatches_amountText dollars' sign' h'.decimal,
    trimStartMatches_amountText dollars sign h.decimal] at hnumber
  obtain ⟨rfl, rfl⟩ := sign_digits_inj h'.decimal h.decimal hnumber
  rw [amountText, amountText] at hword
  have hdollars := congrArg List.length (congrArg String.toList ((String.append_left_inj _).mp hword))
  exact ⟨Option.some.inj hfirst', by simpa using hdollars.symm, rfl, rfl⟩

theorem Sends.names (h : Sends message amount) : ∃ digits, Names message "SEND" 1 .none digits ∧
    amount = decimalValue digits ∧ 0 < amount := by
  obtain ⟨digits, tail, hdigits, htail, rfl, rfl, hpos, hrange⟩ := h
  exact ⟨digits, ⟨by decide, hdigits, hrange, tail, htail, rfl⟩, rfl, hpos⟩

theorem Names.sends (h : Names message "SEND" 1 .none digits) (hpos : 0 < decimalValue digits) :
    Sends message (decimalValue digits) := by
  obtain ⟨tail, htail, rfl⟩ := h.text
  exact ⟨digits, tail, h.decimal, htail, rfl, rfl, Int.natCast_pos.mpr hpos, h.inRange⟩

/-- For every message: the chain takes an amount out of it exactly when the message sends this amount, if
and only if a message whose second word is `$`s and a number in the range starts with `SEND`, and has one
`$`, no sign and a number other than 0. -/
theorem extract_amount_iff (message : String) :
    (∀ amount, extractAmount message = .ok amount ↔ Sends message amount) ↔
      ∀ first dollars sign digits, Names message first dollars sign digits →
        first = "SEND" ∧ dollars = 1 ∧ sign = .none ∧ 0 < decimalValue digits := by
  constructor
  · intro h first dollars sign digits hnames
    obtain ⟨digits', hsend, hvalue, hpos⟩ :=
      ((h _).mp (extractAmount_eq_ok_iff.mpr ⟨_, _, _, _, hnames, rfl⟩)).names
    obtain ⟨hfirst, hdollars, rfl, rfl⟩ := hnames.unique hsend
    exact ⟨hfirst, hdollars, rfl, Int.natCast_pos.mp (hvalue ▸ hpos)⟩
  · intro h amount
    rw [extractAmount_eq_ok_iff]
    constructor
    · rintro ⟨first, dollars, sign, digits, hnames, rfl⟩
      obtain ⟨rfl, rfl, rfl, hpos⟩ := h _ _ _ _ hnames
      exact hnames.sends hpos
    · intro hsends
      obtain ⟨digits, hnames, rfl, -⟩ := hsends.names
      exact ⟨"SEND", 1, .none, digits, hnames, rfl⟩

/-- A negative amount is taken out. -/
theorem debt_extracted : extractAmount "SEND $-100" = .ok (-100) ∧
    ¬ ∀ amount, extractAmount "SEND $-100" = .ok amount ↔ Sends "SEND $-100" amount := by
  have hdebt : extractAmount "SEND $-100" = .ok (-100) := rfl
  refine ⟨hdebt, fun h => ?_⟩
  obtain ⟨-, -, -, hpos⟩ := ((h _).mp hdebt).names
  exact absurd hpos (by decide)

end NakamotoNode.Chain
