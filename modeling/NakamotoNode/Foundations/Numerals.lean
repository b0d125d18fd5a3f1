import NakamotoNode.Foundations.RustStd

/-! # Numbers in a text

What `parse::<i64>` accepts: a sign or none, and digits, of a value in the range (`parseI64_eq_some`). -/

namespace NakamotoNode.Foundations.RustStd
set_option autoImplicit false

/-- Decimal digits, one or more. -/
def Decimal (digits : String) : Prop := digits ≠ "" ∧ ∀ c ∈ digits.toList, c.isDigit = true

def decimalValue (digits : String) : ℕ := Nat.ofDigitChars 10 digits.toList 0

/-- The sign of a number, if it has one. -/
inductive Sign where
  | none
  | plus
  | minus
  deriving DecidableEq, Repr

def Sign.text : Sign → String
  | none => ""
  | plus => "+"
  | minus => "-"

def Sign.value : Sign → ℕ → ℤ
  | none, n => n
  | plus, n => n
  | minus, n => -n

variable {sign sign' : Sign} {digits digits' : String}

/-! ## Digits -/

theorem digitValue_eq_some {c : Char} {d : ℕ} :
    digitValue c = some d ↔ c.isDigit = true ∧ d = c.toNat - '0'.toNat := by
  have hdigit : c.isDigit = true ↔ '0' ≤ c ∧ c ≤ '9' := by
    rw [Char.isDigit_iff_toNat]
    rfl
  rw [digitValue, hdigit]
  by_cases hc : '0' ≤ c ∧ c ≤ '9'
  · rw [if_pos hc, Option.some_inj, eq_comm, and_iff_right hc]
  · rw [if_neg hc]
    exact iff_of_false (by simp) fun h => hc h.1

theorem parseDigits_eq_some {cs : List Char} {acc n : ℕ} : parseDigits cs acc = some n ↔
    (∀ c ∈ cs, c.isDigit = true) ∧ n = Nat.ofDigitChars 10 cs acc := by
  induction cs generalizing acc with
  | nil =>
    rw [parseDigits, Nat.ofDigitChars_nil, Option.some_inj, eq_comm]
    exact (and_iff_right fun c hc => absurd hc List.not_mem_nil).symm
  | cons c cs ih =>
    rw [parseDigits, Option.bind_eq_some_iff, List.forall_mem_cons, Nat.ofDigitChars_cons]
    constructor
    · rintro ⟨d, hd, h⟩
      obtain ⟨hc, rfl⟩ := digitValue_eq_some.mp hd
      obtain ⟨hcs, rfl⟩ := ih.mp h
      exact ⟨⟨hc, hcs⟩, rfl⟩
    · rintro ⟨⟨hc, hcs⟩, rfl⟩
      exact ⟨_, digitValue_eq_some.mpr ⟨hc, rfl⟩, ih.mpr ⟨hcs, rfl⟩⟩

theorem parseUnsigned_eq_some {cs : List Char} {n : ℕ} : parseUnsigned cs = some n ↔
    Decimal (String.ofList cs) ∧ n = decimalValue (String.ofList cs) := by
  rw [parseUnsigned, Decimal, decimalValue, String.toList_ofList]
  by_cases hnil : cs = []
  · subst hnil
    simp
  · have hne : String.ofList cs ≠ "" := fun h => hnil (by simpa using congrArg String.toList h)
    rw [if_neg hnil, parseDigits_eq_some, and_iff_right hne]

theorem Decimal.exists_cons (h : Decimal digits) :
    ∃ c cs, digits.toList = c :: cs ∧ c.isDigit = true ∧ ∀ d ∈ cs, d.isDigit = true := by
  cases hlist : digits.toList with
  | nil => exact absurd (String.toList_inj.mp hlist) h.1
  | cons c cs =>
    have hall := h.2
    rw [hlist] at hall
    obtain ⟨hc, hcs⟩ := List.forall_mem_cons.mp hall
    exact ⟨c, cs, rfl, hc, hcs⟩

/-! ## Signs -/

/-- The sign at the start of a text, and the rest. -/
def Sign.cut : List Char → Sign × List Char
  | '+' :: ds => (plus, ds)
  | '-' :: ds => (minus, ds)
  | ds => (none, ds)

theorem Sign.cut_append (cs : List Char) : (cut cs).1.text.toList ++ (cut cs).2 = cs := by
  unfold cut
  split <;> simp [text]

theorem Sign.cut_of_ne {cs : List Char} (hplus : ∀ ds, cs ≠ '+' :: ds)
    (hminus : ∀ ds, cs ≠ '-' :: ds) : cut cs = (none, cs) := by
  unfold cut
  split
  · exact absurd rfl (hplus _)
  · exact absurd rfl (hminus _)
  · rfl

theorem Sign.cut_text (sign : Sign) (h : Decimal digits) :
    cut (sign.text ++ digits).toList = (sign, digits.toList) := by
  obtain ⟨c, cs, hcs, hc, -⟩ := h.exists_cons
  rw [String.toList_append, hcs]
  cases sign with
  | none =>
    -- a digit is no sign
    have hne : ∀ {d : Char}, d.isDigit = false → ∀ ds, c :: cs ≠ d :: ds := by
      intro d hd ds he
      rw [(List.cons.inj he).1, hd] at hc
      exact absurd hc (by simp)
    exact cut_of_ne (hne (by decide)) (hne (by decide))
  | plus => rfl
  | minus => rfl

/-- The sign and the digits can be told from the text. -/
theorem sign_digits_inj (h : Decimal digits) (h' : Decimal digits')
    (heq : sign.text ++ digits = sign'.text ++ digits') : sign = sign' ∧ digits = digits' := by
  have hcut := sign.cut_text h
  rw [heq, sign'.cut_text h'] at hcut
  obtain ⟨hsign, hdigits⟩ := Prod.mk.inj hcut
  exact ⟨hsign.symm, String.toList_inj.mp hdigits.symm⟩

theorem parseI64_eq (s : String) : parseI64 s =
    ((parseUnsigned (Sign.cut s.toList).2).map fun n => (Sign.cut s.toList).1.value n).filter
      fun v => InI64 v := by
  unfold parseI64
  generalize s.toList = cs
  split
  · next ds =>
    change _ = ((parseUnsigned ds).map fun n => Sign.plus.value n).filter _
    cases parseUnsigned ds <;> rfl
  · next ds =>
    change _ = ((parseUnsigned ds).map fun n => Sign.minus.value n).filter _
    cases parseUnsigned ds <;> rfl
  · next hplus hminus =>
    rw [Sign.cut_of_ne hplus hminus]
    cases parseUnsigned cs <;> rfl

theorem parseI64_eq_some {s : String} {v : ℤ} : parseI64 s = some v ↔
    ∃ (sign : Sign) (digits : String), s = sign.text ++ digits ∧ Decimal digits ∧
      v = sign.value (decimalValue digits) ∧ InI64 v := by
  rw [parseI64_eq, Option.filter_eq_some_iff, Option.map_eq_some_iff, decide_eq_true_iff]
  constructor
  · rintro ⟨⟨n, hn, rfl⟩, hrange⟩
    obtain ⟨hdigits, rfl⟩ := parseUnsigned_eq_some.mp hn
    refine ⟨_, _, String.toList_inj.mp ?_, hdigits, rfl, hrange⟩
    rw [String.toList_append, String.toList_ofList, Sign.cut_append]
  · rintro ⟨sign, digits, rfl, hdigits, rfl, hrange⟩
    rw [sign.cut_text hdigits]
    exact ⟨⟨_, parseUnsigned_eq_some.mpr ⟨by rwa [String.ofList_toList], by rw [String.ofList_toList]⟩,
      rfl⟩, hrange⟩

/-- A number has no other characters than digits and signs. -/
theorem number_chars (sign : Sign) (h : Decimal digits) {c : Char}
    (hc : c ∈ (sign.text ++ digits).toList) : c = '+' ∨ c = '-' ∨ c.isDigit = true := by
  rw [String.toList_append, List.mem_append] at hc
  rcases hc with hc | hc
  · cases sign with
    | none => exact absurd hc List.not_mem_nil
    | plus => exact .inl (List.mem_singleton.mp hc)
    | minus => exact .inr (.inl (List.mem_singleton.mp hc))
  · exact .inr (.inr (h.2 c hc))

end NakamotoNode.Foundations.RustStd
