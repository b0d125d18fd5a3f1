import NakamotoNode.Foundations.Unambiguous

/-! # Rust's `Debug` format

`{:?}` of strings, unsigned integers and vectors, as `core::fmt` writes them. -/

namespace NakamotoNode.Foundations
set_option autoImplicit false

/-! ## Integers -/

theorem digitChar_inj : ∀ d < 16, ∀ e < 16, Nat.digitChar d = Nat.digitChar e → d = e := by decide

theorem mem_toDigits {b : ℕ} (hb : 1 < b) {c : Char} {n : ℕ} (hc : c ∈ Nat.toDigits b n) :
    ∃ d < b, c = Nat.digitChar d := by
  induction n using Nat.strongRecOn with
  | ind n ih =>
    rw [Nat.toDigits_eq_if hb] at hc
    split at hc
    · next hlt => exact ⟨n, hlt, List.mem_singleton.mp hc⟩
    · next hge =>
      rcases List.mem_append.mp hc with hc | hc
      · exact ih (n / b) (Nat.div_lt_self (by omega) hb) hc
      · exact ⟨n % b, Nat.mod_lt n (by omega), List.mem_singleton.mp hc⟩

theorem toDigits_injective {b : ℕ} (hb : 1 < b) (hb16 : b ≤ 16) :
    Function.Injective (Nat.toDigits b) := by
  intro n
  induction n using Nat.strongRecOn with
  | ind n ih =>
    intro m h
    rw [Nat.toDigits_eq_if hb, Nat.toDigits_eq_if hb (n := m)] at h
    split at h <;> split at h
    · next hn hm =>
      exact digitChar_inj n (by omega) m (by omega) (List.cons.inj h).1
    · exact absurd (congrArg List.length h) (by simp)
    · exact absurd (congrArg List.length h) (by simp)
    · next hn hm =>
      obtain ⟨hdiv, hmod⟩ := List.append_inj' h rfl
      have hn' := Nat.mod_lt n (show 0 < b by omega)
      have hm' := Nat.mod_lt m (show 0 < b by omega)
      have hdiv := ih (n / b) (Nat.div_lt_self (by omega) hb) hdiv
      have hmod := digitChar_inj _ (by omega) _ (by omega) (List.cons.inj hmod).1
      rw [← Nat.div_add_mod n b, hdiv, hmod, Nat.div_add_mod]

/-- An unsigned integer, in base ten. -/
def debugNat (n : ℕ) : String := String.ofList (Nat.toDigits 10 n)

/-- In base sixteen, as `{:x}` writes it. -/
def hex (n : ℕ) : String := String.ofList (Nat.toDigits 16 n)

theorem unambiguous_digits {b : ℕ} (hb : 1 < b) (hb16 : b ≤ 16) {c : Char}
    (hc : ∀ d < 16, c ≠ Nat.digitChar d) :
    Unambiguous fun n => String.ofList (Nat.toDigits b n) ++ String.singleton c := by
  refine Unambiguous.terminated (fun n m h => toDigits_injective hb hb16 ?_) fun n hmem => ?_
  · exact String.ofList_injective h
  · rw [String.toList_ofList] at hmem
    obtain ⟨d, hd, he⟩ := mem_toDigits hb hmem
    exact hc d (by omega) he

/-! ## Strings -/

/-- The characters that a backslash and one character stand for. -/
def shortEscape : Char → Option Char
  | '\x00' => some '0'
  | '\t' => some 't'
  | '\r' => some 'r'
  | '\n' => some 'n'
  | '"' => some '"'
  | '\\' => some '\\'
  | _ => none

/-- `char::escape_debug_ext` as `Debug for str` calls it. `printable` is the table of the characters that
are neither unprintable nor grapheme extensions. -/
def escapeDebug (printable : Char → Bool) (c : Char) : String :=
  match shortEscape c with
  | some e => "\\" ++ String.singleton e
  | none => if printable c then String.singleton c
      else "\\" ++ ("u\x7b" ++ (hex c.toNat ++ "\x7d"))

/-- What a character after a backslash stands for. -/
def unescape : Char → Char
  | '0' => '\x00'
  | 't' => '\t'
  | 'r' => '\r'
  | 'n' => '\n'
  | c => c

theorem unescape_of_shortEscape {a e : Char} (h : shortEscape a = some e) : unescape e = a := by
  unfold shortEscape at h
  split at h
  case h_7 => exact absurd h (by simp)
  all_goals
    obtain rfl := Option.some.inj h
    rfl

theorem shortEscape_ne_u (a : Char) : shortEscape a ≠ some 'u' := by
  unfold shortEscape
  split <;> simp

variable {printable : Char → Bool}

/-- What a backslash starts: the character itself only where it is written as it is. -/
theorem escapeDebug_cases (printable : Char → Bool) (c : Char) :
    (∃ e, shortEscape c = some e ∧ escapeDebug printable c = "\\" ++ String.singleton e) ∨
    (c ≠ '\\' ∧ c ≠ '"' ∧ escapeDebug printable c = String.singleton c) ∨
    escapeDebug printable c = "\\" ++ ("u\x7b" ++ (hex c.toNat ++ "\x7d")) := by
  unfold escapeDebug
  cases he : shortEscape c with
  | some e => exact .inl ⟨e, rfl, rfl⟩
  | none =>
    dsimp only
    split
    · refine .inr (.inl ⟨?_, ?_, rfl⟩) <;>
      · rintro rfl
        exact absurd he (by decide)
    · exact .inr (.inr rfl)

theorem head_singleton (c : Char) : (String.singleton c).toList.head? = some c := by simp

theorem unambiguous_escapeDebug : Unambiguous (escapeDebug printable) := by
  have hcode : ∀ {a e : Char} {r r' : String}, shortEscape a = some e →
      "\\" ++ String.singleton e ++ r ≠ "\\" ++ ("u\x7b" ++ r') := by
    intro a e r r' ha h
    rw [String.append_assoc, String.append_right_inj] at h
    exact append_ne_append (head_singleton e) rfl
      (fun he => shortEscape_ne_u a (ha.trans (congrArg some he))) _ _ h
  have hplain : ∀ {c : Char} {r r' : String}, c ≠ '\\' → String.singleton c ++ r ≠ "\\" ++ r' :=
    fun hc => append_ne_append (head_singleton _) rfl hc _ _
  intro a b r r' h
  rcases escapeDebug_cases printable a with ⟨e, ha, hea⟩ | ⟨ha, -, hea⟩ | hea <;>
    rcases escapeDebug_cases printable b with ⟨e', hb, heb⟩ | ⟨hb, -, heb⟩ | heb <;>
    rw [hea, heb] at h
  · rw [String.append_assoc, String.append_assoc, String.append_right_inj] at h
    obtain ⟨rfl, hr⟩ := String.singleton_append_inj.mp h
    exact ⟨(unescape_of_shortEscape ha).symm.trans (unescape_of_shortEscape hb), hr⟩
  · rw [String.append_assoc] at h
    exact absurd h.symm (hplain hb)
  · simp only [String.append_assoc] at h
    exact absurd (by simpa only [String.append_assoc] using h) (hcode ha)
  · rw [String.append_assoc] at h
    exact absurd h (hplain ha)
  · exact String.singleton_append_inj.mp h
  · rw [String.append_assoc] at h
    exact absurd h (hplain ha)
  · simp only [String.append_assoc] at h
    exact absurd (by simpa only [String.append_assoc] using h.symm) (hcode hb)
  · rw [String.append_assoc] at h
    exact absurd h.symm (hplain hb)
  · have hhex : Unambiguous fun n => hex n ++ "\x7d" :=
      unambiguous_digits (b := 16) (c := '\x7d') (by decide) (by decide) (by decide)
    obtain ⟨he, hr⟩ := ((hhex.prepend "u\x7b").prepend "\\") _ _ _ _ h
    exact ⟨Char.toNat_inj.mp he, hr⟩

def debugStr (printable : Char → Bool) (s : String) : String :=
  "\"" ++ writeAll (escapeDebug printable) "\"" s.toList

theorem avoids_escapeDebug : Avoids (escapeDebug printable) "\"" := by
  intro c r r' h
  rcases escapeDebug_cases printable c with ⟨e, -, he⟩ | ⟨-, hc, he⟩ | he
  · rw [he, String.append_assoc] at h
    exact append_ne_append (c := '\\') (d := '"') rfl rfl (by decide) _ _ h
  · rw [he] at h
    exact append_ne_append (head_singleton c) rfl hc _ _ h
  · rw [he, String.append_assoc] at h
    exact append_ne_append (c := '\\') (d := '"') rfl rfl (by decide) _ _ h

theorem unambiguous_debugStr : Unambiguous (debugStr printable) := by
  intro s t r r' h
  obtain ⟨hlist, hr⟩ := (unambiguous_writeAll unambiguous_escapeDebug
    avoids_escapeDebug).prepend "\"" _ _ _ _ h
  exact ⟨String.toList_inj.mp hlist, hr⟩

/-! ## Vectors -/

def debugVec {α : Type} (f : α → String) : List α → String := writeVec ", " f

theorem avoids_debugVec {α : Type} {f : α → String} : Avoids (debugVec f) "]" := avoids_writeVec

theorem unambiguous_debugVec {α : Type} {f : α → String} (hf : Unambiguous f)
    (hclose : Avoids f "]") : Unambiguous (debugVec f) :=
  unambiguous_writeVec hf hclose (c := ',') rfl (by decide)

end NakamotoNode.Foundations
