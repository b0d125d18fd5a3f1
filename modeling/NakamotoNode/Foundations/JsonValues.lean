import NakamotoNode.Foundations.JsonText
import NakamotoNode.Foundations.Lines

/-! # Integers, maps and enumerations in JSON

What a derived writer of compact JSON does with a signed integer, with a map of strings, and with a value
of an enumeration: the name of its variant alone, or in front of its content (`writeVariant`). A stream of
lines, one for each value, is the stream of no other values (`readsLines_of`). -/

namespace NakamotoNode.Foundations
set_option autoImplicit false

/-- `s.contains(word)` -/
def contains (word s : String) : Bool := decide (word.toList <:+: s.toList)

theorem contains_append (s word t : String) : contains word (s ++ word ++ t) = true :=
  decide_eq_true ⟨s.toList, t.toList, by simp⟩

/-! ## Integers -/

/-- A minus sign in front of what is negative. -/
def jsonInt (n : ℤ) : String := (if n < 0 then "-" else "") ++ debugNat n.natAbs

theorem compact_jsonInt (n : ℤ) : Compact (jsonInt n) := by
  refine compact_append.mpr ⟨?_, compact_debugNat _⟩
  split <;> decide +kernel

theorem unambiguous_jsonInt : Unambiguous fun n => jsonInt n ++ "]" := by
  have hdigits : Unambiguous fun n => debugNat n ++ "]" :=
    unambiguous_digits (b := 10) (c := ']') (by decide) (by decide) (by decide)
  have hsign : ∀ (n : ℕ) (r r' : String), debugNat n ++ r ≠ "-" ++ r' := by
    intro n r r' h
    have hne : (debugNat n).toList ≠ [] := by
      rw [debugNat, String.toList_ofList]
      exact Nat.toDigits_ne_nil
    obtain ⟨c, cs, hc⟩ := List.exists_cons_of_ne_nil hne
    obtain ⟨d, hd, rfl⟩ := mem_toDigits (b := 10) (by decide) (n := n) (c := c) (by
      have hmem : c ∈ (debugNat n).toList := by simp [hc]
      rwa [debugNat, String.toList_ofList] at hmem)
    have hdigit : ∀ d < 10, Nat.digitChar d ≠ '-' := by decide
    exact append_ne_append (by rw [hc]; rfl) rfl (hdigit d hd) r r' h
  intro m n r r' h
  simp only [jsonInt, String.append_assoc] at h
  by_cases hm : m < 0 <;> by_cases hn : n < 0 <;>
    simp only [hm, hn, if_true, if_false, String.empty_append, String.append_right_inj] at h
  · rw [← String.append_assoc, ← String.append_assoc] at h
    obtain ⟨he, hr⟩ := hdigits _ _ _ _ h
    exact ⟨by omega, hr⟩
  · exact absurd h.symm (hsign _ _ _)
  · exact absurd h (hsign _ _ _)
  · rw [← String.append_assoc, ← String.append_assoc] at h
    obtain ⟨he, hr⟩ := hdigits _ _ _ _ h
    exact ⟨by omega, hr⟩

/-! ## Maps -/

section Map
variable (jsonString : String → String)

/-- A key and its value. -/
def jsonEntry (entry : String × String) : String :=
  jsonString entry.1 ++ ":" ++ jsonString entry.2

/-- The entries of a map in their order, after its brace. -/
def jsonEntries : List (String × String) → String
  | [] => "\x7d"
  | entry :: entries =>
      jsonEntry jsonString entry ++ writeAll (fun e => "," ++ jsonEntry jsonString e) "\x7d" entries

def jsonMap (entries : List (String × String)) : String := "\x7b" ++ jsonEntries jsonString entries

variable {jsonString}

theorem compact_jsonMap (h : ∀ s, Compact (jsonString s)) (entries : List (String × String)) :
    Compact (jsonMap jsonString entries) := by
  have hentry : ∀ e, Compact (jsonEntry jsonString e) := fun e =>
    compact_append.mpr ⟨compact_append.mpr ⟨h _, by decide +kernel⟩, h _⟩
  refine compact_append.mpr ⟨by decide +kernel, ?_⟩
  cases entries with
  | nil =>
    change Compact "\x7d"
    decide +kernel
  | cons e entries =>
    refine compact_append.mpr ⟨hentry e, compact_writeAll (fun e' => ?_) (by decide +kernel) _⟩
    exact compact_append.mpr ⟨by decide +kernel, hentry e'⟩

theorem WritesJson.avoids (h : WritesJson jsonString) {stop : String} {d : Char}
    (hstop : stop.toList.head? = some d) (hd : d ≠ '"') : Avoids jsonString stop := by
  obtain ⟨escape, -, hs⟩ := h
  rw [show jsonString = _ from funext hs]
  exact Avoids.prepend (c := '"') rfl hstop hd.symm

theorem unambiguous_jsonMap (h : WritesJson jsonString) : Unambiguous (jsonMap jsonString) := by
  have hentry : Unambiguous (jsonEntry jsonString) := by
    rintro ⟨k, x⟩ ⟨k', x'⟩ r r' heq
    simp only [jsonEntry, String.append_assoc] at heq
    obtain ⟨rfl, hvalue⟩ := h.unambiguous _ _ _ _ heq
    obtain ⟨rfl, hr⟩ := h.unambiguous _ _ _ _ ((String.append_right_inj ":").mp hvalue)
    exact ⟨rfl, hr⟩
  have hquote : ∀ (e : String × String) (r r' : String), jsonEntry jsonString e ++ r ≠ "\x7d" ++ r' := by
    intro e r r' heq
    simp only [jsonEntry, String.append_assoc] at heq
    exact h.avoids (d := '\x7d') rfl (by decide) _ _ _ heq
  have htail : Unambiguous (writeAll (fun e => "," ++ jsonEntry jsonString e) "\x7d") :=
    unambiguous_writeAll (hentry.prepend ",")
      (Avoids.prepend (c := ',') (d := '\x7d') rfl rfl (by decide))
  refine Unambiguous.prepend (fun l l' r r' heq => ?_) "\x7b"
  cases l with
  | nil =>
    cases l' with
    | nil => exact ⟨rfl, (String.append_right_inj _).mp heq⟩
    | cons e' l' =>
      simp only [jsonEntries, String.append_assoc] at heq
      exact absurd heq.symm (hquote _ _ _)
  | cons e l =>
    cases l' with
    | nil =>
      simp only [jsonEntries, String.append_assoc] at heq
      exact absurd heq (hquote _ _ _)
    | cons e' l' =>
      simp only [jsonEntries, String.append_assoc] at heq
      obtain ⟨rfl, hrest⟩ := hentry _ _ _ _ heq
      obtain ⟨rfl, hr⟩ := htail _ _ _ _ hrest
      exact ⟨rfl, hr⟩

end Map

/-! ## Enumerations -/

/-- A variant with its content, or without one. -/
def writeVariant (name : String) : Option String → String
  | none => "\"" ++ name ++ "\""
  | some content => "\x7b\"" ++ name ++ "\":" ++ content ++ "\x7d"

theorem compact_writeVariant {name : String} (hname : Compact name) :
    ∀ {content : Option String}, (∀ s ∈ content, Compact s) → Compact (writeVariant name content)
  | none, _ =>
    compact_append.mpr ⟨compact_append.mpr ⟨by decide +kernel, hname⟩, by decide +kernel⟩
  | some s, h => by
    refine compact_append.mpr ⟨compact_append.mpr ⟨?_, h s rfl⟩, by decide +kernel⟩
    exact compact_append.mpr ⟨compact_append.mpr ⟨by decide +kernel, hname⟩, by decide +kernel⟩

theorem writeVariant_inj {name name' : String} (h : '"' ∉ name.toList) (h' : '"' ∉ name'.toList)
    {content content' : Option String}
    (heq : writeVariant name content = writeVariant name' content') :
    name = name' ∧ content = content' := by
  have hlist := congrArg String.toList heq
  match content, content' with
  | none, none =>
    simp only [writeVariant, String.toList_append, List.append_assoc] at hlist
    have hquote := (List.cons.inj hlist).2
    exact ⟨String.toList_inj.mp (append_cons_inj_of_notMem h h' hquote).1, rfl⟩
  | none, some s =>
    simp only [writeVariant, String.toList_append, List.append_assoc] at hlist
    exact absurd (List.cons.inj hlist).1 (by decide)
  | some s, none =>
    simp only [writeVariant, String.toList_append, List.append_assoc] at hlist
    exact absurd (List.cons.inj hlist).1 (by decide)
  | some s, some s' =>
    simp only [writeVariant, String.toList_append, List.append_assoc] at hlist
    have hquote := (List.cons.inj (List.cons.inj hlist).2).2
    obtain ⟨hname, hrest⟩ := append_cons_inj_of_notMem h h' hquote
    have hcontent : s.toList ++ "\x7d".toList = s'.toList ++ "\x7d".toList := (List.cons.inj hrest).2
    have hs := String.toList_inj.mp (List.append_cancel_right hcontent)
    exact ⟨String.toList_inj.mp hname, congrArg some hs⟩

theorem contains_writeVariant (name : String) : ∀ content : Option String,
    contains name (writeVariant name content) = true
  | none => contains_append "\"" name "\""
  | some content => by
    have hparts : writeVariant name (some content) =
        "\x7b\"" ++ name ++ ("\":" ++ (content ++ "\x7d")) := by
      simp only [writeVariant, String.append_assoc]
    rw [hparts]
    exact contains_append _ _ _

/-! ## Streams of lines -/

section Stream
variable {α : Type} {toText : α → String}

/-- One line for each value. -/
def stream (toText : α → String) (values : List α) : List UInt8 :=
  values.flatMap fun a => utf8 (toText a ++ "\n")

theorem lines_stream (h : ∀ a, Compact (toText a)) (values : List α) :
    lines (stream toText values) = values.map fun a => utf8 (toText a ++ "\n") := by
  induction values with
  | nil => simp [stream, lines]
  | cons a values ih =>
    rw [stream, List.flatMap_cons, lines_text (h a).newline_notMem, List.map_cons]
    exact congrArg _ ih

/-- Read line by line, a stream gives one line for each value, and it is that of no other values. -/
def ReadsLines (toText : α → String) : Prop :=
  (∀ values, lines (stream toText values) = values.map fun a => utf8 (toText a ++ "\n")) ∧
    Function.Injective (stream toText)

theorem utf8_injective : Function.Injective utf8 := by
  intro s t h
  have hread := congrArg ofUtf8 h
  rw [ofUtf8_utf8, ofUtf8_utf8] at hread
  exact Option.some.inj hread

theorem readsLines_of (h : ∀ a, Compact (toText a)) (hinj : Function.Injective toText) :
    ReadsLines toText := by
  refine ⟨lines_stream h, fun values values' heq => ?_⟩
  have hlines := congrArg lines heq
  rw [lines_stream h, lines_stream h] at hlines
  refine List.map_injective_iff.mpr (fun a b hab => hinj ?_) hlines
  exact String.append_left_inj "\n" |>.mp (utf8_injective hab)

end Stream

end NakamotoNode.Foundations
