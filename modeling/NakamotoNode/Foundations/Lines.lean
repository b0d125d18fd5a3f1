import Mathlib.Data.List.Basic

/-! # Lines of text in a stream of bytes

Text is sent as UTF-8 and read line by line. The byte of a line break is in the encoding of no other
character, so a text without line breaks is one line. -/

namespace NakamotoNode.Foundations
set_option autoImplicit false

/-- `s.as_bytes()`. -/
def utf8 (s : String) : List UInt8 := s.toByteArray.data.toList

/-- `String::from_utf8`. -/
def ofUtf8 (bytes : List UInt8) : Option String := String.fromUTF8? bytes.toByteArray

theorem utf8_append (s t : String) : utf8 (s ++ t) = utf8 s ++ utf8 t := by
  simp [utf8]

theorem ofUtf8_utf8 (s : String) : ofUtf8 (utf8 s) = some s := by
  have hbytes : (utf8 s).toByteArray = s.toByteArray := by
    ext1
    simp [utf8]
  simp [ofUtf8, hbytes, String.fromUTF8?, s.isValidUTF8, String.fromUTF8]

theorem utf8_eq (s : String) : utf8 s = s.toList.flatMap String.utf8EncodeChar := by
  conv_lhs => rw [← String.ofList_toList (s := s)]
  rw [utf8, String.toByteArray_ofList, List.utf8Encode, List.data_toByteArray,
    List.toList_toArray]

theorem ofNat_ne_ten {n : ℕ} (h : 128 ≤ n) (hn : n < 256) : UInt8.ofNat n ≠ 10 := by
  intro he
  have hnat := congrArg UInt8.toNat he
  rw [UInt8.toNat_ofNat_of_lt' hn] at hnat
  have : (10 : UInt8).toNat = 10 := rfl
  omega

theorem eq_newline_of_mem {c : Char} (h : 10 ∈ String.utf8EncodeChar c) : c = '\n' := by
  unfold String.utf8EncodeChar at h
  dsimp only at h
  split at h
  · next hle =>
    have hnat := congrArg UInt8.toNat (List.mem_singleton.mp h)
    rw [UInt8.toNat_ofNat_of_lt' (show c.val.toNat < 256 by omega)] at hnat
    exact Char.toNat_inj.mp hnat.symm
  · exfalso
    split at h
    · simp only [List.mem_cons, List.not_mem_nil, or_false] at h
      rcases h with h | h <;> exact ofNat_ne_ten (by omega) (by omega) h.symm
    · split at h
      · simp only [List.mem_cons, List.not_mem_nil, or_false] at h
        rcases h with h | h | h <;> exact ofNat_ne_ten (by omega) (by omega) h.symm
      · simp only [List.mem_cons, List.not_mem_nil, or_false] at h
        rcases h with h | h | h | h <;> exact ofNat_ne_ten (by omega) (by omega) h.symm

theorem newline_notMem_utf8 {s : String} (h : '\n' ∉ s.toList) : 10 ∉ utf8 s := by
  intro hmem
  rw [utf8_eq, List.mem_flatMap] at hmem
  obtain ⟨c, hc, hten⟩ := hmem
  rw [eq_newline_of_mem hten] at hc
  exact h hc

theorem utf8_newline : utf8 "\n" = [10] := by
  rw [utf8_eq]
  rfl

theorem utf8_line_ne_nil {s : String} : utf8 (s ++ "\n") ≠ [] := by
  rw [utf8_append, utf8_newline]
  exact List.append_ne_nil_of_right_ne_nil _ (List.cons_ne_nil _ _)

/-! ## Lines -/

/-- `BufRead::read_line`: the bytes up to the first line break, that included, and those after it; all of
them where there is none. -/
def readLine : List UInt8 → List UInt8 × List UInt8
  | [] => ([], [])
  | b :: bytes =>
      if b = 10 then ([b], bytes)
      else (b :: (readLine bytes).1, (readLine bytes).2)

theorem readLine_append {line : List UInt8} (h : 10 ∉ line) (rest : List UInt8) :
    readLine (line ++ 10 :: rest) = (line ++ [10], rest) := by
  induction line with
  | nil => rfl
  | cons b line ih =>
    rw [List.cons_append, readLine, if_neg (Ne.symm (List.ne_of_not_mem_cons h)),
      ih (List.not_mem_of_not_mem_cons h)]
    rfl

theorem readLine_text {s : String} (h : '\n' ∉ s.toList) (rest : List UInt8) :
    readLine (utf8 (s ++ "\n") ++ rest) = (utf8 (s ++ "\n"), rest) := by
  rw [utf8_append, utf8_newline, List.append_assoc]
  exact readLine_append (newline_notMem_utf8 h) rest

theorem readLine_cons_fst_ne_nil (b : UInt8) (bytes : List UInt8) :
    (readLine (b :: bytes)).1 ≠ [] := by
  unfold readLine
  split <;> simp

theorem readLine_snd_length (bytes : List UInt8) : (readLine bytes).2.length ≤ bytes.length - 1 := by
  induction bytes with
  | nil => simp [readLine]
  | cons b bytes ih =>
    unfold readLine
    split
    · simp
    · simp only [List.length_cons]
      omega

/-- The lines of a stream that is closed at its end. -/
def lines : List UInt8 → List (List UInt8)
  | [] => []
  | b :: bytes => (readLine (b :: bytes)).1 :: lines (readLine (b :: bytes)).2
termination_by bytes => bytes.length
decreasing_by
  have hlen := readLine_snd_length (b :: bytes)
  simp only [List.length_cons] at hlen ⊢
  omega

theorem lines_text {s : String} (h : '\n' ∉ s.toList) (rest : List UInt8) :
    lines (utf8 (s ++ "\n") ++ rest) = utf8 (s ++ "\n") :: lines rest := by
  have hread := readLine_text h rest
  cases hbytes : utf8 (s ++ "\n") ++ rest with
  | nil => exact absurd (List.append_eq_nil_iff.mp hbytes).1 utf8_line_ne_nil
  | cons b bytes =>
    rw [hbytes] at hread
    rw [lines, hread]

end NakamotoNode.Foundations
