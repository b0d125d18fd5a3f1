import NakamotoNode.Foundations.DebugFormat
import Mathlib.Data.List.Infix

/-! # Strings in JSON

What a writer of compact JSON does with a string (`WritesJson`): quotes around it, and the characters
that must be escaped behind backslashes. A quote after a brace ends the string, so that no object begins
inside of one (`free_field`). -/

namespace NakamotoNode.Foundations
set_option autoImplicit false

/-- A quote, a backslash or a control character. -/
def MustEscape (c : Char) : Prop := c = '"' ∨ c = '\\' ∨ c.toNat < 0x20

instance (c : Char) : Decidable (MustEscape c) := inferInstanceAs (Decidable (_ ∨ _ ∨ _))

/-- How the characters of a string are written. -/
structure JsonEscape (escape : Char → String) : Prop where
  plain : ∀ c, ¬ MustEscape c → escape c = String.singleton c
  special : ∀ c, MustEscape c →
    ∃ d rest, escape c = "\\" ++ (String.singleton d ++ rest) ∧ '"' ∉ rest.toList
  readsBack : Unambiguous escape

/-- A writer of strings. -/
def WritesJson (jsonString : String → String) : Prop :=
  ∃ escape, JsonEscape escape ∧ ∀ s, jsonString s = "\"" ++ writeAll escape "\"" s.toList

namespace JsonEscape
variable {escape : Char → String}

theorem avoids (h : JsonEscape escape) : Avoids escape "\"" := by
  intro c r r' he
  by_cases hc : MustEscape c
  · obtain ⟨d, rest, hd, -⟩ := h.special c hc
    rw [hd, String.append_assoc] at he
    exact append_ne_append (c := '\\') (d := '"') rfl rfl (by decide) _ _ he
  · rw [h.plain c hc] at he
    have hquote : c ≠ '"' := fun heq => hc (.inl heq)
    exact append_ne_append (head_singleton c) rfl hquote _ _ he

theorem unambiguous (h : JsonEscape escape) :
    Unambiguous fun s : String => "\"" ++ writeAll escape "\"" s.toList := by
  intro s t r r' he
  obtain ⟨hlist, hr⟩ := (unambiguous_writeAll h.readsBack h.avoids).prepend "\"" _ _ _ _ he
  exact ⟨String.toList_inj.mp hlist, hr⟩

end JsonEscape

theorem WritesJson.unambiguous {jsonString : String → String} (h : WritesJson jsonString) :
    Unambiguous jsonString := by
  obtain ⟨escape, hescape, hs⟩ := h
  rw [show jsonString = _ from funext hs]
  exact hescape.unambiguous

/-! ## Strings that need no escape -/

/-- No character of the text has to be escaped. -/
def Plain (cs : List Char) : Prop := ∀ c ∈ cs, ¬ MustEscape c

instance (cs : List Char) : Decidable (Plain cs) :=
  decidable_of_iff (cs.all (fun c => decide (¬ MustEscape c)) = true) (by simp [Plain])

theorem plain_append {cs ds : List Char} : Plain (cs ++ ds) ↔ Plain cs ∧ Plain ds :=
  List.forall_mem_append

namespace JsonEscape
variable {escape : Char → String}

theorem length_escape (h : JsonEscape escape) (c : Char) : 1 ≤ (escape c).toList.length ∧
    ((escape c).toList.length = 1 ↔ ¬ MustEscape c) := by
  by_cases hc : MustEscape c
  · obtain ⟨d, rest, hd, -⟩ := h.special c hc
    have hlen : (escape c).toList.length = rest.toList.length + 2 := by
      rw [hd, String.toList_append, String.toList_append, String.toList_singleton]
      rfl
    rw [hlen]
    exact ⟨by omega, iff_of_false (by omega) (not_not.mpr hc)⟩
  · rw [h.plain c hc, String.toList_singleton, List.length_singleton]
    exact ⟨le_refl 1, iff_of_true rfl hc⟩

/-- A text does not get shorter, and keeps its length only as it is. -/
theorem length_writeAll (h : JsonEscape escape) (cs : List Char) :
    cs.length + 1 ≤ (writeAll escape "\"" cs).toList.length ∧
      ((writeAll escape "\"" cs).toList.length = cs.length + 1 ↔ Plain cs) := by
  induction cs with
  | nil =>
    have hnil : (writeAll escape "\"" []).toList.length = 1 := by simp [writeAll]
    exact ⟨hnil.ge, iff_of_true hnil fun c hc => absurd hc List.not_mem_nil⟩
  | cons c cs ih =>
    obtain ⟨hle, hiff⟩ := ih
    obtain ⟨hle', hiff'⟩ := h.length_escape c
    have hcons : Plain (c :: cs) ↔ ¬ MustEscape c ∧ Plain cs := List.forall_mem_cons
    rw [writeAll, String.toList_append, List.length_append, List.length_cons, hcons, ← hiff, ← hiff']
    omega

theorem writeAll_plain (h : JsonEscape escape) {cs : List Char} (hcs : Plain cs) :
    writeAll escape "\"" cs = String.ofList cs ++ "\"" := by
  induction cs with
  | nil => rfl
  | cons c cs ih =>
    obtain ⟨hc, hcs⟩ := List.forall_mem_cons.mp hcs
    rw [writeAll, h.plain c hc, ih hcs, ← String.append_assoc]
    apply congrArg (· ++ "\"")
    apply String.toList_inj.mp
    simp

end JsonEscape

namespace WritesJson
variable {jsonString : String → String}

theorem length_le (h : WritesJson jsonString) (s : String) :
    s.toList.length + 2 ≤ (jsonString s).toList.length := by
  obtain ⟨escape, hescape, hs⟩ := h
  have hlen := (hescape.length_writeAll s.toList).1
  rw [hs, String.toList_append, List.length_append]
  change _ ≤ 1 + _
  omega

theorem length_eq_iff (h : WritesJson jsonString) (s : String) :
    (jsonString s).toList.length = s.toList.length + 2 ↔ Plain s.toList := by
  obtain ⟨escape, hescape, hs⟩ := h
  rw [hs, String.toList_append, List.length_append, ← (hescape.length_writeAll s.toList).2]
  change 1 + _ = _ ↔ _
  omega

theorem eq_quoted (h : WritesJson jsonString) {s : String} (hs : Plain s.toList) :
    jsonString s = "\"" ++ s ++ "\"" := by
  obtain ⟨escape, hescape, hwrites⟩ := h
  rw [hwrites, hescape.writeAll_plain hs, String.ofList_toList, String.append_assoc]

end WritesJson

/-! ## Compact texts -/

/-- No control character, so no line break. -/
def Compact (s : String) : Prop := ∀ c ∈ s.toList, 0x20 ≤ c.toNat

instance (s : String) : Decidable (Compact s) :=
  decidable_of_iff (s.toList.all (fun c => decide (0x20 ≤ c.toNat)) = true) (by simp [Compact])

theorem compact_append {s t : String} : Compact (s ++ t) ↔ Compact s ∧ Compact t := by
  unfold Compact
  rw [String.toList_append]
  exact List.forall_mem_append

theorem Compact.newline_notMem {s : String} (h : Compact s) : '\n' ∉ s.toList := fun hmem =>
  absurd (h '\n' hmem) (by decide)

theorem Compact.field {label text rest : String} (htext : Compact text) (hlabel : Compact label)
    (hrest : Compact rest) : Compact (field label text rest) :=
  compact_append.mpr ⟨hlabel, compact_append.mpr ⟨htext, hrest⟩⟩

theorem compact_writeAll {α : Type} {f : α → String} {stop : String} (hf : ∀ a, Compact (f a))
    (hstop : Compact stop) : ∀ l : List α, Compact (writeAll f stop l)
  | [] => hstop
  | a :: l => compact_append.mpr ⟨hf a, compact_writeAll hf hstop l⟩

theorem compact_writeVec {α : Type} {f : α → String} {sep : String} (hf : ∀ a, Compact (f a))
    (hsep : Compact sep) (l : List α) : Compact (writeVec sep f l) := by
  cases l with
  | nil =>
    change Compact "[]"
    decide +kernel
  | cons a l =>
    rw [writeVec, compact_append, compact_append]
    refine ⟨by decide +kernel, hf a, compact_writeAll (fun b => ?_) (by decide +kernel) l⟩
    exact compact_append.mpr ⟨hsep, hf b⟩

theorem compact_debugNat (n : ℕ) : Compact (debugNat n) := by
  intro c hc
  rw [debugNat, String.toList_ofList] at hc
  obtain ⟨d, hd, rfl⟩ := mem_toDigits (by decide) hc
  have hdigits : ∀ d < 10, 0x20 ≤ (Nat.digitChar d).toNat := by decide
  exact hdigits d hd

/-! ## Where an object begins -/

section
variable {k : Char} {l : List Char}

/-- An object whose first key starts with `k` begins nowhere in the text, nor with a brace in front of
it. -/
structure Clear (k : Char) (l : List Char) : Prop where
  free : ¬ ['\x7b', '"', k] <:+: l
  head : ¬ ['"', k] <+: l

theorem Clear.free_cons (h : Clear k l) (c : Char) : ¬ ['\x7b', '"', k] <:+: c :: l := by
  intro hinfix
  rcases List.infix_cons_iff.mp hinfix with hprefix | hinfix
  · exact h.head (List.cons_prefix_cons.mp hprefix).2
  · exact h.free hinfix

theorem Clear.cons (h : Clear k l) {c : Char} (hc : c ≠ '"') : Clear k (c :: l) :=
  ⟨h.free_cons c, fun hprefix => hc (List.cons_prefix_cons.mp hprefix).1.symm⟩

theorem Clear.append (h : Clear k l) : ∀ {u : List Char}, '"' ∉ u → Clear k (u ++ l)
  | [], _ => h
  | _ :: _, hu => (h.append (List.not_mem_of_not_mem_cons hu)).cons
      (Ne.symm (List.ne_of_not_mem_cons hu))

theorem free_append (h : ¬ ['\x7b', '"', k] <:+: l) :
    ∀ {u : List Char}, '\x7b' ∉ u → ¬ ['\x7b', '"', k] <:+: u ++ l
  | [], _ => h
  | _ :: _, hu => fun hinfix => by
      rcases List.infix_cons_iff.mp hinfix with hprefix | hinfix
      · exact List.ne_of_not_mem_cons hu (List.cons_prefix_cons.mp hprefix).1
      · exact free_append h (List.not_mem_of_not_mem_cons hu) hinfix

theorem clear_quote (hfree : ¬ ['\x7b', '"', k] <:+: l) (hhead : l.head? ≠ some k) :
    Clear k ('"' :: l) := by
  constructor
  · exact free_append (u := ['"']) hfree (by decide)
  · intro hprefix
    obtain ⟨-, t, rfl⟩ := List.cons_prefix_cons.mp hprefix
    exact hhead rfl

variable {escape : Char → String}

/-- Neither a character nor what is written for it hides a quote behind a brace. -/
theorem JsonEscape.clear (h : JsonEscape escape) (hl : Clear k l) (c : Char) :
    Clear k ((escape c).toList ++ l) := by
  by_cases hc : MustEscape c
  · obtain ⟨d, rest, hd, hrest⟩ := h.special c hc
    have hback : Clear k ('\\' :: d :: (rest.toList ++ l)) := by
      refine ⟨?_, fun hprefix => ?_⟩
      · exact free_append (u := ['\\']) ((hl.append hrest).free_cons d) (by decide)
      · exact absurd (List.cons_prefix_cons.mp hprefix).1 (by decide)
    rw [hd, String.toList_append, String.toList_append, String.toList_singleton]
    exact hback
  · rw [h.plain c hc, String.toList_singleton]
    exact hl.cons fun heq => hc (.inl heq)

theorem JsonEscape.clear_writeAll (h : JsonEscape escape) (hl : Clear k ('"' :: l)) :
    ∀ cs : List Char, Clear k ((writeAll escape "\"" cs).toList ++ l)
  | [] => by
      rw [writeAll]
      exact hl
  | c :: cs => by
      rw [writeAll, String.toList_append, List.append_assoc]
      exact h.clear (h.clear_writeAll hl cs) c

/-- No object begins in a field whose label has no brace, if none begins in what follows. -/
theorem free_field {jsonString : String → String} (h : WritesJson jsonString) {label rest : String}
    (hlabel : '\x7b' ∉ label.toList) (hrest : ¬ ['\x7b', '"', k] <:+: rest.toList)
    (hhead : rest.toList.head? ≠ some k) (s : String) :
    ¬ ['\x7b', '"', k] <:+: (field label (jsonString s) rest).toList := by
  obtain ⟨escape, hescape, hs⟩ := h
  have hbody := (hescape.clear_writeAll (clear_quote hrest hhead) s.toList).free
  rw [field, hs, String.toList_append, String.toList_append, String.toList_append, List.append_assoc]
  exact free_append (free_append (u := ['"']) hbody (by decide)) hlabel

end

/-! ## The writer of `serde_json` -/

/-- The characters that a backslash and one character stand for. -/
def jsonShort : Char → Option Char
  | '"' => some '"'
  | '\\' => some '\\'
  | '\x08' => some 'b'
  | '\x0c' => some 'f'
  | '\n' => some 'n'
  | '\r' => some 'r'
  | '\t' => some 't'
  | _ => none

/-- `format_escaped_str` for one character. -/
def serdeEscape (c : Char) : String :=
  match jsonShort c with
  | some e => "\\" ++ String.singleton e
  | none =>
      if c.toNat < 0x20 then
        "\\" ++ ("u00" ++ String.ofList [Nat.digitChar (c.toNat / 16), Nat.digitChar (c.toNat % 16)])
      else String.singleton c

def serdeString (s : String) : String := "\"" ++ writeAll serdeEscape "\"" s.toList

/-- What a character after a backslash stands for. -/
def jsonUnshort : Char → Char
  | 'b' => '\x08'
  | 'f' => '\x0c'
  | 'n' => '\n'
  | 'r' => '\r'
  | 't' => '\t'
  | c => c

theorem jsonUnshort_of_jsonShort {a e : Char} (h : jsonShort a = some e) : jsonUnshort e = a := by
  unfold jsonShort at h
  split at h
  case h_8 => exact absurd h (by simp)
  all_goals
    obtain rfl := Option.some.inj h
    rfl

theorem jsonShort_ne_u (a : Char) : jsonShort a ≠ some 'u' := by
  unfold jsonShort
  split <;> simp

theorem mustEscape_of_jsonShort {a e : Char} (h : jsonShort a = some e) : MustEscape a := by
  unfold jsonShort at h
  split at h
  case h_8 => exact absurd h (by simp)
  all_goals decide

theorem serdeEscape_cases (c : Char) :
    (∃ e, jsonShort c = some e ∧ serdeEscape c = "\\" ++ String.singleton e) ∨
    (¬ MustEscape c ∧ serdeEscape c = String.singleton c) ∨
    (c.toNat < 0x20 ∧ serdeEscape c = "\\" ++ ("u00" ++
      String.ofList [Nat.digitChar (c.toNat / 16), Nat.digitChar (c.toNat % 16)])) := by
  unfold serdeEscape
  cases he : jsonShort c with
  | some e => exact .inl ⟨e, rfl, rfl⟩
  | none =>
    dsimp only
    split
    · next hlt => exact .inr (.inr ⟨hlt, rfl⟩)
    · next hge =>
      refine .inr (.inl ⟨?_, rfl⟩)
      rintro (rfl | rfl | hlt)
      · exact absurd he (by decide)
      · exact absurd he (by decide)
      · exact hge hlt

theorem controlDigits_inj {m n : ℕ} (hm : m < 0x20) (hn : n < 0x20) {r r' : String}
    (h : String.ofList [Nat.digitChar (m / 16), Nat.digitChar (m % 16)] ++ r =
      String.ofList [Nat.digitChar (n / 16), Nat.digitChar (n % 16)] ++ r') : m = n ∧ r = r' := by
  have hlist := congrArg String.toList h
  rw [String.toList_append, String.toList_append, String.toList_ofList, String.toList_ofList] at hlist
  obtain ⟨hdiv, hlist⟩ := List.cons.inj hlist
  obtain ⟨hmod, hlist⟩ := List.cons.inj hlist
  have hdiv' := digitChar_inj _ (by omega) _ (by omega) hdiv
  have hmod' := digitChar_inj _ (by omega) _ (by omega) hmod
  exact ⟨by omega, String.toList_inj.mp hlist⟩

theorem unambiguous_serdeEscape : Unambiguous serdeEscape := by
  have hcode : ∀ {a e : Char} {r r' : String}, jsonShort a = some e →
      String.singleton e ++ r ≠ "u00" ++ r' := fun {a e} _ _ ha =>
    append_ne_append (head_singleton e) rfl
      (fun he => jsonShort_ne_u a (ha.trans (congrArg some he))) _ _
  have hplain : ∀ {c : Char} {r r' : String}, ¬ MustEscape c →
      String.singleton c ++ r ≠ "\\" ++ r' := fun hc =>
    append_ne_append (head_singleton _) rfl (fun he => hc (.inr (.inl he))) _ _
  intro a b r r' h
  rcases serdeEscape_cases a with ⟨e, ha, hea⟩ | ⟨ha, hea⟩ | ⟨ha, hea⟩ <;>
    rcases serdeEscape_cases b with ⟨e', hb, heb⟩ | ⟨hb, heb⟩ | ⟨hb, heb⟩ <;>
    simp only [hea, heb, String.append_assoc, String.append_right_inj] at h
  · obtain ⟨rfl, hr⟩ := String.singleton_append_inj.mp h
    exact ⟨(jsonUnshort_of_jsonShort ha).symm.trans (jsonUnshort_of_jsonShort hb), hr⟩
  · exact absurd h.symm (hplain hb)
  · exact absurd h (hcode ha)
  · exact absurd h (hplain ha)
  · exact String.singleton_append_inj.mp h
  · exact absurd h (hplain ha)
  · exact absurd h.symm (hcode hb)
  · exact absurd h.symm (hplain hb)
  · obtain ⟨he, hr⟩ := controlDigits_inj ha hb h
    exact ⟨Char.toNat_inj.mp he, hr⟩

theorem jsonEscape_serdeEscape : JsonEscape serdeEscape where
  plain := fun c hc => by
    rcases serdeEscape_cases c with ⟨e, he, -⟩ | ⟨-, he⟩ | ⟨hlt, -⟩
    · exact absurd (mustEscape_of_jsonShort he) hc
    · exact he
    · exact absurd (.inr (.inr hlt)) hc
  special := fun c hc => by
    rcases serdeEscape_cases c with ⟨e, -, he⟩ | ⟨hplain, -⟩ | ⟨hlt, he⟩
    · exact ⟨e, "", by rw [he, String.append_empty], by simp⟩
    · exact absurd hc hplain
    · have hdigit : ∀ d < 16, Nat.digitChar d ≠ '"' := by decide
      refine ⟨'u', "00" ++ String.ofList [Nat.digitChar (c.toNat / 16), Nat.digitChar (c.toNat % 16)],
        ?_, fun hquote => ?_⟩
      · rw [he, show "u00" = String.singleton 'u' ++ "00" from rfl, String.append_assoc]
      · rw [String.toList_append] at hquote
        rcases List.mem_append.mp hquote with hquote | hquote
        · exact absurd hquote (by decide)
        · rw [String.toList_ofList] at hquote
          rcases List.mem_pair.mp hquote with hquote | hquote
          · exact hdigit _ (by omega) hquote.symm
          · exact hdigit _ (by omega) hquote.symm
  readsBack := unambiguous_serdeEscape

theorem writesJson_serdeString : WritesJson serdeString :=
  ⟨serdeEscape, jsonEscape_serdeEscape, fun _ => rfl⟩

theorem compact_serdeEscape (c : Char) : Compact (serdeEscape c) := by
  rcases serdeEscape_cases c with ⟨e, he, hc⟩ | ⟨hplain, hc⟩ | ⟨hlt, hc⟩
  · rw [hc, compact_append]
    refine ⟨by decide +kernel, fun d hd => ?_⟩
    rw [String.toList_singleton, List.mem_singleton] at hd
    subst hd
    unfold jsonShort at he
    split at he
    case h_8 => exact absurd he (by simp)
    all_goals
      obtain rfl := Option.some.inj he
      decide
  · rw [hc]
    intro d hd
    rw [String.toList_singleton, List.mem_singleton] at hd
    subst hd
    exact not_lt.mp fun hlt => hplain (.inr (.inr hlt))
  · rw [hc, compact_append, compact_append]
    refine ⟨by decide +kernel, by decide +kernel, fun d hd => ?_⟩
    have hdigits : ∀ d < 16, 0x20 ≤ (Nat.digitChar d).toNat := by decide
    rw [String.toList_ofList] at hd
    rcases List.mem_pair.mp hd with rfl | rfl
    · exact hdigits _ (by omega)
    · exact hdigits _ (by omega)

theorem compact_serdeString (s : String) : Compact (serdeString s) :=
  compact_append.mpr ⟨by decide +kernel, compact_writeAll compact_serdeEscape (by decide +kernel) _⟩

end NakamotoNode.Foundations
