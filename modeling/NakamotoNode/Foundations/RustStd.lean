import Mathlib.Algebra.Order.Ring.Int
import NakamotoNode.Foundations.Exec

/-! # The parts of Rust's standard library the node uses

Strings are sequences of Unicode scalar values, sliced at byte offsets. `i64` arithmetic is exact
inside its range; outside it panics in a debug build and wraps in a release build. -/

namespace NakamotoNode.Foundations.RustStd
set_option autoImplicit false

/-! ## `str` -/

/-- `s.split(sep)`: the pieces between the separators, empty ones included. -/
def split (sep : Char) (s : String) : List String := (s.toList.splitOn sep).map String.ofList

def trimStartMatches (c : Char) (s : String) : String :=
  String.ofList (s.toList.dropWhile fun d => d = c)

def startsWith (s pat : String) : Bool := pat.toList.isPrefixOf s.toList

/-- The text after the first `n` bytes; `none` past the end or inside a character. -/
def dropBytes : ℕ → List Char → Option (List Char)
  | 0, cs => some cs
  | _ + 1, [] => none
  | n + 1, c :: cs => if c.utf8Size ≤ n + 1 then dropBytes (n + 1 - c.utf8Size) cs else none

/-- The first `n` bytes of a text; `none` past the end or inside a character. -/
def takeBytes : ℕ → List Char → Option (List Char)
  | 0, _ => some []
  | _ + 1, [] => none
  | n + 1, c :: cs =>
      if c.utf8Size ≤ n + 1 then (takeBytes (n + 1 - c.utf8Size) cs).map (c :: ·) else none

/-- `s.get(a..b)`. -/
def sliceGet (s : String) (a b : ℕ) : Option String :=
  if a ≤ b then
    ((dropBytes a s.toList).bind (takeBytes (b - a))).map String.ofList
  else none

theorem utf8ByteSize_ofList_cons (c : Char) (l : List Char) :
    (String.ofList (c :: l)).utf8ByteSize = c.utf8Size + (String.ofList l).utf8ByteSize := by
  have hcons : String.ofList (c :: l) = String.singleton c ++ String.ofList l :=
    String.toList_inj.mp (by simp)
  rw [hcons, String.utf8ByteSize_append, String.utf8ByteSize_singleton]

theorem takeBytes_eq_some : ∀ {n : ℕ} {l t : List Char}, takeBytes n l = some t ↔
    ∃ rest, l = t ++ rest ∧ (String.ofList t).utf8ByteSize = n
  | 0, l, t => by
      rw [takeBytes]
      constructor
      · intro h
        obtain rfl := Option.some.inj h
        exact ⟨l, rfl, rfl⟩
      · rintro ⟨rest, rfl, ht⟩
        cases t with
        | nil => rfl
        | cons c t =>
          have := c.utf8Size_pos
          rw [utf8ByteSize_ofList_cons] at ht
          omega
  | n + 1, [], t => by
      refine iff_of_false (by simp [takeBytes]) ?_
      rintro ⟨rest, hnil, ht⟩
      obtain ⟨rfl, -⟩ := List.append_eq_nil_iff.mp hnil.symm
      exact absurd ht (by simp)
  | n + 1, c :: l, t => by
      rw [takeBytes]
      constructor
      · intro h
        split at h
        · next hle =>
          obtain ⟨t', ht', rfl⟩ := Option.map_eq_some_iff.mp h
          obtain ⟨rest, rfl, hsize⟩ := takeBytes_eq_some.mp ht'
          refine ⟨rest, rfl, ?_⟩
          rw [utf8ByteSize_ofList_cons]
          omega
        · exact absurd h (by simp)
      · rintro ⟨rest, heq, ht⟩
        cases t with
        | nil => exact absurd ht (by simp)
        | cons d t =>
          obtain ⟨rfl, rfl⟩ := List.cons.inj heq
          rw [utf8ByteSize_ofList_cons] at ht
          rw [if_pos (by omega), Option.map_eq_some_iff]
          exact ⟨t, takeBytes_eq_some.mpr ⟨rest, rfl, by omega⟩, rfl⟩

theorem dropBytes_eq_some : ∀ {n : ℕ} {l r : List Char}, dropBytes n l = some r ↔
    ∃ t, l = t ++ r ∧ (String.ofList t).utf8ByteSize = n
  | 0, l, r => by
      rw [dropBytes]
      constructor
      · intro h
        obtain rfl := Option.some.inj h
        exact ⟨[], rfl, rfl⟩
      · rintro ⟨t, rfl, ht⟩
        cases t with
        | nil => rfl
        | cons c t =>
          have := c.utf8Size_pos
          rw [utf8ByteSize_ofList_cons] at ht
          omega
  | n + 1, [], r => by
      refine iff_of_false (by simp [dropBytes]) ?_
      rintro ⟨t, hnil, ht⟩
      obtain ⟨rfl, -⟩ := List.append_eq_nil_iff.mp hnil.symm
      exact absurd ht (by simp)
  | n + 1, c :: l, r => by
      rw [dropBytes]
      constructor
      · intro h
        split at h
        · next hle =>
          obtain ⟨t, rfl, hsize⟩ := dropBytes_eq_some.mp h
          refine ⟨c :: t, rfl, ?_⟩
          rw [utf8ByteSize_ofList_cons]
          omega
        · exact absurd h (by simp)
      · rintro ⟨t, heq, ht⟩
        cases t with
        | nil => exact absurd ht (by simp)
        | cons d t =>
          obtain ⟨rfl, rfl⟩ := List.cons.inj heq
          rw [utf8ByteSize_ofList_cons] at ht
          rw [if_pos (by omega)]
          exact dropBytes_eq_some.mpr ⟨t, rfl, by omega⟩

/-- A slice is there just when its ends are between characters. -/
theorem sliceGet_eq_some {s t : String} {a b : ℕ} (hab : a ≤ b) : sliceGet s a b = some t ↔
    ∃ before after, s = before ++ t ++ after ∧ before.utf8ByteSize = a ∧ t.utf8ByteSize = b - a := by
  rw [sliceGet, if_pos hab, Option.map_eq_some_iff]
  constructor
  · rintro ⟨l, hl, rfl⟩
    obtain ⟨r, hdrop, htake⟩ := Option.bind_eq_some_iff.mp hl
    obtain ⟨before, hbefore, hsize⟩ := dropBytes_eq_some.mp hdrop
    obtain ⟨after, rfl, hsize'⟩ := takeBytes_eq_some.mp htake
    refine ⟨String.ofList before, String.ofList after, String.toList_inj.mp ?_, hsize, hsize'⟩
    simp [hbefore]
  · rintro ⟨before, after, rfl, hsize, hsize'⟩
    refine ⟨t.toList, Option.bind_eq_some_iff.mpr ⟨t.toList ++ after.toList,
      dropBytes_eq_some.mpr ⟨before.toList, ?_, ?_⟩, takeBytes_eq_some.mpr ⟨after.toList, rfl, ?_⟩⟩, ?_⟩
    · simp
    · rw [String.ofList_toList, hsize]
    · rw [String.ofList_toList, hsize']
    · exact String.ofList_toList

theorem utf8ByteSize_of_ascii {l : List Char} (h : ∀ c ∈ l, c.val ≤ 127) :
    (String.ofList l).utf8ByteSize = l.length := by
  induction l with
  | nil => rfl
  | cons c l ih =>
    have hc : c.utf8Size = 1 := Char.utf8Size_eq_one_iff.mpr (h c (by simp))
    rw [utf8ByteSize_ofList_cons, hc, ih fun d hd => h d (by simp [hd]), List.length_cons, Nat.add_comm]

/-- In an ASCII text bytes are characters. -/
theorem sliceGet_of_ascii {s : String} (h : ∀ c ∈ s.toList, c.val ≤ 127) {a b : ℕ} (hab : a ≤ b)
    (hb : b ≤ s.toList.length) :
    sliceGet s a b = some (String.ofList ((s.toList.drop a).take (b - a))) := by
  refine (sliceGet_eq_some hab).mpr ⟨String.ofList (s.toList.take a),
    String.ofList ((s.toList.drop a).drop (b - a)), String.toList_inj.mp ?_, ?_, ?_⟩
  · simp only [String.toList_append, String.toList_ofList]
    rw [List.append_assoc, List.take_append_drop, List.take_append_drop]
  · rw [utf8ByteSize_of_ascii fun c hc => h c (List.mem_of_mem_take hc), List.length_take]
    omega
  · rw [utf8ByteSize_of_ascii fun c hc => h c (List.mem_of_mem_drop (List.mem_of_mem_take hc)),
      List.length_take, List.length_drop]
    omega

theorem sliceGet_eq_none {s : String} (h : ∀ c ∈ s.toList, c.val ≤ 127) {a b : ℕ} (hab : a ≤ b)
    (hb : s.toList.length < b) : sliceGet s a b = none := by
  rw [Option.eq_none_iff_forall_ne_some]
  intro t ht
  obtain ⟨before, after, rfl, hbefore, hsize⟩ := (sliceGet_eq_some hab).mp ht
  rw [← String.ofList_toList (s := before), utf8ByteSize_of_ascii fun c hc => h c (by simp [hc])] at hbefore
  rw [← String.ofList_toList (s := t), utf8ByteSize_of_ascii fun c hc => h c (by simp [hc])] at hsize
  simp only [String.toList_append, List.length_append] at hb
  omega

/-! ## `i64` -/

/-- The values of an `i64`. -/
def InI64 (v : ℤ) : Prop := -2 ^ 63 ≤ v ∧ v < 2 ^ 63

instance (v : ℤ) : Decidable (InI64 v) := inferInstanceAs (Decidable (_ ∧ _))

def digitValue (c : Char) : Option ℕ :=
  if '0' ≤ c ∧ c ≤ '9' then some (c.toNat - '0'.toNat) else none

def parseDigits : List Char → ℕ → Option ℕ
  | [], acc => some acc
  | c :: cs, acc => (digitValue c).bind fun d => parseDigits cs (10 * acc + d)

/-- One digit or more. -/
def parseUnsigned (cs : List Char) : Option ℕ :=
  if cs = [] then none else parseDigits cs 0

/-- `s.parse::<i64>()`: an optional sign and at least one decimal digit, inside the range. -/
def parseI64 (s : String) : Option ℤ :=
  let value : Option ℤ :=
    match s.toList with
    | '+' :: ds => (parseUnsigned ds).map fun n => (n : ℤ)
    | '-' :: ds => (parseUnsigned ds).map fun n => -(n : ℤ)
    | ds => (parseUnsigned ds).map fun n => (n : ℤ)
  value.filter fun v => InI64 v

/-- Cargo's build profiles: `debug` checks integer overflow, `release` wraps. -/
inductive Profile where
  | debug
  | release
  deriving DecidableEq, Repr

/-- The result of an `i64` operation whose exact value is `v`. -/
def i64 {ε : Type} (profile : Profile) (overflow : ε) (v : ℤ) : Exec ε ℤ :=
  if InI64 v then .ok v
  else match profile with
    | .debug => Exec.panic overflow
    | .release => .ok (v.bmod (2 ^ 64))

/-- The result of a `u64` addition whose exact value is `v`. -/
def u64 {ε : Type} (profile : Profile) (overflow : ε) (v : ℕ) : Exec ε ℕ :=
  if v < 2 ^ 64 then .ok v
  else match profile with
    | .debug => Exec.panic overflow
    | .release => .ok (v % 2 ^ 64)

section I64
variable {ε : Type} {overflow : ε}

theorem i64_of_inI64 (profile : Profile) {v : ℤ} (h : InI64 v) :
    i64 profile overflow v = .ok v := by
  simp [i64, h]

theorem i64_debug_eq_ok {v w : ℤ} (h : i64 .debug overflow v = .ok w) : w = v ∧ InI64 v := by
  unfold i64 at h
  split at h
  · next hv => exact ⟨(Except.ok.inj h).symm, hv⟩
  · exact absurd h (by simp)

theorem i64_sat (profile : Profile) (overflow : ε) (v : ℤ) :
    Exec.Sat (i64 profile overflow v) (fun _ => True)
      (fun e => profile = .debug ∧ e = overflow) := by
  unfold i64
  split
  · trivial
  · cases profile with
    | debug => exact ⟨rfl, rfl⟩
    | release => trivial

theorem i64_release (overflow : ε) (v : ℤ) : ∃ w, i64 .release overflow v = .ok w := by
  unfold i64
  split <;> exact ⟨_, rfl⟩

theorem i64_ne_outOfFuel (profile : Profile) (v : ℤ) :
    i64 profile overflow v ≠ Exec.outOfFuel := by
  unfold i64
  split
  · simp
  · cases profile <;> simp

end I64

/-! ## Iterators -/

/-- `iter().max_by(cmp)`: the last of the greatest elements. -/
def maxBy {α : Type} (cmp : α → α → Ordering) : List α → Option α
  | [] => none
  | x :: xs => some (xs.foldl (fun m y => if cmp m y = .gt then m else y) x)

theorem foldl_max_mem {α : Type} (cmp : α → α → Ordering) (xs : List α) (x : α) :
    xs.foldl (fun m y => if cmp m y = .gt then m else y) x ∈ x :: xs := by
  induction xs generalizing x with
  | nil => simp
  | cons y ys ih =>
    rw [List.foldl_cons]
    split
    · have := ih x
      simp only [List.mem_cons] at this ⊢
      tauto
    · have := ih y
      simp only [List.mem_cons] at this ⊢
      tauto

theorem maxBy_mem {α : Type} {cmp : α → α → Ordering} {l : List α} {m : α}
    (h : maxBy cmp l = some m) : m ∈ l := by
  cases l with
  | nil => simp [maxBy] at h
  | cons x xs =>
    obtain rfl := Option.some.inj h
    exact foldl_max_mem cmp xs x

end NakamotoNode.Foundations.RustStd
