import Starlight.Lib.Utf16
import Starlight.Vm.JsString

/-!
# Positions in strings

The length of a string counts bytes. `charAt`, `charCodeAt` and `codePointAt` check their position against
it and then take it for one of UTF-16, `substring` counts in UTF-16, and `slice` and `substr` count
characters.
-/

namespace Starlight

/-! ### The functions -/

/-- What the functions return. -/
inductive Answer where
  | undefined
  | nan
  | number (n : ℕ)
  | text (s : List Char)
  deriving DecidableEq

def isLeadingSurrogate (value : ℕ) : Bool := 0xD800 ≤ value ∧ value ≤ 0xDBFF

def isTrailingSurrogate (value : ℕ) : Bool := 0xDC00 ≤ value ∧ value ≤ 0xDFFF

def codePointAt (string : List Char) (position : ℤ) : Option (ℕ × ℕ × Bool) :=
  let encoded := utf16 string
  let size := IntType.i32.cast encoded.length
  if position < 0 ∨ size ≤ position then none
  else encoded[asUsize position]?.bind fun first =>
    if !isLeadingSurrogate first && !isTrailingSurrogate first then some (first, 1, false)
    else if isTrailingSurrogate first ∨ position + 1 = size then some (first, 1, true)
    else encoded[asUsize position + 1]?.bind fun second =>
      if !isTrailingSurrogate second then some (first, 1, true)
      else some ((first - 0xD800) * 0x400 + (second - 0xDC00) + 0x10000, 2, false)

def JsString.lengthProperty (s : JsString) : ℤ := IntType.i32.cast s.len

/-- `string_char_at`, behind the conversions. A unit that is no character panics: `none`. -/
def stringCharAt (primitiveVal : List Char) (pos : ℤ) : Option Answer :=
  if pos < 0 ∨ IntType.i32.cast (utf8Length primitiveVal) ≤ pos then some .undefined
  else match (utf16 primitiveVal)[asUsize pos]? with
    | some utf16Val => if IsSurrogate utf16Val then none else some (.text [Char.ofNat utf16Val])
    | none => some (.text [])

def stringCodePointAt (primitiveVal : List Char) (pos : ℤ) : Answer :=
  if pos < 0 ∨ IntType.i32.cast (utf8Length primitiveVal) ≤ pos then .undefined
  else match codePointAt primitiveVal pos with
    | some (codePoint, _, _) => .number codePoint
    | none => .undefined

def stringCharCodeAt (primitiveVal : List Char) (pos : ℤ) : Answer :=
  if pos < 0 ∨ IntType.i32.cast (utf8Length primitiveVal) ≤ pos then .nan
  else match (utf16 primitiveVal)[asUsize pos]? with
    | some utf16Val => .number utf16Val
    | none => .nan

def stringSlice (primitiveVal : List Char) (start : ℤ) (end_ : Option ℤ) : List Char :=
  let length := IntType.i32.cast primitiveVal.length
  let end_ := end_.getD length
  let from_ := if start < 0 then max (IntType.i32.cast (length + start)) 0 else min start length
  let to_ := if end_ < 0 then max (IntType.i32.cast (length + end_)) 0 else min end_ length
  let span := max (IntType.i32.cast (to_ - from_)) 0
  (primitiveVal.drop (asUsize from_)).take (asUsize span)

def decodeErrorText (code : ℕ) : List Char := "unpaired surrogate found: ".toList ++ Nat.toDigits 16 code

/-- `string_substring`, which throws the text of the error when a pair of surrogates is cut. -/
def stringSubstring (primitiveVal : List Char) (start end_ : Option ℤ) : Except (List Char) (List Char) :=
  let length := IntType.i32.cast (utf16 primitiveVal).length
  let finalStart := min (max (start.getD 0) 0) length
  let finalEnd := min (max (end_.getD length) 0) length
  let from_ := asUsize (min finalStart finalEnd)
  let to_ := asUsize (max finalStart finalEnd)
  (decodeUtf16 (((utf16 primitiveVal).drop from_).take (asUsize (to_ - from_)))).mapError decodeErrorText

def stringSubstr (primitiveVal : List Char) (start end_ : Option ℤ) : List Char :=
  let length := IntType.i32.cast primitiveVal.length
  let start := start.getD 0
  let start := if start < 0 then max (IntType.i32.cast (length + start)) 0 else start
  let resultLength := min (max (end_.getD (2 ^ 31 - 1)) 0) (IntType.i32.cast (length - start))
  if resultLength ≤ 0 then [] else (primitiveVal.drop (asUsize start)).take (asUsize resultLength)

/-! ### The laws -/

def Answer.code : Answer → Answer
  | .text s => match utf16 s with
    | u :: _ => .number u
    | [] => .nan
  | _ => .nan

def firstUnit (codePoint : ℕ) : ℕ :=
  if codePoint < 0x10000 then codePoint else 0xD800 + (codePoint - 0x10000) / 0x400

section

variable (s : JsString) (i j n : ℤ)

def IsPosition : Prop := 0 ≤ i ∧ i < s.lengthProperty

/-- `charAt(i)` is `substring(i, i + 1)` and of length one within the length, and empty elsewhere. -/
def CharAtLaw : Prop :=
  (IsPosition s i → ∃ t : JsString, stringCharAt s.string (toI32 i) = some (.text t.string) ∧
    stringSubstring s.string (some (toI32 i)) (some (toI32 (i + 1))) = .ok t.string ∧
    t.lengthProperty = 1) ∧
  (¬ IsPosition s i → stringCharAt s.string (toI32 i) = some (.text []))

def CharCodeAtLaw : Prop :=
  ∃ a, stringCharAt s.string (toI32 i) = some a ∧ stringCharCodeAt s.string (toI32 i) = a.code

/-- `codePointAt(i)` is a code point just within the length, and `charCodeAt(i)` is its first unit. -/
def CodePointAtLaw : Prop :=
  (IsPosition s i ↔ ∃ n, stringCodePointAt s.string (toI32 i) = .number n) ∧
    ∀ n, stringCodePointAt s.string (toI32 i) = .number n →
      stringCharCodeAt s.string (toI32 i) = .number (firstUnit n)

/-- `slice(i, j)` is `substring(i, j)`. -/
def SliceSubstringLaw : Prop := 0 ≤ i → i ≤ j →
  stringSubstring s.string (some (toI32 i)) (some (toI32 j)) =
    .ok (stringSlice s.string (toI32 i) (some (toI32 j)))

/-- `slice(0, i)` and `slice(i)` are the two parts of the string. -/
def PartsLaw : Prop :=
  stringSlice s.string (toI32 0) (some (toI32 i)) ++ stringSlice s.string (toI32 i) none = s.string

/-- `substr(i, n)` is `slice(i, i + n)`. -/
def SubstrLaw : Prop := 0 ≤ i → 0 ≤ n →
  stringSubstr s.string (some (toI32 i)) (some (toI32 n)) =
    stringSlice s.string (toI32 i) (some (toI32 (i + n)))

end

/-! ### Positions of 32 bits -/

/-- What positions of 32 bits reach: the length of a longer list is negative. -/
def reached {α : Type*} (l : List α) : List α := if l.length < 2 ^ 31 then l else []

def part {α : Type*} (l : List α) (i j : ℤ) : List α := (l.drop i.toNat).take (j.toNat - i.toNat)

section

variable {α : Type*} {l : List α} {s : JsString} {i j n : ℤ}

theorem part_nil : part ([] : List α) i j = [] := by rw [part, List.drop_nil, List.take_nil]

theorem part_min (l : List α) (i j : ℕ) :
    (l.drop (min i l.length)).take (min j l.length - min i l.length) = (l.drop i).take (j - i) := by
  rcases Nat.le_total l.length i with hi | hi
  · rw [min_eq_right hi, List.drop_length, List.drop_of_length_le hi, List.take_nil, List.take_nil]
  · rw [min_eq_left hi, List.take_eq_take_iff, List.length_drop]
    omega

theorem part_asUsize (hl : l.length < 2 ^ 31) (hi : 0 ≤ i) :
    (l.drop (asUsize (min (toI32 i) l.length))).take
      (asUsize (max (min (toI32 j) l.length - min (toI32 i) l.length) 0)) = part l i j := by
  have hi32 := toI32_eq i
  have hj32 := toI32_eq j
  have hfrom : asUsize (min (toI32 i) l.length) = min i.toNat l.length := by
    rw [asUsize_of_nonneg (by omega) (by omega)]
    omega
  have hspan : asUsize (max (min (toI32 j) l.length - min (toI32 i) l.length) 0) =
      min j.toNat l.length - min i.toNat l.length := by
    rw [asUsize_of_nonneg (by omega) (by omega)]
    omega
  rw [hfrom, hspan, part_min]
  rfl

theorem drop_asUsize_of_neg {x : ℤ} (hx : x < 0) (hle : -2 ^ 32 ≤ x) (hl : l.length < 2 ^ 32) :
    l.drop (asUsize x) = [] := by
  have hsize := asUsize_of_neg hx hle
  exact List.drop_of_length_le (by omega)

theorem asUsize_max_i32_cast_lt (x : ℤ) : asUsize (max (IntType.i32.cast x) 0) < 2 ^ 31 := by
  have hrange : -2 ^ 31 ≤ IntType.i32.cast x ∧ IntType.i32.cast x < 2 ^ 31 := IntType.i32.inRange_cast x
  generalize IntType.i32.cast x = y at *
  rw [asUsize_of_nonneg (le_max_right _ _) (by omega)]
  omega

theorem JsString.length_utf16_lt (s : JsString) : (utf16 s.string).length < 2 ^ 32 :=
  (length_utf16_le s.string).trans_lt s.fits

theorem stringSlice_eq (s : JsString) (hi : 0 ≤ i) (hj : 0 ≤ j) :
    stringSlice s.string (toI32 i) (some (toI32 j)) = part (reached s.string) i j := by
  have hi32 := toI32_eq i
  have hj32 := toI32_eq j
  have hlength := i32_cast s.string.length s.length_lt
  unfold stringSlice
  dsimp only
  rw [Option.getD_some, if_neg (by omega), if_neg (by omega)]
  rcases Nat.lt_or_ge s.string.length (2 ^ 31) with hs | hs
  · rw [if_pos hs] at hlength
    rw [hlength, i32_cast_of_range (by omega) (by omega), part_asUsize hs hi, reached, if_pos hs]
  · rw [if_neg (Nat.not_lt.mpr hs)] at hlength
    have hn := s.length_lt
    rw [drop_asUsize_of_neg (by omega) (by omega) hn, List.take_nil, reached,
      if_neg (Nat.not_lt.mpr hs), part_nil]

theorem stringSubstring_eq (s : JsString) (hi : 0 ≤ i) (hij : i ≤ j) :
    stringSubstring s.string (some (toI32 i)) (some (toI32 j)) =
      (decodeUtf16 (part (reached (utf16 s.string)) i j)).mapError decodeErrorText := by
  have hi32 := toI32_eq i
  have hj32 := toI32_eq j
  have hi0 : 0 ≤ toI32 i := by omega
  have hij32 : toI32 i ≤ toI32 j := by omega
  have hn := s.length_utf16_lt
  have hlength := i32_cast (utf16 s.string).length hn
  have hle := min_le_min_right (IntType.i32.cast (utf16 s.string).length) hij32
  unfold stringSubstring
  dsimp only
  rw [Option.getD_some, Option.getD_some, max_eq_left hi0, max_eq_left (hi0.trans hij32),
    min_eq_left hle, max_eq_right hle]
  rcases Nat.lt_or_ge (utf16 s.string).length (2 ^ 31) with hs | hs
  · rw [if_pos hs] at hlength
    have hspan : (asUsize (min (toI32 j) (utf16 s.string).length) : ℤ) -
        asUsize (min (toI32 i) (utf16 s.string).length) =
          max (min (toI32 j) (utf16 s.string).length - min (toI32 i) (utf16 s.string).length) 0 := by
      rw [asUsize_of_nonneg (by omega) (by omega), asUsize_of_nonneg (by omega) (by omega)]
      omega
    rw [hlength, hspan, part_asUsize hs hi, reached, if_pos hs]
  · rw [if_neg (Nat.not_lt.mpr hs)] at hlength
    rw [drop_asUsize_of_neg (by omega) (by omega) hn, List.take_nil, reached,
      if_neg (Nat.not_lt.mpr hs), part_nil]

/-! ### `slice`, `substring` and `substr` -/

def SliceSubstringExact (s : JsString) (i j : ℤ) : Prop := 0 ≤ i → i ≤ j →
  utf16 (part (reached s.string) i j) = part (reached (utf16 s.string)) i j

theorem mapError_eq_ok_iff {ε ε' β : Type*} {f : ε → ε'} {x : Except ε β} {b : β} :
    x.mapError f = .ok b ↔ x = .ok b := by
  cases x with
  | error e => exact iff_of_false nofun nofun
  | ok a =>
    refine ⟨fun h => ?_, fun h => ?_⟩ <;>
    · obtain rfl := Except.ok.inj h
      rfl

theorem part_reached_subset {u : α} (h : u ∈ part (reached l) i j) : u ∈ l := by
  have hmem := List.mem_of_mem_drop (List.mem_of_mem_take h)
  unfold reached at hmem
  split at hmem
  · exact hmem
  · exact absurd hmem List.not_mem_nil

theorem sliceSubstringLaw_iff : SliceSubstringLaw s i j ↔ SliceSubstringExact s i j := by
  refine forall_congr' fun hi => forall_congr' fun hij => ?_
  rw [stringSlice_eq s hi (hi.trans hij), stringSubstring_eq s hi hij, mapError_eq_ok_iff,
    decodeUtf16_eq_ok_iff fun u hu => utf16_lt (part_reached_subset hu)]

theorem partsLaw_iff : PartsLaw s i ↔ s.string.length < 2 ^ 31 := by
  have hi32 := toI32_eq i
  have h0 : toI32 0 = 0 := toI32_eq 0
  have hlength := i32_cast s.string.length s.length_lt
  have hn := s.length_lt
  unfold PartsLaw
  rw [h0]
  rcases Nat.lt_or_ge s.string.length (2 ^ 31) with hs | hs
  · rw [if_pos hs] at hlength
    refine iff_of_true ?_ hs
    obtain ⟨m, hm, hcut⟩ : ∃ m : ℕ, m ≤ s.string.length ∧ (if toI32 i < 0 then
        max (IntType.i32.cast (s.string.length + toI32 i)) 0 else min (toI32 i) s.string.length) = m := by
      refine ⟨(if toI32 i < 0 then max (IntType.i32.cast (s.string.length + toI32 i)) 0
        else min (toI32 i) s.string.length).toNat, ?_, ?_⟩ <;>
      · split
        · rw [i32_cast_of_range (by omega) (by omega)]
          omega
        · omega
    have hbefore : stringSlice s.string 0 (some (toI32 i)) = s.string.take m := by
      unfold stringSlice
      dsimp only
      rw [Option.getD_some, hlength, if_neg (lt_irrefl _), hcut, min_eq_left (Int.natCast_nonneg _),
        sub_zero, i32_cast_of_range (by omega) (by omega), max_eq_left (Int.natCast_nonneg _)]
      rw [asUsize_of_nonneg le_rfl (by decide), asUsize_of_nonneg (Int.natCast_nonneg _) (by omega)]
      rfl
    have hafter : stringSlice s.string (toI32 i) none = s.string.drop m := by
      unfold stringSlice
      dsimp only
      rw [Option.getD_none, hlength, hcut, if_neg (by omega), min_self,
        i32_cast_of_range (by omega) (by omega), asUsize_of_nonneg (Int.natCast_nonneg _) (by omega),
        asUsize_of_nonneg (le_max_right _ _) (by omega)]
      refine List.take_of_length_le ?_
      rw [List.length_drop]
      omega
    rw [hbefore, hafter, List.take_append_drop]
  · rw [if_neg (Nat.not_lt.mpr hs)] at hlength
    refine iff_of_false (fun h => ?_) (Nat.not_lt.mpr hs)
    have hbefore : stringSlice s.string 0 (some (toI32 i)) = [] := by
      unfold stringSlice
      dsimp only
      rw [hlength, if_neg (lt_irrefl _), drop_asUsize_of_neg (by omega) (by omega) hn, List.take_nil]
    -- the other part has fewer characters than a number of 32 bits
    have hafter : (stringSlice s.string (toI32 i) none).length < 2 ^ 31 := by
      unfold stringSlice
      dsimp only
      exact (List.length_take_le _ _).trans_lt (asUsize_max_i32_cast_lt _)
    rw [hbefore, List.nil_append] at h
    rw [h] at hafter
    omega

/-- When `substr(i, n)` is `slice(i, i + n)`: for a string whose length in characters is not negative, for
no characters, and where the negative length does not overflow. -/
def SubstrExact (s : JsString) (i n : ℤ) : Prop := 0 ≤ i → 0 ≤ n →
  s.string.length < 2 ^ 31 ∨ n = 0 ∨ 2 ^ 31 + min i (2 ^ 31 - 1) ≤ s.string.length

theorem stringSubstr_eq (s : JsString) (hi : 0 ≤ i) (hn : 0 ≤ n) {resultLength : ℤ}
    (hr : min (toI32 n) (IntType.i32.cast (IntType.i32.cast s.string.length - toI32 i)) = resultLength) :
    stringSubstr s.string (some (toI32 i)) (some (toI32 n)) =
      if resultLength ≤ 0 then [] else (s.string.drop (asUsize (toI32 i))).take (asUsize resultLength) := by
  have hi32 := toI32_eq i
  have hn32 := toI32_eq n
  have hi0 : ¬ toI32 i < 0 := by omega
  have hn0 : 0 ≤ toI32 n := by omega
  unfold stringSubstr
  dsimp only
  rw [Option.getD_some, Option.getD_some, if_neg hi0, max_eq_left hn0, hr]

theorem stringSubstr_of_lt (hs : s.string.length < 2 ^ 31) (hi : 0 ≤ i) (hn : 0 ≤ n) :
    stringSubstr s.string (some (toI32 i)) (some (toI32 n)) = part s.string i (i + n) := by
  have hi32 := toI32_eq i
  have hn32 := toI32_eq n
  have hlength := i32_cast s.string.length s.length_lt
  rw [if_pos hs] at hlength
  have hcast := @i32_cast_of_range (s.string.length - toI32 i) (by omega) (by omega)
  rw [stringSubstr_eq s hi hn (by rw [hlength, hcast]), part]
  rcases lt_or_ge i s.string.length with hlt | hge
  · have hi' : asUsize (toI32 i) = i.toNat := by
      rw [asUsize_of_nonneg (by omega) (by omega)]
      omega
    rw [hi']
    split
    · have hzero : (i + n).toNat - i.toNat = 0 := by omega
      rw [hzero, List.take_zero]
    · rw [asUsize_of_nonneg (by omega) (by omega), List.take_eq_take_iff, List.length_drop]
      omega
  · rw [if_pos (by omega), List.drop_of_length_le (by omega), List.take_nil]

theorem stringSubstr_eq_nil_iff_of_ge (hs : 2 ^ 31 ≤ s.string.length) (hi : 0 ≤ i) (hn : 0 ≤ n) :
    stringSubstr s.string (some (toI32 i)) (some (toI32 n)) = [] ↔
      n = 0 ∨ 2 ^ 31 + min i (2 ^ 31 - 1) ≤ s.string.length := by
  have hi32 := toI32_eq i
  have hn32 := toI32_eq n
  have hlt := s.length_lt
  have hlength := i32_cast s.string.length hlt
  rw [if_neg (Nat.not_lt.mpr hs)] at hlength
  by_cases hfar : 2 ^ 31 + min i (2 ^ 31 - 1) ≤ s.string.length
  · have hcast := @i32_cast_of_range (s.string.length - 2 ^ 32 - toI32 i) (by omega) (by omega)
    rw [stringSubstr_eq s hi hn (by rw [hlength, hcast]), if_pos (by omega)]
    exact iff_of_true rfl (.inr hfar)
  · -- the difference wraps around
    have hcast : IntType.i32.cast (s.string.length - 2 ^ 32 - toI32 i) = s.string.length - toI32 i := by
      unfold IntType.cast
      simp only [IntType.signed, IntType.bits, if_true, Int.bmod_def]
      omega
    rw [stringSubstr_eq s hi hn (by rw [hlength, hcast]), or_iff_left hfar]
    by_cases hzero : n = 0
    · rw [if_pos (by omega)]
      exact iff_of_true rfl hzero
    · rw [if_neg (by omega)]
      refine iff_of_false (fun h => ?_) hzero
      have hlen := congrArg List.length h
      rw [List.length_take, List.length_drop, asUsize_of_nonneg (by omega) (by omega),
        asUsize_of_nonneg (by omega) (by omega), List.length_nil] at hlen
      omega

theorem substrLaw_iff : SubstrLaw s i n ↔ SubstrExact s i n := by
  refine forall_congr' fun hi => forall_congr' fun hn => ?_
  rw [stringSlice_eq s hi (add_nonneg hi hn), reached]
  rcases Nat.lt_or_ge s.string.length (2 ^ 31) with hs | hs
  · rw [if_pos hs]
    exact iff_of_true (stringSubstr_of_lt hs hi hn) (.inl hs)
  · rw [if_neg (Nat.not_lt.mpr hs), part_nil, or_iff_right (Nat.not_lt.mpr hs)]
    exact stringSubstr_eq_nil_iff_of_ge hs hi hn

/-! ### `charAt`, `charCodeAt` and `codePointAt` -/

theorem lengthProperty_eq (s : JsString) :
    s.lengthProperty = if s.len < 2 ^ 31 then (s.len : ℤ) else s.len - 2 ^ 32 := i32_cast s.len s.fits

theorem lengthProperty_of_lt (hs : s.len < 2 ^ 31) : s.lengthProperty = s.len := by
  rw [lengthProperty_eq, if_pos hs]

theorem lengthProperty_of_ge (hs : 2 ^ 31 ≤ s.len) : s.lengthProperty = s.len - 2 ^ 32 := by
  rw [lengthProperty_eq, if_neg (Nat.not_lt.mpr hs)]

theorem isPosition_iff : IsPosition s i ↔ s.len < 2 ^ 31 ∧ 0 ≤ i ∧ i < s.len := by
  have hfits : s.len < 2 ^ 32 := s.fits
  unfold IsPosition
  rw [lengthProperty_eq]
  split <;> omega

theorem guard_iff :
    (toI32 i < 0 ∨ IntType.i32.cast (utf8Length s.string) ≤ toI32 i) ↔ ¬ IsPosition s i := by
  have hi32 := toI32_eq i
  have hrange : IntType.i32.cast s.len < 2 ^ 31 := (IntType.i32.inRange_cast s.len).2
  change (toI32 i < 0 ∨ IntType.i32.cast s.len ≤ toI32 i) ↔ ¬ (0 ≤ i ∧ i < IntType.i32.cast s.len)
  generalize IntType.i32.cast s.len = length at *
  omega

theorem toI32_of_isPosition (h : IsPosition s i) : toI32 i = i := by
  have hi32 := toI32_eq i
  obtain ⟨hs, hi, hlt⟩ := isPosition_iff.mp h
  omega

theorem asUsize_of_isPosition (h : IsPosition s i) : asUsize i = i.toNat := by
  obtain ⟨hs, hi, hlt⟩ := isPosition_iff.mp h
  exact asUsize_of_nonneg hi (by omega)

theorem length_utf16_of_isPosition (h : IsPosition s i) : (utf16 s.string).length < 2 ^ 31 :=
  (length_utf16_le s.string).trans_lt (isPosition_iff.mp h).1

theorem stringCharAt_of_not (h : ¬ IsPosition s i) :
    stringCharAt s.string (toI32 i) = some .undefined := if_pos (guard_iff.mpr h)

theorem stringCharAt_of_isPosition (h : IsPosition s i) : stringCharAt s.string (toI32 i) =
    match (utf16 s.string)[i.toNat]? with
    | some u => if IsSurrogate u then none else some (.text [Char.ofNat u])
    | none => some (.text []) := by
  have hguard := mt guard_iff.mp (not_not_intro h)
  rw [toI32_of_isPosition h] at hguard ⊢
  rw [stringCharAt, if_neg hguard, asUsize_of_isPosition h]

theorem stringCharCodeAt_of_not (h : ¬ IsPosition s i) :
    stringCharCodeAt s.string (toI32 i) = .nan := if_pos (guard_iff.mpr h)

theorem stringCharCodeAt_of_isPosition (h : IsPosition s i) : stringCharCodeAt s.string (toI32 i) =
    match (utf16 s.string)[i.toNat]? with
    | some u => .number u
    | none => .nan := by
  have hguard := mt guard_iff.mp (not_not_intro h)
  rw [toI32_of_isPosition h] at hguard ⊢
  rw [stringCharCodeAt, if_neg hguard, asUsize_of_isPosition h]

/-- When `charAt(i)` is right: at a position of the string whose unit of that number is ASCII. -/
def CharAtExact (s : JsString) (i : ℤ) : Prop :=
  IsPosition s i ∧ ∃ u, (utf16 s.string)[i.toNat]? = some u ∧ u < 128

/-- When `charCodeAt(i)` is right: where there is no surrogate. -/
def CharCodeAtExact (s : JsString) (i : ℤ) : Prop :=
  IsPosition s i → ∀ u, (utf16 s.string)[i.toNat]? = some u → ¬ IsSurrogate u

/-- When `codePointAt(i)` is right: where there is a unit. -/
def CodePointAtExact (s : JsString) (i : ℤ) : Prop :=
  IsPosition s i → i < (utf16 s.string).length

theorem part_utf16_of_getElem? (h : IsPosition s i) {u : ℕ} (hu : (utf16 s.string)[i.toNat]? = some u) :
    part (reached (utf16 s.string)) i (i + 1) = [u] := by
  obtain ⟨-, hi, -⟩ := isPosition_iff.mp h
  obtain ⟨hlt, hget⟩ := List.getElem?_eq_some_iff.mp hu
  have hone : (i + 1).toNat - i.toNat = 1 := by omega
  rw [reached, if_pos (length_utf16_of_isPosition h), part, hone, List.drop_eq_getElem_cons hlt, hget]
  rfl

theorem stringSubstring_of_getElem? (h : IsPosition s i) {u : ℕ}
    (hu : (utf16 s.string)[i.toNat]? = some u) (hsurrogate : ¬ IsSurrogate u) :
    stringSubstring s.string (some (toI32 i)) (some (toI32 (i + 1))) = .ok [Char.ofNat u] := by
  obtain ⟨-, hi, -⟩ := isPosition_iff.mp h
  rw [stringSubstring_eq s hi (by omega), part_utf16_of_getElem? h hu, decodeUtf16, if_neg hsurrogate]
  rfl

theorem charAtLaw_iff : CharAtLaw s i ↔ CharAtExact s i := by
  unfold CharAtLaw CharAtExact
  by_cases h : IsPosition s i
  · rw [and_iff_left (fun hnot => absurd h hnot), and_iff_right h, stringCharAt_of_isPosition h]
    constructor
    · intro hlaw
      obtain ⟨t, hat, -, hlen⟩ := hlaw h
      cases hu : (utf16 s.string)[i.toNat]? with
      | none =>
        rw [hu] at hat
        obtain ht : [] = t.string := by injection Option.some.inj hat
        rw [JsString.lengthProperty, JsString.len, ← ht] at hlen
        exact absurd hlen (by decide)
      | some u =>
        rw [hu] at hat
        dsimp only at hat
        split at hat
        · cases hat
        · next hsurrogate =>
          obtain ht : [Char.ofNat u] = t.string := by injection Option.some.inj hat
          refine ⟨u, rfl, ?_⟩
          have hlt := utf16_lt (List.mem_of_getElem? hu)
          have hcode : (Char.ofNat u).toNat = u :=
            toNat_ofNat_of_valid (by unfold IsSurrogate at hsurrogate; omega)
          rw [JsString.lengthProperty, JsString.len, ← ht, utf8Length_cons, utf8Length_nil, utf8Size_eq,
            hcode] at hlen
          by_contra hge
          rw [if_neg (by omega)] at hlen
          split_ifs at hlen <;> exact absurd hlen (by decide)
    · rintro ⟨u, hu, hlt⟩ -
      have hsurrogate : ¬ IsSurrogate u := fun hs => by
        have hlow := hs.1
        omega
      have hcode : (Char.ofNat u).toNat = u := toNat_ofNat_of_valid (.inl (by omega))
      have hsize : (Char.ofNat u).utf8Size = 1 := by
        rw [utf8Size_eq, hcode, if_pos (by omega)]
      have hone : utf8Length [Char.ofNat u] = 1 := hsize
      refine ⟨⟨[Char.ofNat u], by rw [hone]; decide⟩, ?_, stringSubstring_of_getElem? h hu hsurrogate, ?_⟩
      · rw [hu]
        exact if_neg hsurrogate
      · rw [JsString.lengthProperty, JsString.len, hone]
        decide
  · refine iff_of_false (fun hlaw => ?_) fun hexact => h hexact.1
    have hempty := hlaw.2 h
    rw [stringCharAt_of_not h] at hempty
    cases hempty

theorem charCodeAtLaw_iff : CharCodeAtLaw s i ↔ CharCodeAtExact s i := by
  unfold CharCodeAtLaw CharCodeAtExact
  by_cases h : IsPosition s i
  · rw [stringCharAt_of_isPosition h, stringCharCodeAt_of_isPosition h]
    cases hu : (utf16 s.string)[i.toNat]? with
    | none => exact iff_of_true ⟨_, rfl, rfl⟩ fun _ u hu => nomatch hu
    | some u =>
      dsimp only
      by_cases hsurrogate : IsSurrogate u
      · rw [if_pos hsurrogate]
        exact iff_of_false (fun ⟨a, ha, _⟩ => nomatch ha) fun hexact => hexact h u rfl hsurrogate
      · rw [if_neg hsurrogate]
        refine iff_of_true ⟨_, rfl, ?_⟩ fun _ v hv => Option.some.inj hv ▸ hsurrogate
        have hchar := utf16Char_ofNat (utf16_lt (List.mem_of_getElem? hu)) hsurrogate
        rw [Answer.code, utf16_cons, hchar]
        rfl
  · refine iff_of_true ⟨_, stringCharAt_of_not h, ?_⟩ fun h' => absurd h' h
    exact stringCharCodeAt_of_not h

theorem exists_codePointAt (h : IsPosition s i) {u : ℕ} (hu : (utf16 s.string)[i.toNat]? = some u) :
    ∃ codePoint size unpaired, codePointAt s.string i = some (codePoint, size, unpaired) ∧
      firstUnit codePoint = u := by
  obtain ⟨-, hi, -⟩ := isPosition_iff.mp h
  have hlen := length_utf16_of_isPosition h
  have hlt := utf16_lt (List.mem_of_getElem? hu)
  obtain ⟨hat, -⟩ := List.getElem?_eq_some_iff.mp hu
  have hsize := @i32_cast_of_range (utf16 s.string).length (by omega) (by omega)
  have hfirst : firstUnit u = u := if_pos hlt
  unfold codePointAt
  dsimp only
  rw [hsize, if_neg (by omega), asUsize_of_isPosition h, hu, Option.bind_some]
  split
  · exact ⟨u, 1, false, rfl, hfirst⟩
  next hplain =>
  split
  · exact ⟨u, 1, true, rfl, hfirst⟩
  next hnext =>
  rw [not_or] at hnext
  have hat' : i.toNat + 1 < (utf16 s.string).length := by
    have := hnext.2
    omega
  rw [List.getElem?_eq_getElem hat', Option.bind_some]
  split
  · exact ⟨u, 1, true, rfl, hfirst⟩
  next htrail =>
  -- a leading surrogate and a trailing one
  simp only [isLeadingSurrogate, isTrailingSurrogate, Bool.and_eq_true, Bool.not_eq_true',
    decide_eq_false_iff_not, decide_eq_true_eq] at hplain hnext htrail
  refine ⟨_, _, _, rfl, ?_⟩
  rw [firstUnit, if_neg (by omega)]
  omega

theorem codePointAtLaw_iff : CodePointAtLaw s i ↔ CodePointAtExact s i := by
  unfold CodePointAtLaw CodePointAtExact
  by_cases h : IsPosition s i
  · obtain ⟨-, hi, -⟩ := isPosition_iff.mp h
    have hguard := mt guard_iff.mp (not_not_intro h)
    have hrun : stringCodePointAt s.string (toI32 i) = match codePointAt s.string i with
        | some (codePoint, _, _) => .number codePoint
        | none => .undefined := by
      rw [toI32_of_isPosition h] at hguard ⊢
      rw [stringCodePointAt, if_neg hguard]
    rw [hrun, stringCharCodeAt_of_isPosition h, iff_true_intro h, true_iff, true_imp_iff]
    cases hu : (utf16 s.string)[i.toNat]? with
    | none =>
      have hle := List.getElem?_eq_none_iff.mp hu
      have hsize := @i32_cast_of_range (utf16 s.string).length (by omega)
        (by have := length_utf16_of_isPosition h; omega)
      have hnone : codePointAt s.string i = none := by
        unfold codePointAt
        dsimp only
        rw [hsize, if_pos (.inr (by omega))]
      rw [hnone]
      exact iff_of_false (fun ⟨⟨n, hn⟩, _⟩ => nomatch hn) (by omega)
    | some u =>
      obtain ⟨hat, -⟩ := List.getElem?_eq_some_iff.mp hu
      obtain ⟨codePoint, size, unpaired, hpoint, hfirst⟩ := exists_codePointAt h hu
      rw [hpoint]
      refine iff_of_true ⟨⟨codePoint, rfl⟩, fun n hn => ?_⟩ (by omega)
      injection hn with hn
      rw [← hn, hfirst]
  · have hrun : stringCodePointAt s.string (toI32 i) = .undefined := if_pos (guard_iff.mpr h)
    rw [hrun]
    refine iff_of_true ⟨iff_of_false h fun ⟨n, hn⟩ => ?_, fun n hn => ?_⟩ fun h' => absurd h' h
    · cases hn
    · cases hn

/-- **The laws between the functions of positions.** -/
theorem string_positions_iff (s : JsString) (i j n : ℤ) :
    (CharAtLaw s i ↔ CharAtExact s i) ∧ (CharCodeAtLaw s i ↔ CharCodeAtExact s i) ∧
    (CodePointAtLaw s i ↔ CodePointAtExact s i) ∧ (SliceSubstringLaw s i j ↔ SliceSubstringExact s i j) ∧
    (PartsLaw s i ↔ s.string.length < 2 ^ 31) ∧ (SubstrLaw s i n ↔ SubstrExact s i n) :=
  ⟨charAtLaw_iff, charCodeAtLaw_iff, codePointAtLaw_iff, sliceSubstringLaw_iff, partsLaw_iff, substrLaw_iff⟩

/-- `"😀".charAt(0)` panics, and `"😀".substring(0, 1)` throws where `"😀".slice(0, 1)` is the string. -/
theorem not_string_positions :
    ¬ CharAtLaw ⟨['😀'], by decide⟩ 0 ∧ ¬ SliceSubstringLaw ⟨['😀'], by decide⟩ 0 1 := by
  constructor
  · intro h
    obtain ⟨t, hat, -⟩ := h.1 (isPosition_iff.mpr (by decide))
    have hpanic : stringCharAt ['😀'] 0 = none := by decide
    rw [show toI32 0 = 0 from toI32_eq 0, hpanic] at hat
    cases hat
  · exact fun h => absurd (sliceSubstringLaw_iff.mp h le_rfl zero_le_one) (by decide)

end

end Starlight
