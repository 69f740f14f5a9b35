import Mathlib.Data.List.Infix

/-!
# Text in characters and bytes

A text is the list of its characters. In memory it is UTF-8; a position between two characters is the number
of bytes before it, and a text is cut or searched at these positions only. The bytes of a character start
with one that is not inside any character, so that a text that is not empty occurs in the bytes where it
occurs in the characters.
-/

namespace Starlight

/-- The bytes of a text. -/
def utf8 (s : List Char) : List UInt8 := s.flatMap String.utf8EncodeChar

/-- The number of bytes of a text. -/
def utf8Length : List Char → ℕ
  | [] => 0
  | c :: s => c.utf8Size + utf8Length s

/-- Every character is one byte. -/
def IsAscii (s : List Char) : Prop := ∀ c ∈ s, c.utf8Size = 1

instance (s : List Char) : Decidable (IsAscii s) := inferInstanceAs (Decidable (∀ c ∈ s, c.utf8Size = 1))

section

variable {s t u v : List Char} {b i k : ℕ}

@[simp] theorem utf8Length_nil : utf8Length [] = 0 := rfl

@[simp] theorem utf8Length_cons (c : Char) (s : List Char) :
    utf8Length (c :: s) = c.utf8Size + utf8Length s := rfl

@[simp] theorem utf8Length_append (u v : List Char) :
    utf8Length (u ++ v) = utf8Length u + utf8Length v := by
  induction u with
  | nil => exact (Nat.zero_add _).symm
  | cons c u ih => rw [List.cons_append, utf8Length_cons, utf8Length_cons, ih, Nat.add_assoc]

@[simp] theorem length_utf8 (s : List Char) : (utf8 s).length = utf8Length s := by
  induction s with
  | nil => rfl
  | cons c s ih =>
    rw [utf8, List.flatMap_cons, List.length_append, String.length_utf8EncodeChar, utf8Length_cons, ← ih]
    rfl

theorem utf8_append (u v : List Char) : utf8 (u ++ v) = utf8 u ++ utf8 v := List.flatMap_append

theorem length_le_utf8Length (s : List Char) : s.length ≤ utf8Length s := by
  induction s with
  | nil => exact le_rfl
  | cons c s ih =>
    have hc := c.utf8Size_pos
    rw [List.length_cons, utf8Length_cons]
    omega

/-- A text has as many bytes as characters just when it is ASCII. -/
theorem utf8Length_eq_length_iff : utf8Length s = s.length ↔ IsAscii s := by
  induction s with
  | nil => exact iff_of_true rfl fun _ h => absurd h List.not_mem_nil
  | cons c s ih =>
    have hc := c.utf8Size_pos
    have hle := length_le_utf8Length s
    have hcons : IsAscii (c :: s) ↔ c.utf8Size = 1 ∧ IsAscii s := List.forall_mem_cons
    rw [hcons, ← ih, utf8Length_cons, List.length_cons]
    omega

theorem utf8Length_pos (ht : t ≠ []) : 0 < utf8Length t :=
  (List.length_pos_iff.mpr ht).trans_le (length_le_utf8Length t)

/-! ### Cutting at a position -/

/-- `&s[b..]`, which needs a position between characters. -/
def suffixAt : List Char → ℕ → Option (List Char)
  | s, 0 => some s
  | [], _ + 1 => none
  | c :: s, b + 1 => if c.utf8Size ≤ b + 1 then suffixAt s (b + 1 - c.utf8Size) else none

def prefixAt : List Char → ℕ → Option (List Char)
  | _, 0 => some []
  | [], _ + 1 => none
  | c :: s, b + 1 => if c.utf8Size ≤ b + 1 then (prefixAt s (b + 1 - c.utf8Size)).map (c :: ·) else none

/-- A position between two characters, or at an end. -/
def IsBoundary (s : List Char) (b : ℕ) : Prop := ∃ u v, s = u ++ v ∧ utf8Length u = b

theorem suffixAt_cons (c : Char) (s : List Char) (b : ℕ) :
    suffixAt (c :: s) (c.utf8Size + b) = suffixAt s b := by
  have hc := c.utf8Size_pos
  obtain ⟨d, hd⟩ : ∃ d, c.utf8Size + b = d + 1 := ⟨c.utf8Size + b - 1, by omega⟩
  rw [hd, suffixAt, if_pos (by omega), ← hd, Nat.add_sub_cancel_left]

theorem prefixAt_cons (c : Char) (s : List Char) (b : ℕ) :
    prefixAt (c :: s) (c.utf8Size + b) = (prefixAt s b).map (c :: ·) := by
  have hc := c.utf8Size_pos
  obtain ⟨d, hd⟩ : ∃ d, c.utf8Size + b = d + 1 := ⟨c.utf8Size + b - 1, by omega⟩
  rw [hd, prefixAt, if_pos (by omega), ← hd, Nat.add_sub_cancel_left]

theorem suffixAt_append (u v : List Char) : suffixAt (u ++ v) (utf8Length u) = some v := by
  induction u with
  | nil => cases v <;> rfl
  | cons c u ih => rw [List.cons_append, utf8Length_cons, suffixAt_cons, ih]

theorem prefixAt_append (u v : List Char) : prefixAt (u ++ v) (utf8Length u) = some u := by
  induction u with
  | nil => cases v <;> rfl
  | cons c u ih => rw [List.cons_append, utf8Length_cons, prefixAt_cons, ih, Option.map_some]

theorem suffixAt_eq_some_iff : suffixAt s b = some v ↔ ∃ u, s = u ++ v ∧ utf8Length u = b := by
  refine ⟨fun h => ?_, fun ⟨u, hs, hb⟩ => by rw [hs, ← hb, suffixAt_append]⟩
  induction s, b using suffixAt.induct with
  | case1 s =>
    rw [suffixAt] at h
    exact ⟨[], Option.some.inj h, rfl⟩
  | case2 b => cases h
  | case3 c s b hc ih =>
    rw [suffixAt, if_pos hc] at h
    obtain ⟨u, rfl, hu⟩ := ih h
    exact ⟨c :: u, rfl, by rw [utf8Length_cons, hu]; omega⟩
  | case4 c s b hc =>
    rw [suffixAt, if_neg hc] at h
    cases h

theorem prefixAt_eq_some_iff : prefixAt s b = some u ↔ ∃ v, s = u ++ v ∧ utf8Length u = b := by
  refine ⟨fun h => ?_, fun ⟨v, hs, hb⟩ => by rw [hs, ← hb, prefixAt_append]⟩
  induction s, b using prefixAt.induct generalizing u with
  | case1 s =>
    rw [prefixAt] at h
    obtain rfl := Option.some.inj h
    exact ⟨s, rfl, rfl⟩
  | case2 b => cases h
  | case3 c s b hc ih =>
    rw [prefixAt, if_pos hc] at h
    obtain ⟨w, hw, rfl⟩ := Option.map_eq_some_iff.mp h
    obtain ⟨v, rfl, hv⟩ := ih hw
    exact ⟨v, rfl, by rw [utf8Length_cons, hv]; omega⟩
  | case4 c s b hc =>
    rw [prefixAt, if_neg hc] at h
    cases h

theorem suffixAt_eq_none_iff : suffixAt s b = none ↔ ¬ IsBoundary s b := by
  rw [← not_iff_not, not_not, ← ne_eq, Option.ne_none_iff_exists']
  exact ⟨fun ⟨v, hv⟩ => (suffixAt_eq_some_iff.mp hv).imp fun u h => ⟨v, h⟩,
    fun ⟨u, v, h⟩ => ⟨v, suffixAt_eq_some_iff.mpr ⟨u, h⟩⟩⟩

theorem prefixAt_eq_none_iff : prefixAt s b = none ↔ ¬ IsBoundary s b := by
  rw [← not_iff_not, not_not, ← ne_eq, Option.ne_none_iff_exists']
  exact ⟨fun ⟨u, hu⟩ => ⟨u, prefixAt_eq_some_iff.mp hu⟩,
    fun ⟨u, v, h⟩ => ⟨u, prefixAt_eq_some_iff.mpr ⟨v, h⟩⟩⟩

instance (s : List Char) (b : ℕ) : Decidable (IsBoundary s b) :=
  decidable_of_iff (¬ prefixAt s b = none) (not_congr prefixAt_eq_none_iff |>.trans not_not)

/-! ### Searching -/

def OccursAt (t s : List Char) (b : ℕ) : Prop := ∃ u v, s = u ++ (t ++ v) ∧ utf8Length u = b

def ByteOccursAt (t s : List Char) (i : ℕ) : Prop :=
  ∃ x y : List UInt8, utf8 s = x ++ (utf8 t ++ y) ∧ x.length = i

def findText (t : List Char) : List Char → Option ℕ
  | [] => if t = [] then some 0 else none
  | c :: s => if t <+: c :: s then some 0 else (findText t s).map (c.utf8Size + ·)

def rfindText (t : List Char) : List Char → Option ℕ
  | [] => if t = [] then some 0 else none
  | c :: s =>
    match rfindText t s with
    | some i => some (c.utf8Size + i)
    | none => if t <+: c :: s then some 0 else none

theorem occursAt_zero_iff : OccursAt t s 0 ↔ t <+: s := by
  constructor
  · rintro ⟨u, v, rfl, hu⟩
    have hle := length_le_utf8Length u
    obtain rfl := List.eq_nil_of_length_eq_zero (Nat.le_zero.mp (hu ▸ hle))
    exact List.prefix_append t v
  · rintro ⟨v, rfl⟩
    exact ⟨[], v, rfl, rfl⟩

theorem occursAt_cons_iff {c : Char} : OccursAt t (c :: s) i ↔
    i = 0 ∧ t <+: c :: s ∨ ∃ j, i = c.utf8Size + j ∧ OccursAt t s j := by
  constructor
  · rintro ⟨u, v, hs, hu⟩
    cases u with
    | nil => exact .inl ⟨hu.symm, v, hs.symm⟩
    | cons d u =>
      obtain ⟨rfl, hs'⟩ := List.cons.inj hs
      exact .inr ⟨utf8Length u, hu.symm, u, v, hs', rfl⟩
  · rintro (⟨rfl, h⟩ | ⟨j, rfl, u, v, rfl, rfl⟩)
    · exact occursAt_zero_iff.mpr h
    · exact ⟨c :: u, v, rfl, rfl⟩

theorem occursAt_nil_iff : OccursAt t [] i ↔ i = 0 ∧ t = [] := by
  constructor
  · rintro ⟨u, v, hs, rfl⟩
    obtain ⟨rfl, hv⟩ := List.append_eq_nil_iff.mp hs.symm
    exact ⟨rfl, (List.append_eq_nil_iff.mp hv).1⟩
  · rintro ⟨rfl, rfl⟩
    exact ⟨[], [], rfl, rfl⟩

/-- An occurrence behind a first part is one in the rest. -/
theorem occursAt_append_iff (hi : utf8Length u ≤ i) :
    OccursAt t (u ++ s) i ↔ ∃ j, i = utf8Length u + j ∧ OccursAt t s j := by
  induction u generalizing i with
  | nil =>
    exact ⟨fun h => ⟨i, (Nat.zero_add i).symm, h⟩, fun ⟨j, hj, h⟩ => by
      rwa [hj, utf8Length_nil, Nat.zero_add]⟩
  | cons c u ih =>
    have hc := c.utf8Size_pos
    rw [utf8Length_cons] at hi
    rw [List.cons_append, occursAt_cons_iff, or_iff_right (fun h => by omega)]
    constructor
    · rintro ⟨j, rfl, hj⟩
      obtain ⟨k, rfl, hk⟩ := (ih (by omega)).mp hj
      exact ⟨k, by rw [utf8Length_cons, Nat.add_assoc], hk⟩
    · rintro ⟨k, rfl, hk⟩
      exact ⟨utf8Length u + k, by rw [utf8Length_cons, Nat.add_assoc],
        (ih (Nat.le_add_right _ _)).mpr ⟨k, rfl, hk⟩⟩

/-- An occurrence that ends in a first part is one in that part. -/
theorem occursAt_left_iff : OccursAt t u i ↔ OccursAt t (u ++ v) i ∧ i + utf8Length t ≤ utf8Length u := by
  constructor
  · rintro ⟨x, y, rfl, rfl⟩
    refine ⟨⟨x, y ++ v, by rw [List.append_assoc, List.append_assoc], rfl⟩, ?_⟩
    rw [utf8Length_append, utf8Length_append]
    omega
  · rintro ⟨⟨x, y, hs, rfl⟩, hle⟩
    rw [← List.append_assoc] at hs
    rcases List.append_eq_append_iff.mp hs with ⟨z, hz, -⟩ | ⟨z, hz, -⟩
    · have hlen := congrArg utf8Length hz
      rw [utf8Length_append, utf8Length_append] at hlen
      have hle' := length_le_utf8Length z
      obtain rfl := List.eq_nil_of_length_eq_zero (by omega : z.length = 0)
      exact ⟨x, [], by rw [List.append_nil, hz, List.append_nil], rfl⟩
    · exact ⟨x, z, by rw [hz, List.append_assoc], rfl⟩

theorem OccursAt.le (h : OccursAt t s i) : i + utf8Length t ≤ utf8Length s := by
  obtain ⟨u, v, rfl, rfl⟩ := h
  rw [utf8Length_append, utf8Length_append]
  omega

/-- A position cuts the text in one way. -/
theorem eq_of_utf8Length_eq {u' v' : List Char} (h : u ++ v = u' ++ v')
    (hlen : utf8Length u = utf8Length u') : u = u' ∧ v = v' := by
  have hu : some u = some u' := by rw [← prefixAt_append u v, h, hlen, prefixAt_append]
  obtain rfl := Option.some.inj hu
  exact ⟨rfl, List.append_cancel_left h⟩

theorem findText_spec (t s : List Char) : (findText t s).elim (∀ j, ¬ OccursAt t s j)
    fun i => OccursAt t s i ∧ ∀ j, OccursAt t s j → i ≤ j := by
  induction s with
  | nil =>
    rw [findText]
    split
    · next ht => exact ⟨occursAt_nil_iff.mpr ⟨rfl, ht⟩, fun j _ => Nat.zero_le j⟩
    · next ht => exact fun j hj => ht (occursAt_nil_iff.mp hj).2
  | cons c s ih =>
    rw [findText]
    split
    · next ht => exact ⟨occursAt_zero_iff.mpr ht, fun j _ => Nat.zero_le j⟩
    next ht =>
    have hrest : ∀ j, OccursAt t (c :: s) j → ∃ i, j = c.utf8Size + i ∧ OccursAt t s i := fun j hj =>
      (occursAt_cons_iff.mp hj).resolve_left fun h => ht h.2
    cases hf : findText t s with
    | none =>
      rw [hf] at ih
      intro j hj
      obtain ⟨i, -, hi⟩ := hrest j hj
      exact ih i hi
    | some i =>
      rw [hf] at ih
      refine ⟨occursAt_cons_iff.mpr (.inr ⟨i, rfl, ih.1⟩), fun j hj => ?_⟩
      obtain ⟨k, rfl, hk⟩ := hrest j hj
      exact Nat.add_le_add_left (ih.2 k hk) _

/-- **The first occurrence.** -/
theorem findText_eq_some_iff :
    findText t s = some i ↔ OccursAt t s i ∧ ∀ j, OccursAt t s j → i ≤ j := by
  have hspec := findText_spec t s
  cases hf : findText t s with
  | none =>
    rw [hf] at hspec
    exact iff_of_false nofun fun h => hspec i h.1
  | some k =>
    rw [hf] at hspec
    rw [Option.some_inj]
    exact ⟨fun h => h ▸ hspec, fun h => le_antisymm (hspec.2 i h.1) (h.2 k hspec.1)⟩

theorem findText_eq_none_iff : findText t s = none ↔ ∀ j, ¬ OccursAt t s j := by
  have hspec := findText_spec t s
  cases hf : findText t s with
  | none =>
    rw [hf] at hspec
    exact iff_of_true rfl hspec
  | some k =>
    rw [hf] at hspec
    exact iff_of_false nofun fun h => h k hspec.1

theorem rfindText_spec (t s : List Char) : (rfindText t s).elim (∀ j, ¬ OccursAt t s j)
    fun i => OccursAt t s i ∧ ∀ j, OccursAt t s j → j ≤ i := by
  induction s with
  | nil =>
    rw [rfindText]
    split
    · next ht => exact ⟨occursAt_nil_iff.mpr ⟨rfl, ht⟩, fun j hj => (occursAt_nil_iff.mp hj).1.le⟩
    · next ht => exact fun j hj => ht (occursAt_nil_iff.mp hj).2
  | cons c s ih =>
    rw [rfindText]
    cases hf : rfindText t s with
    | some i =>
      rw [hf] at ih
      refine ⟨occursAt_cons_iff.mpr (.inr ⟨i, rfl, ih.1⟩), fun j hj => ?_⟩
      rcases occursAt_cons_iff.mp hj with ⟨rfl, -⟩ | ⟨k, rfl, hk⟩
      · exact Nat.zero_le _
      · exact Nat.add_le_add_left (ih.2 k hk) _
    | none =>
      rw [hf] at ih
      have hrest : ∀ j, OccursAt t (c :: s) j → j = 0 ∧ t <+: c :: s := fun j hj =>
        (occursAt_cons_iff.mp hj).resolve_right fun ⟨i, _, hi⟩ => ih i hi
      dsimp only
      split
      · next ht => exact ⟨occursAt_zero_iff.mpr ht, fun j hj => (hrest j hj).1.le⟩
      · next ht => exact fun j hj => ht (hrest j hj).2

/-- **The last occurrence.** -/
theorem rfindText_eq_some_iff :
    rfindText t s = some i ↔ OccursAt t s i ∧ ∀ j, OccursAt t s j → j ≤ i := by
  have hspec := rfindText_spec t s
  cases hf : rfindText t s with
  | none =>
    rw [hf] at hspec
    exact iff_of_false nofun fun h => hspec i h.1
  | some k =>
    rw [hf] at hspec
    rw [Option.some_inj]
    exact ⟨fun h => h ▸ hspec, fun h => le_antisymm (h.2 k hspec.1) (hspec.2 i h.1)⟩

theorem rfindText_eq_none_iff : rfindText t s = none ↔ ∀ j, ¬ OccursAt t s j := by
  have hspec := rfindText_spec t s
  cases hf : rfindText t s with
  | none =>
    rw [hf] at hspec
    exact iff_of_true rfl hspec
  | some k =>
    rw [hf] at hspec
    exact iff_of_false nofun fun h => h k hspec.1

/-! ### Bytes -/

/-- The first character can be read off the bytes. -/
theorem utf8EncodeChar_append_inj {c d : Char} {x y : List UInt8}
    (h : String.utf8EncodeChar c ++ x = String.utf8EncodeChar d ++ y) : c = d := by
  have hdecode : ∀ (c : Char) (x : List UInt8),
      ByteArray.utf8DecodeChar? (String.utf8EncodeChar c ++ x).toByteArray 0 = some c := fun c x => by
    rw [List.toByteArray_append, ByteArray.utf8DecodeChar?_utf8EncodeChar_append]
  have hc := hdecode c x
  rw [h, hdecode d y] at hc
  exact (Option.some.inj hc).symm

/-- A text whose bytes come first comes first. -/
theorem prefix_of_utf8_eq {y : List UInt8} (h : utf8 s = utf8 t ++ y) : t <+: s := by
  induction t generalizing s with
  | nil => exact List.nil_prefix
  | cons d t ih =>
    rw [utf8, utf8, List.flatMap_cons, List.append_assoc] at h
    cases s with
    | nil =>
      have hlen := congrArg List.length h
      have hd := d.utf8Size_pos
      rw [List.length_append, String.length_utf8EncodeChar, List.flatMap_nil, List.length_nil] at hlen
      omega
    | cons c s =>
      rw [List.flatMap_cons] at h
      obtain rfl := utf8EncodeChar_append_inj h
      exact List.prefix_cons_inj c |>.mpr (ih (List.append_cancel_left h))

/-- Inside a character no text starts. -/
theorem not_inside {c d : Char} {x y z : List UInt8} (hpos : 0 < x.length) (hlt : x.length < c.utf8Size)
    (h : String.utf8EncodeChar c ++ z = x ++ (String.utf8EncodeChar d ++ y)) : False := by
  have hc : x.length < (String.utf8EncodeChar c).length := by rwa [String.length_utf8EncodeChar]
  have hd : 0 < (String.utf8EncodeChar d).length := by
    rw [String.length_utf8EncodeChar]
    exact d.utf8Size_pos
  have hbyte : (String.utf8EncodeChar c)[x.length] = (String.utf8EncodeChar d)[0] := by
    refine Option.some.inj ?_
    have hat := congrArg (·[x.length]?) h
    rw [List.getElem?_append_left hc, List.getElem?_append_right le_rfl, Nat.sub_self,
      List.getElem?_append_left hd, List.getElem?_eq_getElem hc, List.getElem?_eq_getElem hd] at hat
    exact hat
  have hfirst : (String.utf8EncodeChar d)[0].IsUTF8FirstByte :=
    UInt8.isUTF8FirstByte_getElem_utf8EncodeChar.mpr rfl
  rw [← hbyte, UInt8.isUTF8FirstByte_getElem_utf8EncodeChar] at hfirst
  exact hpos.ne' hfirst

/-- A text occurs in the bytes only between characters. -/
theorem byteOccursAt_iff (ht : t ≠ []) : ByteOccursAt t s i ↔ OccursAt t s i := by
  constructor
  · rintro ⟨x, y, hs, hx⟩
    obtain ⟨d, t', rfl⟩ := List.exists_cons_of_ne_nil ht
    induction s generalizing x i with
    | nil =>
      have hlen := congrArg List.length hs
      have hd := d.utf8Size_pos
      rw [List.length_append, List.length_append, length_utf8, length_utf8, utf8Length_nil,
        utf8Length_cons] at hlen
      omega
    | cons c s ih =>
      rcases Nat.eq_zero_or_pos i with rfl | hpos
      · obtain rfl := List.eq_nil_of_length_eq_zero hx
        exact occursAt_zero_iff.mpr (prefix_of_utf8_eq hs)
      have hs' : String.utf8EncodeChar c ++ utf8 s = x ++ (utf8 (d :: t') ++ y) := hs
      by_cases hlt : x.length < c.utf8Size
      · have hsplit : utf8 (d :: t') ++ y = String.utf8EncodeChar d ++ (utf8 t' ++ y) := by
          rw [utf8, List.flatMap_cons, List.append_assoc]
          rfl
        exact (not_inside (hx ▸ hpos) hlt (hsplit ▸ hs')).elim
      · -- the whole first character is in front
        have hlen : (String.utf8EncodeChar c).length = c.utf8Size := String.length_utf8EncodeChar c
        have hx' : x = String.utf8EncodeChar c ++ x.drop c.utf8Size := by
          have htake := congrArg (List.take c.utf8Size) hs'
          rw [List.take_append_of_le_length hlen.ge, List.take_of_length_le hlen.le,
            List.take_append_of_le_length (Nat.le_of_not_lt hlt)] at htake
          rw [htake, List.take_append_drop]
        rw [hx', List.append_assoc] at hs'
        have hrest := ih _ rfl (List.append_cancel_left hs')
        refine occursAt_cons_iff.mpr (.inr ⟨_, ?_, hrest⟩)
        rw [List.length_drop]
        omega
  · rintro ⟨u, v, rfl, rfl⟩
    exact ⟨utf8 u, utf8 v, by rw [utf8_append, utf8_append], length_utf8 u⟩

theorem byteOccursAt_nil_iff : ByteOccursAt [] s i ↔ i ≤ utf8Length s := by
  constructor
  · rintro ⟨x, y, hs, rfl⟩
    rw [← length_utf8, hs, List.length_append]
    exact Nat.le_add_right _ _
  · intro hi
    refine ⟨(utf8 s).take i, (utf8 s).drop i, (List.take_append_drop i _).symm, ?_⟩
    rw [List.length_take, length_utf8, min_eq_left hi]

end

end Starlight
