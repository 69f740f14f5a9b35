import Starlight.Lib.Text

/-!
# Text in units of UTF-16

A character up to `0xFFFF` is one unit; any other is a pair of surrogates, a leading one and a trailing one.
Reading units back is the inverse, and fails where a surrogate stands alone.
-/

namespace Starlight

/-- A leading or a trailing surrogate. -/
def IsSurrogate (u : ℕ) : Prop := 0xD800 ≤ u ∧ u ≤ 0xDFFF

instance (u : ℕ) : Decidable (IsSurrogate u) := inferInstanceAs (Decidable (_ ∧ _))

/-- The units of a character. -/
def utf16Char (c : Char) : List ℕ :=
  if c.toNat < 0x10000 then [c.toNat]
  else [0xD800 + (c.toNat - 0x10000) / 0x400, 0xDC00 + (c.toNat - 0x10000) % 0x400]

def utf16 (s : List Char) : List ℕ := s.flatMap utf16Char

def decodeUtf16 : List ℕ → Except ℕ (List Char)
  | [] => .ok []
  | [u] => if IsSurrogate u then .error u else .ok [Char.ofNat u]
  | u :: v :: units =>
    if ¬ IsSurrogate u then (Char.ofNat u :: ·) <$> decodeUtf16 (v :: units)
    else if u < 0xDC00 ∧ 0xDC00 ≤ v ∧ v ≤ 0xDFFF then
      (Char.ofNat (0x10000 + (u - 0xD800) * 0x400 + (v - 0xDC00)) :: ·) <$> decodeUtf16 units
    else .error u

section

variable {c : Char} {s t : List Char} {u v i : ℕ} {units : List ℕ}

/-! ### Characters -/

theorem not_isSurrogate_toNat (c : Char) : ¬ IsSurrogate c.toNat := by
  rintro ⟨hlow, hhigh⟩
  have hvalid : c.toNat < 0xD800 ∨ 0xDFFF < c.toNat ∧ c.toNat < 0x110000 := c.valid
  omega

theorem charToNat_lt (c : Char) : c.toNat < 0x110000 := by
  have hvalid : c.toNat < 0xD800 ∨ 0xDFFF < c.toNat ∧ c.toNat < 0x110000 := c.valid
  omega

theorem toNat_ofNat_of_valid (h : u < 0xD800 ∨ 0xDFFF < u ∧ u < 0x110000) : (Char.ofNat u).toNat = u := by
  rw [Char.ofNat, dif_pos h]
  rfl

theorem utf8Size_eq (c : Char) : c.utf8Size =
    if c.toNat ≤ 0x7F then 1 else if c.toNat ≤ 0x7FF then 2 else if c.toNat ≤ 0xFFFF then 3 else 4 := by
  rfl

theorem utf16Char_of_lt (h : c.toNat < 0x10000) : utf16Char c = [c.toNat] := if_pos h

theorem utf16Char_of_ge (h : 0x10000 ≤ c.toNat) : utf16Char c =
    [0xD800 + (c.toNat - 0x10000) / 0x400, 0xDC00 + (c.toNat - 0x10000) % 0x400] :=
  if_neg (Nat.not_lt.mpr h)

/-- A unit that is no surrogate is a character. -/
theorem utf16Char_ofNat (hlt : u < 0x10000) (hu : ¬ IsSurrogate u) : utf16Char (Char.ofNat u) = [u] := by
  have hcode : (Char.ofNat u).toNat = u := toNat_ofNat_of_valid (by unfold IsSurrogate at hu; omega)
  rw [utf16Char_of_lt (hcode.trans_lt hlt), hcode]

theorem length_utf16Char_pos (c : Char) : 0 < (utf16Char c).length := by
  unfold utf16Char
  split <;> exact Nat.succ_pos _

theorem length_utf16Char_le (c : Char) : (utf16Char c).length ≤ c.utf8Size := by
  rw [utf8Size_eq]
  unfold utf16Char
  split
  · have hc := c.utf8Size_pos
    rwa [utf8Size_eq] at hc
  · rw [List.length_cons, List.length_singleton]
    split_ifs <;> omega

/-- Only an ASCII character has as many units as bytes. -/
theorem length_utf16Char_eq_iff (c : Char) : (utf16Char c).length = c.utf8Size ↔ c.utf8Size = 1 := by
  rw [utf8Size_eq]
  unfold utf16Char
  split
  · rw [List.length_singleton]
    exact eq_comm
  · rw [List.length_cons, List.length_singleton]
    split_ifs <;> omega

/-! ### Texts -/

@[simp] theorem utf16_nil : utf16 [] = [] := rfl

@[simp] theorem utf16_cons (c : Char) (s : List Char) : utf16 (c :: s) = utf16Char c ++ utf16 s := rfl

@[simp] theorem utf16_append (s t : List Char) : utf16 (s ++ t) = utf16 s ++ utf16 t := List.flatMap_append

theorem length_le_length_utf16 (s : List Char) : s.length ≤ (utf16 s).length := by
  induction s with
  | nil => exact le_rfl
  | cons c s ih =>
    have hc := length_utf16Char_pos c
    rw [utf16_cons, List.length_append, List.length_cons]
    omega

theorem length_utf16_le (s : List Char) : (utf16 s).length ≤ utf8Length s := by
  induction s with
  | nil => exact le_rfl
  | cons c s ih =>
    have hc := length_utf16Char_le c
    rw [utf16_cons, List.length_append, utf8Length_cons]
    omega

/-- A text has as many units as bytes just when it is ASCII. -/
theorem length_utf16_eq_utf8Length_iff : (utf16 s).length = utf8Length s ↔ IsAscii s := by
  induction s with
  | nil => exact iff_of_true rfl fun _ h => absurd h List.not_mem_nil
  | cons c s ih =>
    have hle := length_utf16_le s
    have hc := length_utf16Char_le c
    have hcons : IsAscii (c :: s) ↔ c.utf8Size = 1 ∧ IsAscii s := List.forall_mem_cons
    rw [hcons, ← length_utf16Char_eq_iff, ← ih, utf16_cons, List.length_append, utf8Length_cons]
    omega

/-- The number of units of ASCII. -/
theorem length_utf16_of_isAscii (h : IsAscii s) : (utf16 s).length = s.length :=
  (length_utf16_eq_utf8Length_iff.mpr h).trans (utf8Length_eq_length_iff.mpr h)

theorem utf16_lt (hu : u ∈ utf16 s) : u < 0x10000 := by
  obtain ⟨c, -, hc⟩ := List.mem_flatMap.mp hu
  have hlt := charToNat_lt c
  unfold utf16Char at hc
  split at hc
  · next h =>
    obtain rfl := List.mem_singleton.mp hc
    exact h
  · simp only [List.mem_cons, List.not_mem_nil, or_false] at hc
    omega

/-! ### Reading units back -/

theorem decodeUtf16_cons_of_not_isSurrogate (h : ¬ IsSurrogate u) :
    decodeUtf16 (u :: units) = (Char.ofNat u :: ·) <$> decodeUtf16 units := by
  cases units with
  | nil => exact if_neg h
  | cons v units => rw [decodeUtf16, if_pos h]

theorem decodeUtf16_pair (hu : 0xD800 ≤ u) (hu' : u < 0xDC00) (hv : 0xDC00 ≤ v) (hv' : v ≤ 0xDFFF) :
    decodeUtf16 (u :: v :: units) =
      (Char.ofNat (0x10000 + (u - 0xD800) * 0x400 + (v - 0xDC00)) :: ·) <$> decodeUtf16 units := by
  rw [decodeUtf16, if_neg (not_not_intro ⟨hu, by omega⟩), if_pos ⟨hu', hv, hv'⟩]

theorem decodeUtf16_utf16Char_append (c : Char) :
    decodeUtf16 (utf16Char c ++ units) = (c :: ·) <$> decodeUtf16 units := by
  rcases Nat.lt_or_ge c.toNat 0x10000 with h | h
  · rw [utf16Char_of_lt h, List.singleton_append,
      decodeUtf16_cons_of_not_isSurrogate (not_isSurrogate_toNat c), Char.ofNat_toNat]
  · have hlt := charToNat_lt c
    have hcode : 0x10000 + (0xD800 + (c.toNat - 0x10000) / 0x400 - 0xD800) * 0x400 +
        (0xDC00 + (c.toNat - 0x10000) % 0x400 - 0xDC00) = c.toNat := by omega
    rw [utf16Char_of_ge h, List.cons_append, List.singleton_append,
      decodeUtf16_pair (by omega) (by omega) (by omega) (by omega), hcode, Char.ofNat_toNat]

theorem decodeUtf16_utf16 (s : List Char) : decodeUtf16 (utf16 s) = .ok s := by
  induction s with
  | nil => rfl
  | cons c s ih =>
    rw [utf16_cons, decodeUtf16_utf16Char_append, ih]
    rfl

theorem exists_of_map_decodeUtf16 (h : (c :: ·) <$> decodeUtf16 units = .ok s) :
    ∃ t, decodeUtf16 units = .ok t ∧ c :: t = s := by
  cases hd : decodeUtf16 units with
  | error e =>
    rw [hd] at h
    cases h
  | ok t =>
    rw [hd] at h
    exact ⟨t, rfl, Except.ok.inj h⟩

/-- **Reading units gives a text just when they are its units.** -/
theorem decodeUtf16_eq_ok_iff (hunits : ∀ u ∈ units, u < 0x10000) :
    decodeUtf16 units = .ok s ↔ utf16 s = units := by
  refine ⟨fun h => ?_, fun h => h ▸ decodeUtf16_utf16 s⟩
  induction units using decodeUtf16.induct generalizing s with
  | case1 =>
    cases h
    rfl
  | case2 u hu =>
    rw [decodeUtf16, if_pos hu] at h
    cases h
  | case3 u hu =>
    rw [decodeUtf16, if_neg hu] at h
    obtain rfl := Except.ok.inj h
    rw [utf16_cons, utf16Char_ofNat (hunits u List.mem_cons_self) hu, utf16_nil, List.append_nil]
  | case4 u v units hu ih =>
    rw [decodeUtf16, if_pos hu] at h
    obtain ⟨t, ht, rfl⟩ := exists_of_map_decodeUtf16 h
    rw [utf16_cons, utf16Char_ofNat (hunits u List.mem_cons_self) hu, List.singleton_append,
      ih (fun v hv => hunits v (List.mem_cons_of_mem _ hv)) ht]
  | case5 u v units hu hv ih =>
    rw [decodeUtf16, if_neg hu, if_pos hv] at h
    obtain ⟨t, ht, rfl⟩ := exists_of_map_decodeUtf16 h
    have hu' : 0xD800 ≤ u ∧ u ≤ 0xDFFF := not_not.mp hu
    have hcode : (Char.ofNat (0x10000 + (u - 0xD800) * 0x400 + (v - 0xDC00))).toNat =
        0x10000 + (u - 0xD800) * 0x400 + (v - 0xDC00) := toNat_ofNat_of_valid (by omega)
    have hlead : 0xD800 + (0x10000 + (u - 0xD800) * 0x400 + (v - 0xDC00) - 0x10000) / 0x400 = u := by omega
    have htrail : 0xDC00 + (0x10000 + (u - 0xD800) * 0x400 + (v - 0xDC00) - 0x10000) % 0x400 = v := by
      omega
    rw [utf16_cons, utf16Char_of_ge (by omega), hcode, hlead, htrail, List.cons_append,
      List.singleton_append, ih (fun w hw => hunits w (by simp [hw])) ht]
  | case6 u v units hu hv =>
    rw [decodeUtf16, if_neg hu, if_neg hv] at h
    cases h

end

end Starlight
