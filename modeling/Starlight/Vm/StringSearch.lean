import Starlight.Vm.JsString

/-!
# Searching in strings

The positions of `indexOf` and `lastIndexOf` are clamped in characters and then used to cut the bytes;
`startsWith`, `endsWith` and `includes` count in characters throughout, and `endsWith` is `startsWith`. The
length of a string counts bytes, and so do the positions that the functions should give.
-/

namespace Starlight

/-! ### The functions -/

def startI32 (position : ℤ) (length : ℕ) : ℤ := min (max position 0) (IntType.i32.cast length)

/-- `string_index_of`, behind the conversions. A cut of the text inside a character panics: `none`. -/
def stringIndexOf (string searchString : List Char) (position : Option ℤ) : Option Boxed :=
  let length := string.length
  let start := asUsize (startI32 (position.getD 0) length)
  if searchString = [] then some (newPosition start)
  else if start < length then
    (suffixAt string start).bind fun rest =>
      match findText searchString rest with
      -- the position in the rest cuts the whole string
      | some pos => (prefixAt string pos).map fun before => newPosition before.length
      | none => some (.new .i32 (-1))
  else some (.new .i32 (-1))

def stringLastIndexOf (string searchString : List Char) (position : Option ℤ) : Option Boxed :=
  let length := string.length
  let searchStringLength := searchString.length
  let maxSearchIndex := IntType.i32.cast (asUsize (length - searchStringLength))
  let start := asUsize (min (max (position.getD maxSearchIndex) 0) maxSearchIndex)
  if searchString = [] then some (newPosition start)
  else
    (prefixAt string (asUsize (start + searchStringLength))).bind fun before =>
      match rfindText searchString before with
      | some pos => (prefixAt string pos).map fun before => newPosition before.length
      | none => some (.new .i32 (-1))

def searchStringAt (primitiveVal searchString : List Char) (position : Option ℤ) : Bool :=
  let length := IntType.i32.cast primitiveVal.length
  let searchLength := IntType.i32.cast searchString.length
  let start := min (max (position.getD 0) 0) length
  if length < IntType.i32.cast (start + searchLength) then false
  else searchString.isPrefixOf (primitiveVal.drop (asUsize start))

def stringStartsWith : List Char → List Char → Option ℤ → Bool := searchStringAt

def stringEndsWith : List Char → List Char → Option ℤ → Bool := searchStringAt

def stringIncludes (primitiveVal searchString : List Char) (position : Option ℤ) : Bool :=
  let length := IntType.i32.cast primitiveVal.length
  let start := min (max (position.getD 0) 0) length
  (findText searchString (primitiveVal.drop (asUsize start))).isSome

/-! ### What they should do -/

/-- The least position from `q` on where the bytes of `t` occur, or `-1`. -/
def IsFirstFrom (t s : List Char) (q : ℕ) (r : ℤ) : Prop :=
  (r = -1 ∧ ∀ i, q ≤ i → ¬ ByteOccursAt t s i) ∨
    ∃ i : ℕ, r = i ∧ q ≤ i ∧ ByteOccursAt t s i ∧ ∀ j, q ≤ j → ByteOccursAt t s j → i ≤ j

/-- The greatest position up to `q` where the bytes of `t` occur, or `-1`. -/
def IsLastUpTo (t s : List Char) (q : ℕ) (r : ℤ) : Prop :=
  (r = -1 ∧ ∀ i, i ≤ q → ¬ ByteOccursAt t s i) ∨
    ∃ i : ℕ, r = i ∧ i ≤ q ∧ ByteOccursAt t s i ∧ ∀ j, j ≤ q → ByteOccursAt t s j → j ≤ i

section

variable (s t : JsString) (p : Option ℤ)

def IndexOfLaw : Prop := ∃ w r, stringIndexOf s.string t.string (p.map toI32) = some w ∧ w.IsNumberOf r ∧
  IsFirstFrom t.string s.string (clampTo (p.getD 0) s.len) r

def LastIndexOfLaw : Prop :=
  ∃ w r, stringLastIndexOf s.string t.string (p.map toI32) = some w ∧ w.IsNumberOf r ∧
    IsLastUpTo t.string s.string (clampTo (p.getD s.len) s.len) r

def IncludesLaw : Prop := stringIncludes s.string t.string (p.map toI32) = true ↔
  ¬ IsFirstFrom t.string s.string (clampTo (p.getD 0) s.len) (-1)

def StartsWithLaw : Prop := stringStartsWith s.string t.string (p.map toI32) = true ↔
  ByteOccursAt t.string s.string (clampTo (p.getD 0) s.len)

def EndsWithLaw : Prop := stringEndsWith s.string t.string (p.map toI32) = true ↔
  ∃ i, i + t.len = clampTo (p.getD s.len) s.len ∧ ByteOccursAt t.string s.string i

end

/-! ### Positions -/

section

variable {s t : JsString} {p : Option ℤ} {n bytes : ℕ}

theorem isNumberOf_neg_one_iff {y : ℤ} : (Boxed.new .i32 (-1)).IsNumberOf y ↔ y = -1 := by
  rw [isNumberOf_new_iff_bmod (by decide) (by decide)]
  exact eq_comm

theorem bmod_le (n : ℕ) : (n : ℤ).bmod (2 ^ 32) ≤ n := by
  rw [Int.bmod_def]
  omega

theorem start_of_lt {p : ℤ} (hn : n < 2 ^ 32) (hle : n ≤ bytes)
    (h : asUsize (startI32 (toI32 p) n) < n) :
    n < 2 ^ 31 ∧ asUsize (startI32 (toI32 p) n) = clampTo p bytes := by
  have hcast := i32_cast n hn
  have htoI32 := toI32_eq p
  have hnonneg : ∀ x : ℤ, 0 ≤ x → x < 2 ^ 64 → asUsize x = x.toNat := fun x => asUsize_of_nonneg
  have hneg : ∀ x : ℤ, x < 0 → -2 ^ 32 ≤ x → (asUsize x : ℤ) = 2 ^ 64 + x := fun x => asUsize_of_neg
  unfold startI32 at h ⊢
  unfold clampTo
  by_cases hlow : n < 2 ^ 31
  · rw [if_pos hlow] at hcast
    rw [hcast] at h ⊢
    rw [hnonneg _ (by omega) (by omega)] at h ⊢
    omega
  · rw [if_neg hlow] at hcast
    rw [hcast] at h
    have := hneg (min (max (toI32 p) 0) (n - 2 ^ 32)) (by omega) (by omega)
    omega

theorem startI32_range (p : ℤ) (hn : n < 2 ^ 32) :
    -2 ^ 31 ≤ startI32 (toI32 p) n ∧ startI32 (toI32 p) n < 2 ^ 31 := by
  have hcast := i32_cast n hn
  have hp := toI32_range p
  unfold startI32
  split at hcast <;> omega

theorem clampTo_le (p : ℤ) (n : ℕ) : clampTo p n ≤ n := by
  unfold clampTo
  omega

theorem getD_map_toI32 (p : Option ℤ) : (p.map toI32).getD 0 = toI32 (p.getD 0) := by
  cases p with
  | none => rfl
  | some p => rfl

/-! ### References -/

variable {q : ℕ} {r : ℤ}

theorem isFirstFrom_nil_iff (hq : q ≤ utf8Length s.string) : IsFirstFrom [] s.string q r ↔ r = q := by
  unfold IsFirstFrom
  simp only [byteOccursAt_nil_iff]
  constructor
  · rintro (⟨-, h⟩ | ⟨i, rfl, hi, -, hleast⟩)
    · exact absurd hq (h q le_rfl)
    · exact congrArg Nat.cast (le_antisymm (hleast q le_rfl hq) hi)
  · rintro rfl
    exact .inr ⟨q, rfl, le_rfl, hq, fun j hj _ => hj⟩

theorem isFirstFrom_iff (ht : t.string ≠ []) : IsFirstFrom t.string s.string q r ↔
    (r = -1 ∧ ∀ i, q ≤ i → ¬ OccursAt t.string s.string i) ∨
      ∃ i : ℕ, r = i ∧ q ≤ i ∧ OccursAt t.string s.string i ∧
        ∀ j, q ≤ j → OccursAt t.string s.string j → i ≤ j := by
  unfold IsFirstFrom
  simp only [byteOccursAt_iff ht]

/-! ### `indexOf` -/

/-- When `indexOf` is right: for an empty text, when the position is the same in characters and bytes; for
another one that does not occur from the position on, when the position is not inside a character; and for
one that does, when the search is from the start and the text before it is ASCII. -/
def IndexOfExact (s t : JsString) (p : ℤ) : Prop :=
  (t.string = [] ∧ startI32 (toI32 p) s.string.length = clampTo p s.len) ∨
  t.string ≠ [] ∧
    ((∀ i, clampTo p s.len ≤ i → ¬ OccursAt t.string s.string i) ∧
      (s.string.length ≤ asUsize (startI32 (toI32 p) s.string.length) ∨
        IsBoundary s.string (clampTo p s.len)) ∨
    p ≤ 0 ∧ s.string.length < 2 ^ 31 ∧ ∃ u v, s.string = u ++ (t.string ++ v) ∧ IsAscii u ∧
      ∀ i, OccursAt t.string s.string i → utf8Length u ≤ i)

theorem isFirstFrom_of_suffix (ht : t.string ≠ []) {u rest : List Char} (hs : s.string = u ++ rest)
    (hq : utf8Length u = q) : IsFirstFrom t.string s.string q r ↔
      r = (findText t.string rest).elim (-1 : ℤ) fun pos => (q : ℤ) + pos := by
  have hocc : ∀ i, q ≤ i → (OccursAt t.string s.string i ↔ ∃ j, i = q + j ∧ OccursAt t.string rest j) :=
    fun i hi => by rw [hs, occursAt_append_iff (hq.trans_le hi), hq]
  rw [isFirstFrom_iff ht]
  cases hf : findText t.string rest with
  | none =>
    have hnone := findText_eq_none_iff.mp hf
    have hno : ∀ i, q ≤ i → ¬ OccursAt t.string s.string i := fun i hi h => by
      obtain ⟨j, -, hj⟩ := (hocc i hi).mp h
      exact hnone j hj
    refine ⟨?_, fun h => .inl ⟨h, hno⟩⟩
    rintro (⟨h, -⟩ | ⟨i, -, hi, h, -⟩)
    · exact h
    · exact absurd h (hno i hi)
  | some pos =>
    obtain ⟨hpos, hleast⟩ := findText_eq_some_iff.mp hf
    have hat : OccursAt t.string s.string (q + pos) := (hocc _ (Nat.le_add_right _ _)).mpr ⟨pos, rfl, hpos⟩
    have hmin : ∀ i, q ≤ i → OccursAt t.string s.string i → q + pos ≤ i := fun i hi h => by
      obtain ⟨j, rfl, hj⟩ := (hocc i hi).mp h
      exact Nat.add_le_add_left (hleast j hj) q
    constructor
    · rintro (⟨-, h⟩ | ⟨i, rfl, hi, h, hmin'⟩)
      · exact absurd hat (h _ (Nat.le_add_right _ _))
      · have heq := le_antisymm (hmin' _ (Nat.le_add_right _ _) hat) (hmin i hi h)
        rw [heq, Option.elim_some, Nat.cast_add]
    · rintro rfl
      exact .inr ⟨q + pos, (Nat.cast_add q pos).symm, Nat.le_add_right _ _, hat, hmin⟩

theorem indexOfLaw_iff_of_le (ht : t.string ≠ [])
    (h : s.string.length ≤ asUsize (startI32 (toI32 (p.getD 0)) s.string.length)) :
    IndexOfLaw s t p ↔ ∀ i, clampTo (p.getD 0) s.len ≤ i → ¬ OccursAt t.string s.string i := by
  have hrun : stringIndexOf s.string t.string (p.map toI32) = some (.new .i32 (-1)) := by
    unfold stringIndexOf
    dsimp only
    rw [getD_map_toI32, if_neg ht, if_neg (Nat.not_lt.mpr h)]
  unfold IndexOfLaw
  rw [hrun]
  constructor
  · rintro ⟨w, r, hw, hr, hlaw⟩
    rw [← Option.some.inj hw, isNumberOf_neg_one_iff] at hr
    rcases (isFirstFrom_iff ht).mp hlaw with ⟨-, hno⟩ | ⟨i, hi, -⟩
    · exact hno
    · omega
  · exact fun hno => ⟨_, -1, rfl, isNumberOf_neg_one_iff.mpr rfl,
      (isFirstFrom_iff ht).mpr (.inl ⟨rfl, hno⟩)⟩

theorem indexOfLaw_iff_of_lt (ht : t.string ≠ [])
    (h : asUsize (startI32 (toI32 (p.getD 0)) s.string.length) < s.string.length) :
    IndexOfLaw s t p ↔ IsBoundary s.string (clampTo (p.getD 0) s.len) ∧
      ((∀ i, clampTo (p.getD 0) s.len ≤ i → ¬ OccursAt t.string s.string i) ∨
      p.getD 0 ≤ 0 ∧ ∃ u v, s.string = u ++ (t.string ++ v) ∧ IsAscii u ∧
        ∀ i, OccursAt t.string s.string i → utf8Length u ≤ i) := by
  obtain ⟨hn, hq⟩ := start_of_lt s.length_lt s.length_le_len h
  have hrun : stringIndexOf s.string t.string (p.map toI32) =
      (suffixAt s.string (clampTo (p.getD 0) s.len)).bind fun rest => match findText t.string rest with
        | some pos => (prefixAt s.string pos).map fun before => newPosition before.length
        | none => some (.new .i32 (-1)) := by
    unfold stringIndexOf
    dsimp only
    rw [getD_map_toI32, if_neg ht, if_pos h, hq]
  unfold IndexOfLaw
  rw [hrun]
  cases hs : suffixAt s.string (clampTo (p.getD 0) s.len) with
  | none =>
    have hnot := suffixAt_eq_none_iff.mp hs
    exact iff_of_false (fun ⟨w, r, hw, _⟩ => nomatch hw) fun h => hnot h.1
  | some rest =>
    obtain ⟨u, hu, hlen⟩ := suffixAt_eq_some_iff.mp hs
    rw [and_iff_right ⟨u, rest, hu, hlen⟩, Option.bind_some]
    have hocc : ∀ i, clampTo (p.getD 0) s.len ≤ i → (OccursAt t.string s.string i ↔
        ∃ j, i = clampTo (p.getD 0) s.len + j ∧ OccursAt t.string rest j) := fun i hi => by
      rw [hu, occursAt_append_iff (hlen.trans_le hi), hlen]
    simp only [isFirstFrom_of_suffix ht hu hlen]
    cases hf : findText t.string rest with
    | none =>
      refine iff_of_true ⟨_, _, rfl, isNumberOf_neg_one_iff.mpr rfl, rfl⟩ (.inl fun i hi h => ?_)
      obtain ⟨j, -, hj⟩ := (hocc i hi).mp h
      exact findText_eq_none_iff.mp hf j hj
    | some pos =>
      obtain ⟨hpos, hleast⟩ := findText_eq_some_iff.mp hf
      dsimp only [Option.elim_some]
      constructor
      · rintro ⟨w, r, hw, hr, rfl⟩
        obtain ⟨before, hbefore, rfl⟩ := Option.map_eq_some_iff.mp hw
        obtain ⟨v, hv, hcut⟩ := prefixAt_eq_some_iff.mp hbefore
        rw [isNumberOf_newPosition_iff] at hr
        -- the number of characters in front is the position only for a search from the start
        have hle := bmod_le before.length
        have hchars := length_le_utf8Length before
        have hzero : clampTo (p.getD 0) s.len = 0 := by omega
        have hascii : utf8Length before = before.length := by omega
        have hnil : u = [] := by
          refine List.eq_nil_of_length_eq_zero (Nat.le_zero.mp ?_)
          rw [← hzero, ← hlen]
          exact length_le_utf8Length u
        subst hnil
        have hrest : s.string = rest := hu
        rw [← hrest] at hpos hleast
        obtain ⟨u', v', hs', hu'⟩ := hpos
        obtain ⟨rfl, -⟩ := eq_of_utf8Length_eq (hs'.symm.trans hv) (hu'.trans hcut.symm)
        refine .inr ⟨?_, u', v', hs', utf8Length_eq_length_iff.mp hascii, fun i hi => ?_⟩
        · have hlenPos : 0 < s.len := (Nat.zero_le _).trans_lt
            ((Nat.lt_add_of_pos_right (utf8Length_pos ht)).trans_le (OccursAt.le ⟨u', v', hs', hu'⟩))
          unfold clampTo at hzero
          omega
        · rw [hu']
          exact hleast i hi
      · rintro (hno | ⟨hp, u', v', hs', hascii, hmin⟩)
        · exact absurd ((hocc _ (Nat.le_add_right _ _)).mpr ⟨pos, rfl, hpos⟩) (hno _ (Nat.le_add_right _ _))
        · have hzero : clampTo (p.getD 0) s.len = 0 := by
            unfold clampTo
            omega
          have hnil : u = [] := by
            refine List.eq_nil_of_length_eq_zero (Nat.le_zero.mp ?_)
            rw [← hzero, ← hlen]
            exact length_le_utf8Length u
          subst hnil
          have hrest : s.string = rest := hu
          rw [← hrest] at hpos hleast
          obtain rfl : pos = utf8Length u' := le_antisymm (hleast _ ⟨u', v', hs', rfl⟩) (hmin _ hpos)
          refine ⟨newPosition u'.length, u'.length, ?_, ?_, ?_⟩
          · rw [hs', prefixAt_append]
            rfl
          · rw [isNumberOf_newPosition_iff, Int.bmod_def]
            have hshort : u'.length ≤ s.string.length := by
              rw [hs', List.length_append]
              exact Nat.le_add_right _ _
            omega
          · rw [hzero, utf8Length_eq_length_iff.mpr hascii, Nat.cast_zero, zero_add]

theorem indexOfLaw_iff_of_empty (ht : t.string = []) :
    IndexOfLaw s t p ↔ startI32 (toI32 (p.getD 0)) s.string.length = clampTo (p.getD 0) s.len := by
  have hrun : stringIndexOf s.string t.string (p.map toI32) =
      some (newPosition (asUsize (startI32 (toI32 (p.getD 0)) s.string.length))) := by
    unfold stringIndexOf
    dsimp only
    rw [getD_map_toI32, if_pos ht]
  have hrange := startI32_range (p.getD 0) s.length_lt
  unfold IndexOfLaw
  rw [hrun, ht]
  constructor
  · rintro ⟨w, r, hw, hr, hlaw⟩
    rw [← Option.some.inj hw, isNumberOf_newPosition_iff, bmod_asUsize hrange.1 hrange.2] at hr
    exact hr.trans ((isFirstFrom_nil_iff (clampTo_le _ _)).mp hlaw)
  · intro heq
    refine ⟨_, _, rfl, ?_, (isFirstFrom_nil_iff (clampTo_le _ _)).mpr rfl⟩
    rw [isNumberOf_newPosition_iff, bmod_asUsize hrange.1 hrange.2]
    exact heq

theorem indexOfLaw_iff : IndexOfLaw s t p ↔ IndexOfExact s t (p.getD 0) := by
  unfold IndexOfExact
  by_cases ht : t.string = []
  · rw [indexOfLaw_iff_of_empty ht, or_iff_left (fun h => h.1 ht), and_iff_right ht]
  rw [or_iff_right (fun h => ht h.1), and_iff_right ht]
  rcases Nat.lt_or_ge (asUsize (startI32 (toI32 (p.getD 0)) s.string.length)) s.string.length with h | h
  · rw [indexOfLaw_iff_of_lt ht h, or_iff_right (Nat.not_le.mpr h)]
    constructor
    · rintro ⟨hb, hno | ⟨hp, hascii⟩⟩
      · exact .inl ⟨hno, hb⟩
      · exact .inr ⟨hp, (start_of_lt s.length_lt s.length_le_len h).1, hascii⟩
    · rintro (⟨hno, hb⟩ | ⟨hp, -, hascii⟩)
      · exact ⟨hb, .inl hno⟩
      · have hzero : clampTo (p.getD 0) s.len = 0 := by
          unfold clampTo
          omega
        exact ⟨hzero ▸ ⟨[], s.string, rfl, rfl⟩, .inr ⟨hp, hascii⟩⟩
  · rw [indexOfLaw_iff_of_le ht h, and_iff_left (.inl h), or_iff_left]
    -- an empty string has no occurrence
    rintro ⟨hp, hn, u, v, hs, -⟩
    have hcast := i32_cast s.string.length s.length_lt
    have htoI32 := toI32_eq (p.getD 0)
    rw [if_pos hn] at hcast
    have hzero : startI32 (toI32 (p.getD 0)) s.string.length = 0 := by
      unfold startI32
      omega
    rw [hzero, asUsize_of_nonneg le_rfl (by decide)] at h
    have hlen := congrArg List.length hs
    rw [List.length_append, List.length_append] at hlen
    have htlen := List.length_pos_iff.mpr ht
    change s.string.length ≤ 0 at h
    omega

/-! ### `lastIndexOf` -/

def maxSearchIndex (s t : JsString) : ℤ :=
  IntType.i32.cast (asUsize (s.string.length - t.string.length))

def lastStart (s t : JsString) (p : Option ℤ) : ℤ :=
  min (max ((p.map toI32).getD (maxSearchIndex s t)) 0) (maxSearchIndex s t)

/-- The position at which it cuts the bytes. For strings of less than `2 ^ 31` characters this is the
position plus the length of the text, or the length of the string if that is less, both in characters. -/
def lastEnd (s t : JsString) (p : Option ℤ) : ℕ := asUsize (asUsize (lastStart s t p) + t.string.length)

/-- When `lastIndexOf` is right: for an empty text, when the position is the same in characters and bytes;
for another one, when the cut is not inside a character, and the text does not occur up to the position, or
does so last behind ASCII and in front of the cut. -/
def LastIndexOfExact (s t : JsString) (p : Option ℤ) : Prop :=
  (t.string = [] ∧ lastStart s t p = clampTo (p.getD s.len) s.len) ∨
  t.string ≠ [] ∧ IsBoundary s.string (lastEnd s t p) ∧
    ((∀ i, i ≤ clampTo (p.getD s.len) s.len → ¬ OccursAt t.string s.string i) ∨
    ∃ u v, s.string = u ++ (t.string ++ v) ∧ IsAscii u ∧ u.length < 2 ^ 31 ∧
      utf8Length u ≤ clampTo (p.getD s.len) s.len ∧ utf8Length u + t.len ≤ lastEnd s t p ∧
      ∀ i, i ≤ clampTo (p.getD s.len) s.len → OccursAt t.string s.string i → i ≤ utf8Length u)

theorem isLastUpTo_nil_iff (hq : q ≤ utf8Length s.string) : IsLastUpTo [] s.string q r ↔ r = q := by
  unfold IsLastUpTo
  simp only [byteOccursAt_nil_iff]
  constructor
  · rintro (⟨-, h⟩ | ⟨i, rfl, hi, -, hmost⟩)
    · exact absurd hq (h q le_rfl)
    · exact congrArg Nat.cast (le_antisymm hi (hmost q le_rfl hq))
  · rintro rfl
    exact .inr ⟨q, rfl, le_rfl, hq, fun j hj _ => hj⟩

theorem isLastUpTo_iff (ht : t.string ≠ []) : IsLastUpTo t.string s.string q r ↔
    (r = -1 ∧ ∀ i, i ≤ q → ¬ OccursAt t.string s.string i) ∨
      ∃ i : ℕ, r = i ∧ i ≤ q ∧ OccursAt t.string s.string i ∧
        ∀ j, j ≤ q → OccursAt t.string s.string j → j ≤ i := by
  unfold IsLastUpTo
  simp only [byteOccursAt_iff ht]

theorem maxSearchIndex_eq (s t : JsString) :
    maxSearchIndex s t = ((s.string.length : ℤ) - t.string.length).bmod (2 ^ 32) := by
  unfold maxSearchIndex asUsize IntType.cast
  simp only [IntType.signed, IntType.bits, if_true, Bool.false_eq_true, if_false, Int.bmod_def]
  omega

theorem lastStart_range (s t : JsString) (p : Option ℤ) :
    -2 ^ 31 ≤ lastStart s t p ∧ lastStart s t p < 2 ^ 31 := by
  have hmax := maxSearchIndex_eq s t
  rw [Int.bmod_def] at hmax
  unfold lastStart
  cases p with
  | none =>
    rw [Option.map_none, Option.getD_none]
    omega
  | some p =>
    have hp := toI32_range p
    rw [Option.map_some, Option.getD_some]
    omega

theorem lastEnd_eq (s t : JsString) (p : Option ℤ) :
    (lastEnd s t p : ℤ) = (lastStart s t p + t.string.length) % 2 ^ 64 := by
  unfold lastEnd asUsize IntType.cast
  simp only [IntType.signed, IntType.bits, Bool.false_eq_true, if_false]
  omega

theorem lastEnd_of_nonneg (h : 0 ≤ lastStart s t p + t.string.length) :
    (lastEnd s t p : ℤ) = lastStart s t p + t.string.length := by
  have hrange := lastStart_range s t p
  have ht := t.length_lt
  rw [lastEnd_eq, Int.emod_eq_of_lt h (by omega)]

theorem lastEnd_of_neg (h : lastStart s t p + t.string.length < 0) : s.len < lastEnd s t p := by
  have hrange := lastStart_range s t p
  have hfits : s.len < 2 ^ 32 := s.fits
  have hmod : (lastEnd s t p : ℤ) = lastStart s t p + t.string.length + 2 ^ 64 := by
    rw [lastEnd_eq, ← Int.add_emod_right, Int.emod_eq_of_lt (by omega) (by omega)]
  omega

theorem le_clampTo_of_lastEnd {i : ℕ} (hend : lastEnd s t p ≤ s.len) (hi : i + t.len ≤ lastEnd s t p) :
    i ≤ clampTo (p.getD s.len) s.len := by
  have htlen := t.length_le_len
  have hnonneg : 0 ≤ lastStart s t p + t.string.length :=
    not_lt.mp fun h => absurd hend (Nat.not_le.mpr (lastEnd_of_neg h))
  have hend_eq := lastEnd_of_nonneg hnonneg
  unfold clampTo
  cases p with
  | none =>
    rw [Option.getD_none]
    omega
  | some p =>
    have hstart : lastStart s t (some p) = min (max (toI32 p) 0) (maxSearchIndex s t) := by
      rw [lastStart, Option.map_some, Option.getD_some]
    have hp := toI32_eq p
    rw [Option.getD_some]
    generalize maxSearchIndex s t = index at *
    omega

theorem lastIndexOfLaw_iff_of_empty (ht : t.string = []) :
    LastIndexOfLaw s t p ↔ lastStart s t p = clampTo (p.getD s.len) s.len := by
  have hrun : stringLastIndexOf s.string t.string (p.map toI32) =
      some (newPosition (asUsize (lastStart s t p))) := by
    unfold stringLastIndexOf
    dsimp only
    rw [if_pos ht]
    rfl
  have hrange := lastStart_range s t p
  unfold LastIndexOfLaw
  rw [hrun, ht]
  constructor
  · rintro ⟨w, r, hw, hr, hlaw⟩
    rw [← Option.some.inj hw, isNumberOf_newPosition_iff, bmod_asUsize hrange.1 hrange.2] at hr
    exact hr.trans ((isLastUpTo_nil_iff (clampTo_le _ _)).mp hlaw)
  · intro heq
    refine ⟨_, _, rfl, ?_, (isLastUpTo_nil_iff (clampTo_le _ _)).mpr rfl⟩
    rw [isNumberOf_newPosition_iff, bmod_asUsize hrange.1 hrange.2]
    exact heq

theorem lastIndexOfLaw_iff : LastIndexOfLaw s t p ↔ LastIndexOfExact s t p := by
  unfold LastIndexOfExact
  by_cases ht : t.string = []
  · rw [lastIndexOfLaw_iff_of_empty ht, or_iff_left (fun h => h.1 ht), and_iff_right ht]
  rw [or_iff_right (fun h => ht h.1), and_iff_right ht]
  have hrun : stringLastIndexOf s.string t.string (p.map toI32) =
      (prefixAt s.string (lastEnd s t p)).bind fun before => match rfindText t.string before with
        | some pos => (prefixAt s.string pos).map fun before => newPosition before.length
        | none => some (.new .i32 (-1)) := by
    unfold stringLastIndexOf
    dsimp only
    rw [if_neg ht]
    rfl
  unfold LastIndexOfLaw
  rw [hrun]
  cases hs : prefixAt s.string (lastEnd s t p) with
  | none =>
    have hnot := prefixAt_eq_none_iff.mp hs
    exact iff_of_false (fun ⟨w, r, hw, _⟩ => nomatch hw) fun h => hnot h.1
  | some before =>
    obtain ⟨rest, hbefore, hlen⟩ := prefixAt_eq_some_iff.mp hs
    rw [and_iff_right ⟨before, rest, hbefore, hlen⟩, Option.bind_some]
    have hend : lastEnd s t p ≤ s.len := by
      rw [← hlen, JsString.len, hbefore, utf8Length_append]
      exact Nat.le_add_right _ _
    have hocc : ∀ i, OccursAt t.string before i ↔
        OccursAt t.string s.string i ∧ i + t.len ≤ lastEnd s t p := fun i => by
      rw [hbefore, ← hlen]
      exact occursAt_left_iff
    have hle : ∀ i, OccursAt t.string before i → i ≤ clampTo (p.getD s.len) s.len := fun i h =>
      le_clampTo_of_lastEnd hend ((hocc i).mp h).2
    simp only [isLastUpTo_iff ht]
    cases hf : rfindText t.string before with
    | none =>
      have hnone := rfindText_eq_none_iff.mp hf
      constructor
      · rintro ⟨w, r, hw, hr, hlaw⟩
        rw [← Option.some.inj hw, isNumberOf_neg_one_iff] at hr
        refine .inl (hlaw.elim (fun h => h.2) fun ⟨i, hi, _⟩ => ?_)
        omega
      · rintro (hno | ⟨u, v, hu, -, -, -, hcut, -⟩)
        · exact ⟨_, -1, rfl, isNumberOf_neg_one_iff.mpr rfl, .inl ⟨rfl, hno⟩⟩
        · exact absurd ((hocc _).mpr ⟨⟨u, v, hu, rfl⟩, hcut⟩) (hnone _)
    | some pos =>
      obtain ⟨hpos, hmost⟩ := rfindText_eq_some_iff.mp hf
      obtain ⟨hat, hcut⟩ := (hocc pos).mp hpos
      have hq := hle pos hpos
      constructor
      · rintro ⟨w, r, hw, hr, ⟨-, hno⟩ | ⟨i, rfl, hi, hoccurs, hgreatest⟩⟩
        · exact absurd hat (hno pos hq)
        obtain ⟨u, hu, rfl⟩ := Option.map_eq_some_iff.mp hw
        obtain ⟨v, hv, hulen⟩ := prefixAt_eq_some_iff.mp hu
        rw [isNumberOf_newPosition_iff] at hr
        have hnumber := bmod_le u.length
        have hchars := length_le_utf8Length u
        have hpi := hgreatest pos hq hat
        -- the characters in front are as many as the bytes in front of the later position
        have hascii : utf8Length u = u.length := by omega
        have hshort : u.length < 2 ^ 31 := by
          rw [Int.bmod_def] at hr
          omega
        obtain ⟨u', v', hs', hu'⟩ := hat
        obtain ⟨rfl, -⟩ := eq_of_utf8Length_eq (hs'.symm.trans hv) (hu'.trans hulen.symm)
        refine .inr ⟨u', v', hs', utf8Length_eq_length_iff.mp hascii, hshort, hu' ▸ hq, hu' ▸ hcut, ?_⟩
        intro j hj hjocc
        have := hgreatest j hj hjocc
        omega
      · rintro (hno | ⟨u, v, hu, hascii, hshort, huq, hucut, hgreatest⟩)
        · exact absurd hat (hno pos hq)
        · obtain rfl : pos = utf8Length u :=
            le_antisymm (hgreatest pos hq hat) (hmost _ ((hocc _).mpr ⟨⟨u, v, hu, rfl⟩, hucut⟩))
          refine ⟨newPosition u.length, u.length, ?_, ?_, ?_⟩
          · rw [hu]
            dsimp only
            rw [prefixAt_append]
            rfl
          · rw [isNumberOf_newPosition_iff, Int.bmod_def]
            omega
          · refine .inr ⟨utf8Length u, ?_, hq, hat, hgreatest⟩
            rw [utf8Length_eq_length_iff.mpr hascii]

/-! ### The functions that count characters -/

def startCharacter (s : JsString) (p : ℤ) : ℕ := asUsize (startI32 (toI32 p) s.string.length)

theorem startCharacter_of_ge (p : ℤ) (h : 2 ^ 31 ≤ s.string.length) :
    startI32 (toI32 p) s.string.length < 0 ∧ s.string.length < startCharacter s p := by
  have hcast := i32_cast s.string.length s.length_lt
  have hn := s.length_lt
  rw [if_neg (Nat.not_lt.mpr h)] at hcast
  have hneg : startI32 (toI32 p) s.string.length < 0 := by
    unfold startI32
    omega
  have hsize := asUsize_of_neg hneg (by have := startI32_range p hn; omega)
  have hrange := startI32_range p hn
  refine ⟨hneg, ?_⟩
  unfold startCharacter
  omega

theorem searchStringAt_eq_true_iff (s t : JsString) (p : Option ℤ) :
    searchStringAt s.string t.string (p.map toI32) = true ↔
      t.string <+: s.string.drop (startCharacter s (p.getD 0)) := by
  have hrun : searchStringAt s.string t.string (p.map toI32) =
      if IntType.i32.cast s.string.length <
        IntType.i32.cast (startI32 (toI32 (p.getD 0)) s.string.length + IntType.i32.cast t.string.length)
      then false else t.string.isPrefixOf (s.string.drop (startCharacter s (p.getD 0))) := by
    unfold searchStringAt
    rw [getD_map_toI32]
    rfl
  rw [hrun]
  split
  · next hend =>
    refine iff_of_false Bool.false_ne_true fun hprefix => ?_
    have hlen := hprefix.length_le
    rw [List.length_drop] at hlen
    have hs := i32_cast s.string.length s.length_lt
    have hrange := startI32_range (p.getD 0) s.length_lt
    rcases Nat.lt_or_ge s.string.length (2 ^ 31) with hn | hn
    · have ht := i32_cast t.string.length t.length_lt
      rw [if_pos hn] at hs
      rw [if_pos (by omega)] at ht
      have hstart : 0 ≤ startI32 (toI32 (p.getD 0)) s.string.length ∧
          startI32 (toI32 (p.getD 0)) s.string.length ≤ s.string.length := by
        unfold startI32
        omega
      have hsize : startCharacter s (p.getD 0) = (startI32 (toI32 (p.getD 0)) s.string.length).toNat :=
        asUsize_of_nonneg hstart.1 (by omega)
      have hend' : IntType.i32.cast (startI32 (toI32 (p.getD 0)) s.string.length + t.string.length) = _ :=
        i32_cast_of_range (by omega) (by omega)
      rw [ht, hend'] at hend
      omega
    · have hzero : t.string.length = 0 := by
        have := (startCharacter_of_ge (p.getD 0) hn).2
        omega
      rw [hzero, show IntType.i32.cast (0 : ℕ) = 0 from rfl, add_zero,
        i32_cast_of_range hrange.1 hrange.2] at hend
      unfold startI32 at hend
      omega
  · exact List.isPrefixOf_iff_prefix

theorem stringIncludes_eq_true_iff (s t : JsString) (p : Option ℤ) :
    stringIncludes s.string t.string (p.map toI32) = true ↔
      ∃ j, OccursAt t.string (s.string.drop (startCharacter s (p.getD 0))) j := by
  have hrun : stringIncludes s.string t.string (p.map toI32) =
      (findText t.string (s.string.drop (startCharacter s (p.getD 0)))).isSome := by
    unfold stringIncludes
    rw [getD_map_toI32]
    rfl
  rw [hrun]
  cases hf : findText t.string (s.string.drop (startCharacter s (p.getD 0))) with
  | none => exact iff_of_false Bool.false_ne_true fun ⟨j, hj⟩ => findText_eq_none_iff.mp hf j hj
  | some i => exact iff_of_true rfl ⟨i, (findText_eq_some_iff.mp hf).1⟩

/-- When `startsWith` is right: the text occurs at the character when it occurs at the byte. -/
def StartsWithExact (s t : JsString) (p : ℤ) : Prop :=
  t.string = [] ∨ (t.string <+: s.string.drop (startCharacter s p) ↔
    OccursAt t.string s.string (clampTo p s.len))

theorem startsWithLaw_iff : StartsWithLaw s t p ↔ StartsWithExact s t (p.getD 0) := by
  unfold StartsWithLaw StartsWithExact stringStartsWith
  rw [searchStringAt_eq_true_iff]
  by_cases ht : t.string = []
  · rw [ht, byteOccursAt_nil_iff]
    exact iff_of_true (iff_of_true List.nil_prefix (clampTo_le _ _)) (.inl rfl)
  · rw [byteOccursAt_iff ht, or_iff_right ht]

/-- When `endsWith` is right: the text starts at the character when it ends at the byte. The position is
zero when it is absent, where it should be the length. -/
def EndsWithExact (s t : JsString) (p : Option ℤ) : Prop :=
  t.string = [] ∨ (t.string <+: s.string.drop (startCharacter s (p.getD 0)) ↔
    ∃ i, i + t.len = clampTo (p.getD s.len) s.len ∧ OccursAt t.string s.string i)

theorem endsWithLaw_iff : EndsWithLaw s t p ↔ EndsWithExact s t p := by
  unfold EndsWithLaw EndsWithExact stringEndsWith
  rw [searchStringAt_eq_true_iff]
  by_cases ht : t.string = []
  · have hlen : t.len = 0 := by rw [JsString.len, ht, utf8Length_nil]
    rw [hlen, ht]
    simp only [byteOccursAt_nil_iff]
    exact iff_of_true (iff_of_true List.nil_prefix ⟨_, rfl, clampTo_le _ _⟩) (.inl trivial)
  · simp only [byteOccursAt_iff ht, or_iff_right ht]

/-- When `includes` is right: the text is empty, or does not occur from the byte on, or occurs from the
character on. -/
def IncludesExact (s t : JsString) (p : ℤ) : Prop :=
  t.string = [] ∨ (∀ i, clampTo p s.len ≤ i → ¬ OccursAt t.string s.string i) ∨
    ∃ u v, s.string = u ++ (t.string ++ v) ∧ startCharacter s p ≤ u.length

theorem includesLaw_iff : IncludesLaw s t p ↔ IncludesExact s t (p.getD 0) := by
  unfold IncludesLaw IncludesExact
  rw [stringIncludes_eq_true_iff]
  by_cases ht : t.string = []
  · have hnil := @isFirstFrom_nil_iff s (clampTo (p.getD 0) s.len) (-1) (clampTo_le _ _)
    rw [ht, hnil]
    refine iff_of_true (iff_of_true ⟨0, occursAt_zero_iff.mpr List.nil_prefix⟩ ?_) (.inl rfl)
    omega
  have hfirst : ¬ IsFirstFrom t.string s.string (clampTo (p.getD 0) s.len) (-1) ↔
      ¬ ∀ i, clampTo (p.getD 0) s.len ≤ i → ¬ OccursAt t.string s.string i := by
    rw [isFirstFrom_iff ht]
    refine not_congr ⟨fun h => h.elim (fun h => h.2) fun ⟨i, hi, _⟩ => ?_, fun h => .inl ⟨rfl, h⟩⟩
    omega
  have hfound : (∃ j, OccursAt t.string (s.string.drop (startCharacter s (p.getD 0))) j) ↔
      ∃ u v, s.string = u ++ (t.string ++ v) ∧ startCharacter s (p.getD 0) ≤ u.length := by
    constructor
    · rintro ⟨j, u, v, hu, -⟩
      refine ⟨s.string.take (startCharacter s (p.getD 0)) ++ u, v, ?_, ?_⟩
      · rw [List.append_assoc, ← hu, List.take_append_drop]
      · have hlen := congrArg List.length hu
        have htlen := List.length_pos_iff.mpr ht
        rw [List.length_drop, List.length_append, List.length_append] at hlen
        rw [List.length_append, List.length_take]
        omega
    · rintro ⟨u, v, hu, hle⟩
      refine ⟨_, u.drop (startCharacter s (p.getD 0)), v, ?_, rfl⟩
      rw [hu, List.drop_append_of_le_length hle]
  -- an occurrence from the character on is one from the byte on
  have hbyte : ∀ u v, s.string = u ++ (t.string ++ v) → startCharacter s (p.getD 0) ≤ u.length →
      clampTo (p.getD 0) s.len ≤ utf8Length u := fun u v hu hle => by
    have hlen := congrArg List.length hu
    have htlen := List.length_pos_iff.mpr ht
    rw [List.length_append, List.length_append] at hlen
    have hlt : startCharacter s (p.getD 0) < s.string.length := by omega
    rw [← (start_of_lt s.length_lt s.length_le_len hlt).2]
    exact hle.trans (length_le_utf8Length u)
  rw [hfirst, hfound, or_iff_right ht]
  constructor
  · intro h
    by_cases hno : ∀ i, clampTo (p.getD 0) s.len ≤ i → ¬ OccursAt t.string s.string i
    · exact .inl hno
    · exact .inr (h.mpr hno)
  · rintro (hno | ⟨u, v, hu, hle⟩)
    · have hnot : ¬ ∃ u v, s.string = u ++ (t.string ++ v) ∧ startCharacter s (p.getD 0) ≤ u.length :=
        fun ⟨u, v, hu, hle⟩ => hno _ (hbyte u v hu hle) ⟨u, v, hu, rfl⟩
      exact iff_of_false hnot (not_not_intro hno)
    · exact iff_of_true ⟨u, v, hu, hle⟩ fun hno => hno _ (hbyte u v hu hle) ⟨u, v, hu, rfl⟩

/-- **The five functions.** -/
theorem string_search_iff (s t : JsString) (p : Option ℤ) :
    (IndexOfLaw s t p ↔ IndexOfExact s t (p.getD 0)) ∧ (LastIndexOfLaw s t p ↔ LastIndexOfExact s t p) ∧
    (IncludesLaw s t p ↔ IncludesExact s t (p.getD 0)) ∧
    (StartsWithLaw s t p ↔ StartsWithExact s t (p.getD 0)) ∧ (EndsWithLaw s t p ↔ EndsWithExact s t p) :=
  ⟨indexOfLaw_iff, lastIndexOfLaw_iff, includesLaw_iff, startsWithLaw_iff, endsWithLaw_iff⟩

/-- `"abcb".indexOf("b", 2)` is `1`, and `"abc".endsWith("c")` is false. -/
theorem not_string_search :
    ¬ IndexOfLaw ⟨['a', 'b', 'c', 'b'], by decide⟩ ⟨['b'], by decide⟩ (some 2) ∧
      ¬ EndsWithLaw ⟨['a', 'b', 'c'], by decide⟩ ⟨['c'], by decide⟩ none := by
  constructor
  · rintro ⟨w, r, hw, hr, hlaw⟩
    rw [← Option.some.inj hw, isNumberOf_newPosition_iff] at hr
    obtain rfl : r = 1 := hr.symm
    rcases hlaw with ⟨h, -⟩ | ⟨i, hi, hle, -⟩
    · exact absurd h (by decide)
    · have hle' : 2 ≤ i := hle
      omega
  · intro h
    have hoccurs : ByteOccursAt ['c'] ['a', 'b', 'c'] 2 := ⟨utf8 ['a', 'b'], [], rfl, rfl⟩
    exact absurd (h.mpr ⟨2, rfl, hoccurs⟩) (by decide)

end

end Starlight
