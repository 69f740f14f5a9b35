import Starlight.Vm.MatchVisits
import Starlight.Vm.SplitPaths

/-!
# The replaced text

The parts of the text between the matches are cut out with `substring`, which counts in units of UTF-16, at
positions that count bytes. They are the right ones just when the units between the two positions are those
of the text between them.
-/

namespace Starlight

/-- The text between two positions is the same in bytes and in units of UTF-16. -/
def SameUnits (s : List Char) (a b : ℕ) : Prop := utf16 (slice s a b) = ((utf16 s).drop a).take (b - a)

instance (s : List Char) (a b : ℕ) : Decidable (SameUnits s a b) := inferInstanceAs (Decidable (_ = _))

/-- The parts in front of the matches and behind the last one are. -/
def SameGaps (s : List Char) : ℕ → List Match → Prop
  | a, [] => SameUnits s a (utf8Length s)
  | a, m :: ms => SameUnits s a m.start ∧ SameGaps s m.end_ ms

/-- When the text is put together right: the gaps are right, and where the length of the string is negative,
the whole string is the only match. -/
def StitchExact (s : JsString) (ms : List Match) : Prop :=
  (s.len < 2 ^ 31 ∧ SameGaps s.string 0 ms) ∨
    2 ^ 31 ≤ s.len ∧ ∃ m, ms = [m] ∧ m.start = 0 ∧ m.end_ = s.len

/-- When `replace` does what it should. -/
def ReplaceExact (regexp : RegExp) (lastIndex : ℤ) (s : JsString) : Prop :=
  ∃ ms, regexp.Visits (if regexp.global then 0 else lastIndex) s.string ms ∧
    VisitsExact regexp (if regexp.global then 0 else lastIndex) s ms ∧ StitchExact s ms

section

variable {regexp : RegExp} {matcher : Matcher} {s : JsString} {text t u : List Char} {m : Match}
  {ms : List Match} {a k i : ℕ} {lastIndex next : ℤ} {results : List ExecArray} {flags : List Char}
  {f : ℕ → ReplacerArgs → List Char}

/-! ### Parts -/

theorem substring_slice_iff_sameUnits (hs : s.len < 2 ^ 31) (hak : a ≤ k) :
    substring s a k = .ok (slice s.string a k) ↔ SameUnits s.string a k :=
  substring_eq_ok_iff hs hak

theorem substringFrom_eq (hs : s.len < 2 ^ 31) (a : ℕ) : substringFrom s a = substring s a s.len := by
  have hle := length_utf16_le s.string
  have hunits : IntType.i32.cast (utf16 s.string).length = (utf16 s.string).length := by
    unfold JsString.len at hs
    exact i32_cast_of_range (by omega) (by omega)
  have hlen : toI32 s.len = s.len := by
    rw [toI32_eq]
    omega
  have hend : min (max ((utf16 s.string).length : ℤ) 0) (utf16 s.string).length =
      min (max (s.len : ℤ) 0) (utf16 s.string).length := by
    unfold JsString.len
    omega
  unfold substringFrom substring stringSubstring
  dsimp only
  rw [Option.getD_none, Option.getD_some, Option.getD_some, hunits, hlen, hend]

/-- From a position that is not positive, the part is the whole string, or nothing of it when its number of
units is negative. -/
theorem substringFrom_of_nonpos (hnext : next ≤ 0) (h : substringFrom s next = .ok t) :
    t = s.string ∨ t = [] := by
  have hstart : max (toI32 next) 0 = 0 := by
    rw [toI32_eq]
    omega
  have hsize := s.length_utf16_lt
  have hlength := i32_cast (utf16 s.string).length hsize
  have hzero : asUsize 0 = 0 := rfl
  unfold substringFrom stringSubstring at h
  dsimp only at h
  rw [Option.getD_none, Option.getD_some, hstart, mapError_eq_ok_iff] at h
  rcases Nat.lt_or_ge (utf16 s.string).length (2 ^ 31) with hlt | hge
  · rw [if_pos hlt] at hlength
    have hsame : asUsize ((utf16 s.string).length : ℤ) = (utf16 s.string).length := by
      rw [asUsize_of_nonneg (by omega) (by omega)]
      omega
    have hpos := Int.natCast_nonneg (utf16 s.string).length
    rw [hlength, max_eq_left hpos, min_self, min_eq_left hpos, min_eq_left hpos, max_eq_right hpos, hzero,
      hsame, Nat.cast_zero, sub_zero, hsame, List.drop_zero, List.take_length, decodeUtf16_utf16] at h
    exact .inl (Except.ok.inj h).symm
  · have hneg : IntType.i32.cast (utf16 s.string).length < 0 := by
      rw [hlength, if_neg (Nat.not_lt.mpr hge)]
      omega
    rw [max_eq_right hneg.le, min_self, max_self, sub_self, hzero, List.take_zero] at h
    exact .inr (Except.ok.inj h).symm

theorem eq_of_prefix (h : ∀ c : Char, ∃ rest, t ++ [c] <+: u ++ c :: rest) : t = u := by
  induction t generalizing u with
  | nil =>
    cases u with
    | nil => rfl
    | cons d u =>
      have hall : ∀ c : Char, c = d := fun c => by
        obtain ⟨rest, hrest⟩ := h c
        exact (List.cons_prefix_cons.mp hrest).1
      exact absurd ((hall 'a').trans (hall 'b').symm) (by decide)
  | cons d t ih =>
    cases u with
    | nil =>
      have hall : ∀ c : Char, d = c := fun c => by
        obtain ⟨rest, hrest⟩ := h c
        exact (List.cons_prefix_cons.mp hrest).1
      exact absurd ((hall 'a').symm.trans (hall 'b')) (by decide)
    | cons d' u =>
      obtain ⟨rest, hrest⟩ := h 'a'
      obtain rfl := (List.cons_prefix_cons.mp hrest).1
      refine congrArg _ (ih fun c => ?_)
      obtain ⟨rest, hrest⟩ := h c
      exact ⟨rest, (List.cons_prefix_cons.mp hrest).2⟩

/-! ### Matches in order -/

theorem RegExp.Successive.inOrder (h : regexp.Successive text k ms) (ha : IsBoundary text a) (hle : a ≤ k) :
    InOrder text a ms := by
  induction h generalizing a with
  | nil => trivial
  | @cons k m ms hsearch hrest ih =>
    have hrange := regexp.matcher.isRange_of_matchAt hsearch.matchAt.2 _ List.mem_cons_self
    refine ⟨⟨hle.trans hsearch.matchAt.1, ha, hrange.2.1⟩, hrange, ih hrange.2.2 ?_⟩
    unfold Match.next
    split <;> omega

theorem RegExp.Visits.inOrder (h : regexp.Visits lastIndex text ms) : InOrder text 0 ms := by
  unfold RegExp.Visits at h
  split at h
  · exact h.inOrder (isBoundary_zero text) (Nat.zero_le _)
  · obtain ⟨e, hsearch, rfl⟩ := h
    cases e with
    | none => trivial
    | some m =>
      have hrange := regexp.matcher.isRange_of_matchAt hsearch.matchAt.2 _ List.mem_cons_self
      exact ⟨⟨Nat.zero_le _, isBoundary_zero text, hrange.2.1⟩, hrange, trivial⟩

/-! ### Putting the text together -/

theorem F64.integerPart_of_eq {d : F64} {z : ℤ} (h : d.eq (.fin z) = true) : d.integerPart = z := by
  cases d with
  | nan | posInf | negInf => cases h
  | negZero => exact (Rat.intCast_eq_zero_iff.mp (of_decide_eq_true h)).symm
  | fin q =>
    obtain rfl := F64.fin.inj (of_decide_eq_true h)
    exact F64.truncRat_intCast z

theorem toIntegerOrInfinity_newPosition (n : ℕ) : toIntegerOrInfinity (newPosition n) = numberOfU32 n := by
  obtain ⟨d, hd, heq⟩ := isNumberOf_numberOfU32 n
  rw [toIntegerOrInfinity, hd, Option.elim_some]
  exact F64.integerPart_of_eq heq

theorem replaceResults_append (s : JsString) (f : ℕ → ReplacerArgs → List Char) (i : ℕ) (next : ℤ)
    (t : List Char) (results : List ExecArray) :
    replaceResults s f i next t results = (replaceResults s f i next [] results).map (t ++ ·) := by
  induction results generalizing i next t with
  | nil =>
    unfold replaceResults
    split
    · exact congrArg _ (List.append_nil t).symm
    · cases substringFrom s next <;> rfl
  | cons result results ih =>
    rw [replaceResults, replaceResults]
    split
    · cases substring s next (result.position s) with
      | error e => rfl
      | ok part =>
        rw [Except.bind, Except.bind, ih, ih (i + 1) _ ([] ++ _)]
        cases replaceResults s f (i + 1) (result.position s + textLength result.matchStr) [] results with
        | error e => rfl
        | ok rest => exact congrArg Except.ok (List.append_assoc t _ rest)
    · exact ih _ _ _

theorem replaceResults_cons_eq_ok_iff {result : ExecArray} (h : next ≤ result.position s) :
    replaceResults s f i next [] (result :: results) = .ok t ↔
      ∃ part rest, substring s next (result.position s) = .ok part ∧
        replaceResults s f (i + 1) (result.position s + textLength result.matchStr) [] results = .ok rest ∧
        t = part ++ (f i (result.replacerArgs s) ++ rest) := by
  rw [replaceResults, if_pos h]
  cases substring s next (result.position s) with
  | error e => exact iff_of_false nofun nofun
  | ok part =>
    rw [Except.bind, replaceResults_append]
    cases replaceResults s f (i + 1) (result.position s + textLength result.matchStr) [] results with
    | error e => exact iff_of_false nofun nofun
    | ok rest =>
      constructor
      · intro h
        exact ⟨part, rest, rfl, rfl, (Except.ok.inj h).symm.trans (List.append_assoc part _ rest)⟩
      · rintro ⟨part', rest', hpart, hrest, rfl⟩
        rw [Except.ok.inj hpart, Except.ok.inj hrest, List.nil_append, ← List.append_assoc]
        rfl

theorem textLength_array (h : IsRange s.string (m.start, m.end_)) :
    textLength (m.array s.string).matchStr = IntType.i32.cast (m.end_ - m.start : ℕ) := by
  rw [textLength, matchStr_array, utf8Length_slice h]

theorem replacerArgs_array (h : (m.array s.string).position s = m.start) :
    (m.array s.string).replacerArgs s = m.replacerArgs s.string := by
  rw [ExecArray.replacerArgs, h]
  rfl

theorem position_array (hs : s.len < 2 ^ 31) (h : m.start ≤ s.len) :
    (m.array s.string).position s = m.start := by
  have hle : (m.start : ℤ) ≤ s.len := Int.ofNat_le.mpr h
  rw [ExecArray.position, index_array, toIntegerOrInfinity_newPosition, numberOfU32_of_lt (h.trans_lt hs),
    lengthProperty_of_lt hs, min_eq_left hle, max_eq_left (Int.natCast_nonneg _)]

/-- **Behind the text up to `a` everything is put together right, whatever the function.** -/
theorem replaceResults_iff (hs : s.len < 2 ^ 31) (h : InOrder s.string a ms) (ha : IsBoundary s.string a) :
    (∀ f, replaceResults s f i a [] (ms.map (Match.array s.string)) = .ok (replaced s.string f i a ms)) ↔
      SameGaps s.string a ms := by
  induction ms generalizing a i with
  | nil =>
    have hend (f : ℕ → ReplacerArgs → List Char) : replaceResults s f i a [] [] =
        .ok (replaced s.string f i a []) ↔ SameGaps s.string a [] := by
      have hle : a ≤ s.len := ha.le
      rw [replaced, SameGaps, show utf8Length s.string = s.len from rfl,
        ← substring_slice_iff_sameUnits hs hle]
      unfold replaceResults
      rw [lengthProperty_of_lt hs]
      rcases hle.eq_or_lt with rfl | hlt
      · rw [if_pos le_rfl, substring_self hs]
      · rw [if_neg (not_le.mpr (Int.ofNat_lt.mpr hlt)), substringFrom_eq hs]
        cases substring s a s.len <;> rfl
    exact ⟨fun h => (hend fun _ _ => []).mp (h _), fun h f => (hend f).mpr h⟩
  | cons m ms ih =>
    obtain ⟨hbefore, hrange, hrest⟩ := h
    have hpos := @position_array s m hs hrange.2.1.le
    have hargs := replacerArgs_array hpos
    have hcast : IntType.i32.cast (m.end_ - m.start : ℕ) = (m.end_ - m.start : ℕ) :=
      i32_cast_of_range (by omega) (by have := hrange.2.2.le; unfold JsString.len at hs; omega)
    have hnext : (m.array s.string).position s + textLength (m.array s.string).matchStr = m.end_ := by
      have hle : m.start ≤ m.end_ := hrange.1
      rw [hpos, textLength_array hrange, hcast]
      omega
    have hstep (f : ℕ → ReplacerArgs → List Char) (t : List Char) :
        replaceResults s f i a [] ((m :: ms).map (Match.array s.string)) = .ok t ↔
          ∃ part rest, substring s a m.start = .ok part ∧
            replaceResults s f (i + 1) m.end_ [] (ms.map (Match.array s.string)) = .ok rest ∧
            t = part ++ (f i (m.replacerArgs s.string) ++ rest) := by
      have hle : (a : ℤ) ≤ (m.array s.string).position s := by
        rw [hpos]
        exact Int.ofNat_le.mpr hbefore.1
      rw [List.map_cons, replaceResults_cons_eq_ok_iff hle, hnext, hpos, hargs]
    constructor
    · intro hall
      obtain ⟨part, -, hpart, -, -⟩ := (hstep (fun _ _ => []) _).mp (hall _)
      have hrest' (f : ℕ → ReplacerArgs → List Char) : ∃ rest,
          replaceResults s f (i + 1) m.end_ [] (ms.map (Match.array s.string)) = .ok rest ∧
          replaced s.string f i a (m :: ms) = part ++ (f i (m.replacerArgs s.string) ++ rest) := by
        obtain ⟨part', rest, hpart', hrest', heq⟩ := (hstep f _).mp (hall f)
        obtain rfl := Except.ok.inj (hpart.symm.trans hpart')
        exact ⟨rest, hrest', heq⟩
      -- a function that gives one character shows where the part ends
      have hslice : part = slice s.string a m.start := eq_of_prefix fun c => by
        obtain ⟨rest, -, heq⟩ := hrest' fun _ _ => [c]
        exact ⟨_, rest, by rw [List.append_assoc]; exact heq.symm⟩
      rw [hslice] at hpart
      refine ⟨(substring_slice_iff_sameUnits hs hbefore.1).mp hpart,
        (@ih m.end_ (i + 1) hrest hrange.2.2).mp fun f => ?_⟩
      obtain ⟨rest, hrest', heq⟩ := hrest' f
      rw [replaced, hslice, List.append_cancel_left_eq, List.append_cancel_left_eq] at heq
      rw [hrest', heq]
    · rintro ⟨hunits, hgaps⟩ f
      exact (hstep f _).mpr ⟨_, _, (substring_slice_iff_sameUnits hs hbefore.1).mpr hunits,
        (ih hrest hrange.2.2).mpr hgaps f, rfl⟩

/-! ### A string of negative length -/

theorem position_of_ge (hs : 2 ^ 31 ≤ s.len) (result : ExecArray) : result.position s = 0 := by
  have hfits : s.len < 2 ^ 32 := s.fits
  rw [ExecArray.position, lengthProperty_of_ge hs]
  omega

theorem replaceResults_of_pos (hs : 2 ^ 31 ≤ s.len) (hnext : 0 < next) :
    replaceResults s f i next [] results = .ok [] := by
  have hfits : s.len < 2 ^ 32 := s.fits
  induction results generalizing i with
  | nil =>
    rw [replaceResults, lengthProperty_of_ge hs, if_pos (by omega)]
  | cons result results ih => rw [replaceResults, position_of_ge hs, if_neg hnext.not_ge, ih]

theorem replaceResults_cons_of_ge (hs : 2 ^ 31 ≤ s.len) {result : ExecArray} :
    replaceResults s f i 0 [] (result :: results) = .ok t ↔
      ∃ rest, replaceResults s f (i + 1) (textLength result.matchStr) [] results = .ok rest ∧
        t = f i (result.replacerArgs s) ++ rest := by
  have hpos := position_of_ge hs result
  rw [replaceResults_cons_eq_ok_iff hpos.ge, hpos, zero_add]
  constructor
  · rintro ⟨part, rest, hpart, hrest, rfl⟩
    rw [substring_of_nonpos le_rfl] at hpart
    obtain rfl := Except.ok.inj hpart
    exact ⟨rest, hrest, rfl⟩
  · rintro ⟨rest, hrest, rfl⟩
    exact ⟨[], rest, substring_of_nonpos le_rfl, hrest, rfl⟩

theorem replaceResults_nil_ne (hnext : s.lengthProperty ≤ next)
    (ha : IsBoundary s.string a) (hlt : a < s.len) :
    replaceResults s f i next [] [] ≠ .ok (replaced s.string f i a []) := by
  rw [replaceResults, if_pos hnext]
  intro h
  exact slice_ne_nil ⟨hlt.le, ha, isBoundary_length s.string⟩ hlt (Except.ok.inj h).symm

theorem replaceResults_cons_iff_of_ge (hs : 2 ^ 31 ≤ s.len) (h : InOrder s.string 0 (m :: ms)) :
    (∀ f, replaceResults s f i 0 [] ((m :: ms).map (Match.array s.string)) =
        .ok (replaced s.string f i 0 (m :: ms))) ↔
      m.start = 0 ∧ ∀ f, replaceResults s f (i + 1) (IntType.i32.cast m.end_) []
        (ms.map (Match.array s.string)) = .ok (replaced s.string f (i + 1) m.end_ ms) := by
  obtain ⟨hbefore, hrange, hrest⟩ := h
  have hlength (hstart : m.start = 0) :
      textLength (m.array s.string).matchStr = IntType.i32.cast m.end_ := by
    rw [textLength_array hrange, hstart, Nat.sub_zero]
  have hargs (hstart : m.start = 0) : (m.array s.string).replacerArgs s = m.replacerArgs s.string :=
    replacerArgs_array (by rw [position_of_ge hs, hstart, Nat.cast_zero])
  simp only [List.map_cons, replaceResults_cons_of_ge hs, replaced]
  constructor
  · intro hall
    have hslice : [] = slice s.string 0 m.start := eq_of_prefix fun c => by
      obtain ⟨rest, -, heq⟩ := hall fun _ _ => [c]
      exact ⟨_, rest, heq.symm⟩
    have hstart : m.start = 0 := by
      have hlen := utf8Length_slice hbefore
      rw [← hslice, utf8Length_nil] at hlen
      omega
    refine ⟨hstart, fun f => ?_⟩
    obtain ⟨rest, hrest, heq⟩ := hall f
    rw [← hslice, List.nil_append, hargs hstart, List.append_cancel_left_eq] at heq
    rw [← hlength hstart, hrest, heq]
  · rintro ⟨hstart, hall⟩ f
    refine ⟨_, (hlength hstart).symm ▸ hall f, ?_⟩
    rw [hstart, slice_self _ _ (isBoundary_zero _), hargs hstart, List.nil_append]

/-- **A string of negative length is put together right only when it is one match.** -/
theorem replaceResults_iff_of_ge (hs : 2 ^ 31 ≤ s.len) (h : InOrder s.string 0 ms)
    (hnext : ∀ m rest, ms = m :: rest → (∀ m' ∈ rest.head?, m.start < m'.start) ∧
      (2 ^ 31 ≤ m.end_ → rest = [])) :
    (∀ f, replaceResults s f 0 0 [] (ms.map (Match.array s.string)) = .ok (replaced s.string f 0 0 ms)) ↔
      ∃ m, ms = [m] ∧ m.start = 0 ∧ m.end_ = s.len := by
  have hfits : s.len < 2 ^ 32 := s.fits
  have hpos : 0 < s.len := by omega
  have hlength := lengthProperty_of_ge hs
  have hneg : s.lengthProperty ≤ 0 := by omega
  cases ms with
  | nil =>
    refine iff_of_false (fun hall => ?_) fun ⟨_, h, _⟩ => nomatch h
    exact replaceResults_nil_ne hneg (isBoundary_zero _) hpos (hall fun _ _ => [])
  | cons m ms =>
    obtain ⟨hbehind, hlast⟩ := hnext m ms rfl
    obtain ⟨-, hrange, hrest⟩ := id h
    have hle : m.end_ ≤ s.len := hrange.2.2.le
    rw [replaceResults_cons_iff_of_ge hs h]
    constructor
    · rintro ⟨hstart, hall⟩
      rcases Nat.eq_zero_or_pos m.end_ with hzero | hmpos
      · -- the next match would have to be at the start as well
        have hcast : IntType.i32.cast m.end_ = 0 := by
          rw [hzero]
          exact i32_cast_of_range (by decide) (by decide)
        rw [hcast, hzero] at hall
        cases ms with
        | nil => exact absurd (hall fun _ _ => []) (replaceResults_nil_ne hneg (isBoundary_zero _) hpos)
        | cons m' ms =>
          rw [hzero] at hrest
          have hstart' := ((replaceResults_cons_iff_of_ge hs hrest).mp hall).1
          have := hbehind m' rfl
          omega
      rcases Nat.lt_or_ge m.end_ (2 ^ 31) with hlt | hge
      · -- the rest of the string is lost
        have hcast : IntType.i32.cast m.end_ = m.end_ := i32_cast_of_range (by omega) (by omega)
        have hnil (f : ℕ → ReplacerArgs → List Char) : replaced s.string f 1 m.end_ ms = [] := by
          have hrun := hall f
          rw [hcast, replaceResults_of_pos hs (Int.natCast_pos.mpr hmpos)] at hrun
          exact (Except.ok.inj hrun).symm
        cases ms with
        | nil =>
          have hlost := hnil fun _ _ => []
          exact absurd hlost (slice_ne_nil ⟨hle, hrange.2.2, isBoundary_length s.string⟩ (hlt.trans_le hs))
        | cons m' ms =>
          have hlost := hnil fun _ _ => ['a']
          rw [replaced, List.append_eq_nil_iff] at hlost
          cases hlost.2
      · obtain rfl := hlast hge
        have hcast : IntType.i32.cast m.end_ = m.end_ - 2 ^ 32 := by
          rw [i32_cast m.end_ (hle.trans_lt hfits), if_neg (Nat.not_lt.mpr hge)]
        refine ⟨m, rfl, hstart, ?_⟩
        by_contra hne
        have hrun := hall fun _ _ => []
        rw [List.map_nil, replaceResults, hcast, hlength, if_neg (by omega)] at hrun
        have hrest := @utf8Length_slice s.string m.end_ s.len ⟨hle, hrange.2.2, isBoundary_length s.string⟩
        cases hsub : substringFrom s (m.end_ - 2 ^ 32) with
        | error e =>
          rw [hsub] at hrun
          cases hrun
        | ok t =>
          rw [hsub] at hrun
          have ht : t = slice s.string m.end_ s.len := Except.ok.inj hrun
          rw [← ht] at hrest
          rcases substringFrom_of_nonpos (by omega) hsub with rfl | rfl
          · have hwhole : utf8Length s.string = s.len := rfl
            omega
          · rw [utf8Length_nil] at hrest
            omega
    · rintro ⟨m', hm, hstart, hend⟩
      obtain ⟨rfl, rfl⟩ := List.cons.inj hm
      refine ⟨hstart, fun f => ?_⟩
      have hcast : IntType.i32.cast m.end_ = s.lengthProperty := by
        rw [hend]
        rfl
      rw [List.map_nil, replaceResults, hcast, if_pos le_rfl, replaced, hend]
      exact congrArg _ (slice_self _ _ (isBoundary_length s.string)).symm

/-! ### The laws -/

/-- **The text is put together right.** -/
theorem stitch_iff (h : regexp.Visits lastIndex s.string ms) (hexact : VisitsExact regexp lastIndex s ms) :
    (∀ f, replaceResults s f 0 0 [] (ms.map (Match.array s.string)) = .ok (replaced s.string f 0 0 ms)) ↔
      StitchExact s ms := by
  have horder := h.inOrder
  unfold StitchExact
  rcases Nat.lt_or_ge s.len (2 ^ 31) with hs | hs
  · rw [and_iff_right hs, or_iff_left fun hc => absurd hs (Nat.not_lt.mpr hc.1)]
    exact replaceResults_iff hs horder (isBoundary_zero _)
  · rw [and_iff_right hs, or_iff_right fun hc => absurd hc.1 (Nat.not_lt.mpr hs)]
    refine replaceResults_iff_of_ge hs horder ?_
    rintro m rest rfl
    unfold RegExp.Visits at h
    split at h
    · next hglobal =>
      cases h with | cons hsearch hrest => ?_
      have hnext := Match.lt_next (Matcher.end_le hsearch.matchAt.2).1
      exact ⟨fun m' hm' => hnext.trans_le (hrest.head m' hm'), (hexact.2 hglobal).2.1⟩
    · obtain ⟨e, -, he⟩ := h
      cases e with
      | none => cases he
      | some m' =>
        obtain ⟨-, rfl⟩ := List.cons.inj he
        exact ⟨nofun, fun _ => rfl⟩

theorem exists_regexpReplace_iff (h : Collects regexp s (regexp.global && regexp.unicode)
      (if regexp.global then 0 else lastIndex) [] (.ok results)) :
    (∃ fuel, regexpReplace regexp lastIndex s f fuel = some (.ok t)) ↔
      replaceResults s f 0 0 [] results = .ok t := by
  obtain ⟨fuel, hfuel⟩ := h
  constructor
  · rintro ⟨fuel', h⟩
    obtain ⟨x, hx, h⟩ := Option.map_eq_some_iff.mp h
    have hloop := isLoop_replaceLoop regexp s (regexp.global && regexp.unicode)
    obtain rfl := @IsLoop.unique _ _ _ _ ((if regexp.global then 0 else lastIndex : ℤ), []) _ _ _ hloop _
      hx hfuel
    exact h
  · intro h
    exact ⟨fuel, by rw [regexpReplace, hfuel, Option.map_some, ← h]; rfl⟩

theorem replaceLaw_iff (huse : regexp.global = true → regexp.useLastIndex = true) :
    ReplaceLaw regexp lastIndex s ↔ ReplaceExact regexp lastIndex s := by
  refine exists_congr fun ms => ?_
  constructor
  · rintro ⟨results, hvisits, hresults, hcollects, hall⟩
    rw [mapM_matchArray hvisits.matchAt] at hresults
    obtain rfl := Option.some.inj hresults
    have hexact := (collects_iff huse hvisits).mp hcollects
    exact ⟨hvisits, hexact, (stitch_iff hvisits hexact).mp fun f =>
      (exists_regexpReplace_iff hcollects).mp (hall f)⟩
  · rintro ⟨hvisits, hexact, hstitch⟩
    have hcollects := (collects_iff huse hvisits).mpr hexact
    exact ⟨_, hvisits, mapM_matchArray hvisits.matchAt, hcollects, fun f =>
      (exists_regexpReplace_iff hcollects).mpr ((stitch_iff hvisits hexact).mpr hstitch f)⟩

end

end Starlight
