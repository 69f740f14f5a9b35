import Starlight.Vm.JsString

/-!
# Regular expressions

The compiled expression is the matcher of a crate. What is known of it is what the crate documents: at a
position there is a match or none, and a search from a position finds the first match at or behind it. The
functions `exec` and `test` keep the position where the next search starts in the property `lastIndex`.
-/

namespace Starlight

/-- A match: its range in bytes, and the ranges of the groups that took part. -/
structure Match where
  start : ℕ
  end_ : ℕ
  captures : List (Option (ℕ × ℕ))
  deriving DecidableEq

def Match.groups (m : Match) : List (Option (ℕ × ℕ)) := some (m.start, m.end_) :: m.captures

def FirstFrom (matchAt : ℕ → Option Match) (from_ : ℤ) : Option Match → Prop
  | some m => from_ ≤ m.start ∧ matchAt m.start = some m ∧
      ∀ p : ℕ, from_ ≤ p → p < m.start → matchAt p = none
  | none => ∀ p : ℕ, from_ ≤ p → matchAt p = none

/-- Where the search goes on behind a match: not at the same position again. -/
def Match.next (m : Match) : ℕ := if m.start < m.end_ then m.end_ else m.end_ + 1

/-- The matches from a position on, one behind the other. -/
inductive Iterates (matchAt : ℕ → Option Match) : ℕ → List Match → Prop
  | nil {k : ℕ} : FirstFrom matchAt k none → Iterates matchAt k []
  | cons {k : ℕ} {m : Match} {ms : List Match} : FirstFrom matchAt k (some m) → Iterates matchAt m.next ms →
      Iterates matchAt k (m :: ms)

/-- A range between characters of a text. -/
def IsRange (s : List Char) (range : ℕ × ℕ) : Prop :=
  range.1 ≤ range.2 ∧ IsBoundary s range.1 ∧ IsBoundary s range.2

/-- `Regex`. -/
structure Matcher where
  matchAt : List Char → ℕ → Option Match
  /-- `find_from(text, start).next()`. -/
  findFrom : List Char → ℕ → Option Match
  /-- `find_iter(text)`. -/
  findIter : List Char → List Match
  start_of_matchAt : ∀ {s p m}, matchAt s p = some m → m.start = p
  isRange_of_matchAt : ∀ {s p m}, matchAt s p = some m → ∀ range, some range ∈ m.groups → IsRange s range
  findFrom_first : ∀ s (k : ℕ), FirstFrom (matchAt s) k (findFrom s k)
  findIter_iterates : ∀ s, Iterates (matchAt s) 0 (findIter s)

structure RegExp where
  matcher : Matcher
  useLastIndex : Bool
  global : Bool
  sticky : Bool
  unicode : Bool

/-- `regexp_constructor`, behind the compilation. The property `lastIndex` is zero at first. -/
def RegExp.new (matcher : Matcher) (regexFlags : List Char) : RegExp where
  matcher := matcher
  useLastIndex := regexFlags.contains 'g' || regexFlags.contains 'y'
  global := regexFlags.contains 'g'
  sticky := regexFlags.contains 'y'
  unicode := regexFlags.contains 'u'

/-- What `exec` returns for a match: an array with two more properties. -/
structure ExecArray where
  elements : List (Option (List Char))
  index : Boxed
  input : List Char

/-- `s.get(a..b)`. -/
def sliceText (s : List Char) (range : ℕ × ℕ) : Option (List Char) :=
  if range.1 ≤ range.2 then (suffixAt s range.1).bind (prefixAt · (range.2 - range.1)) else none

/-- The slice at a range that is one. -/
def slice (s : List Char) (a b : ℕ) : List Char := (sliceText s (a, b)).getD []

def groupText (argStr : List Char) : Option (ℕ × ℕ) → Option (Option (List Char))
  | some range => (sliceText argStr range).map some
  | none => some none

def matchArray (argStr : List Char) (m : Match) : Option ExecArray :=
  (m.groups.mapM (groupText argStr)).map fun elements => ⟨elements, newPosition m.start, argStr⟩

def Match.array (s : List Char) (m : Match) : ExecArray :=
  ⟨m.groups.map fun group => group.map fun range => slice s range.1 range.2, newPosition m.start, s⟩

/-- The number that `JsValue::new(n as u32)` is. -/
def numberOfU32 (n : ℕ) : ℤ := (IntType.u32.cast n).bmod (2 ^ 32)

def regexpTest (re : RegExp) (lastIndex : ℤ) (argStr : List Char) : Bool × ℤ :=
  let last := asUsize (toI32 lastIndex)
  match re.matcher.findFrom argStr last with
  | some m => (true, numberOfU32 (if re.useLastIndex then m.end_ else last))
  | none => (false, numberOfU32 (if re.useLastIndex then 0 else last))

def regexpExec (re : RegExp) (lastIndex : ℤ) (argStr : List Char) : Option (Option ExecArray × ℤ) :=
  let last := asUsize (toI32 lastIndex)
  match re.matcher.findFrom argStr last with
  | some m => (matchArray argStr m).map fun result =>
      (some result, numberOfU32 (if re.useLastIndex then m.end_ else last))
  | none => some (none, numberOfU32 (if re.useLastIndex then 0 else last))

section

variable {matchAt : ℕ → Option Match} {matcher : Matcher} {s t : List Char} {range : ℕ × ℕ} {k n p : ℕ}
  {from_ : ℤ} {m : Match} {e e' : Option Match}

/-! ### First matches -/

theorem FirstFrom.unique (h : FirstFrom matchAt from_ e) (h' : FirstFrom matchAt from_ e') : e = e' := by
  cases e with
  | none =>
    cases e' with
    | none => rfl
    | some m' =>
      have hnone := h m'.start h'.1
      rw [h'.2.1] at hnone
      cases hnone
  | some m =>
    cases e' with
    | none =>
      have hnone := h' m.start h.1
      rw [h.2.1] at hnone
      cases hnone
    | some m' =>
      have hle : m'.start ≤ m.start := by
        by_contra hlt
        have hnone := h'.2.2 m.start h.1 (Nat.not_le.mp hlt)
        rw [h.2.1] at hnone
        cases hnone
      have hge : m.start ≤ m'.start := by
        by_contra hlt
        have hnone := h.2.2 m'.start h'.1 (Nat.not_le.mp hlt)
        rw [h'.2.1] at hnone
        cases hnone
      rw [← h.2.1, ← h'.2.1, le_antisymm hge hle]

theorem FirstFrom.of_le {from' : ℤ} (h : FirstFrom matchAt from' e) (hle : from_ ≤ from')
    (hskip : ∀ p : ℕ, from_ ≤ p → p < from' → matchAt p = none) : FirstFrom matchAt from_ e := by
  cases e with
  | none => exact fun p hp => (lt_or_ge (p : ℤ) from').elim (hskip p hp) (h p)
  | some m =>
    refine ⟨hle.trans h.1, h.2.1, fun p hp hlt => ?_⟩
    exact (lt_or_ge (p : ℤ) from').elim (hskip p hp) fun hge => h.2.2 p hge hlt

theorem FirstFrom.skip {from' : ℤ} (h : FirstFrom matchAt from_ e) (h' : FirstFrom matchAt from' e) {p : ℕ}
    (hp : from_ ≤ p) (hlt : p < from') : matchAt p = none := by
  cases e with
  | none => exact h p hp
  | some m =>
    refine h.2.2 p hp ?_
    have hle := h'.1
    omega

theorem FirstFrom.raise {from' : ℤ} (h : FirstFrom matchAt from_ e) (hle : from_ ≤ from')
    (hskip : ∀ p : ℕ, from_ ≤ p → p < from' → matchAt p = none) : FirstFrom matchAt from' e := by
  cases e with
  | none => exact fun p hp => h p (hle.trans hp)
  | some m =>
    refine ⟨?_, h.2.1, fun p hp hlt => h.2.2 p (hle.trans hp) hlt⟩
    by_contra hlt
    have hnone := hskip m.start h.1 (not_le.mp hlt)
    rw [h.2.1] at hnone
    cases hnone

theorem Matcher.matchAt_of_findFrom (h : matcher.findFrom s k = some m) :
    (k : ℤ) ≤ m.start ∧ matcher.matchAt s m.start = some m := by
  have hfirst := matcher.findFrom_first s k
  rw [h] at hfirst
  exact ⟨hfirst.1, hfirst.2.1⟩

/-! ### Ranges -/

theorem IsBoundary.le (h : IsBoundary s n) : n ≤ utf8Length s := by
  obtain ⟨u, v, rfl, rfl⟩ := h
  rw [utf8Length_append]
  exact Nat.le_add_right _ _

theorem IsRange.exists_parts {a b : ℕ} (h : IsRange s (a, b)) : ∃ u v w, s = u ++ (v ++ w) ∧
    utf8Length u = a ∧ utf8Length u + utf8Length v = b := by
  obtain ⟨hle, ⟨u, v, hs, hu⟩, ⟨u', v', hs', hu'⟩⟩ := h
  dsimp only at hle hu hu'
  rcases List.append_eq_append_iff.mp (hs.symm.trans hs') with ⟨w, rfl, hv⟩ | ⟨w, rfl, hv⟩
  · exact ⟨u, w, v', by rw [hs, hv], hu, by rw [← utf8Length_append, hu']⟩
  · rw [utf8Length_append] at hu
    have hw := length_le_utf8Length w
    obtain rfl := List.eq_nil_of_length_eq_zero (by omega : w.length = 0)
    exact ⟨u', [], v', by rw [hs', List.nil_append], by rwa [utf8Length_nil, Nat.add_zero] at hu,
      by rw [utf8Length_nil, Nat.add_zero, hu']⟩

theorem sliceText_append (u v w : List Char) :
    sliceText (u ++ (v ++ w)) (utf8Length u, utf8Length u + utf8Length v) = some v := by
  rw [sliceText, if_pos (Nat.le_add_right _ _), suffixAt_append, Option.bind_some,
    Nat.add_sub_cancel_left, prefixAt_append]

theorem slice_append (u v w : List Char) :
    slice (u ++ (v ++ w)) (utf8Length u) (utf8Length u + utf8Length v) = v := by
  rw [slice, sliceText_append, Option.getD_some]

theorem sliceText_of_isRange (h : IsRange s range) : sliceText s range = some (slice s range.1 range.2) := by
  obtain ⟨u, v, w, rfl, hu, hv⟩ := h.exists_parts
  rw [slice, show range = (utf8Length u, utf8Length u + utf8Length v) from Prod.ext hu.symm hv.symm,
    sliceText_append, Option.getD_some]

theorem utf8Length_slice {a b : ℕ} (h : IsRange s (a, b)) : utf8Length (slice s a b) = b - a := by
  obtain ⟨u, v, w, rfl, rfl, rfl⟩ := h.exists_parts
  rw [slice_append, Nat.add_sub_cancel_left]

theorem Matcher.matchArray_of_matchAt (h : matcher.matchAt s p = some m) :
    matchArray s m = some (m.array s) := by
  have hgroups : ∀ groups : List (Option (ℕ × ℕ)), (∀ range, some range ∈ groups → IsRange s range) →
      groups.mapM (groupText s) =
        some (groups.map fun group => group.map fun range => slice s range.1 range.2) := by
    intro groups hvalid
    induction groups with
    | nil => rfl
    | cons group groups ih =>
      rw [List.mapM_cons, ih fun range hr => hvalid range (List.mem_cons_of_mem _ hr)]
      cases group with
      | none => rfl
      | some range =>
        rw [groupText, sliceText_of_isRange (hvalid range List.mem_cons_self)]
        rfl
  rw [matchArray, hgroups m.groups (matcher.isRange_of_matchAt h), Option.map_some, Match.array]

theorem Matcher.end_le (h : matcher.matchAt s p = some m) : m.start ≤ m.end_ ∧ m.end_ ≤ utf8Length s := by
  have hrange := matcher.isRange_of_matchAt h (m.start, m.end_) List.mem_cons_self
  exact ⟨hrange.1, hrange.2.2.le⟩

/-! ### Numbers -/

theorem numberOfU32_eq (n : ℕ) : numberOfU32 n = (n : ℤ).bmod (2 ^ 32) := Int.emod_bmod (n : ℤ) (2 ^ 32)

theorem isNumberOf_numberOfU32 (n : ℕ) : (newPosition n).IsNumberOf (numberOfU32 n) := by
  rw [isNumberOf_newPosition_iff, numberOfU32_eq]

theorem numberOfU32_zero : numberOfU32 0 = 0 := numberOfU32_eq 0

theorem numberOfU32_asUsize (lastIndex : ℤ) :
    numberOfU32 (asUsize (toI32 lastIndex)) = toI32 lastIndex := by
  have hrange := toI32_range lastIndex
  rw [numberOfU32_eq, bmod_asUsize hrange.1 hrange.2]

theorem numberOfU32_eq_iff (h : n < 2 ^ 32) : numberOfU32 n = n ↔ n < 2 ^ 31 := by
  rw [numberOfU32_eq, Int.bmod_def]
  omega

theorem newPosition_inj {a b : ℕ} (ha : a < 2 ^ 32) (hb : b < 2 ^ 32) (h : newPosition a = newPosition b) :
    a = b := by
  have hnumber := isNumberOf_newPosition_iff.mp (h ▸ isNumberOf_newPosition_iff.mpr rfl :
    (newPosition b).IsNumberOf ((a : ℤ).bmod (2 ^ 32)))
  rw [Int.bmod_def, Int.bmod_def] at hnumber
  omega

/-! ### Expressions of plain characters -/

def literalMatchAt (t s : List Char) (p : ℕ) : Option Match :=
  match suffixAt s p with
  | some v => if t <+: v then some ⟨p, p + utf8Length t, []⟩ else none
  | none => none

theorem eq_of_literalMatchAt (h : literalMatchAt t s p = some m) :
    m = ⟨p, p + utf8Length t, []⟩ ∧ ∃ u v, s = u ++ (t ++ v) ∧ utf8Length u = p := by
  unfold literalMatchAt at h
  split at h
  · next v hv =>
    obtain ⟨u, rfl, hu⟩ := suffixAt_eq_some_iff.mp hv
    split at h
    · next hprefix =>
      obtain ⟨w, rfl⟩ := hprefix
      exact ⟨(Option.some.inj h).symm, u, w, rfl, hu⟩
    · cases h
  · cases h

/-- The search of the expression: the positions one after another. -/
def literalFindFrom (t s : List Char) (k : ℕ) : Option Match :=
  ((List.range (utf8Length s + 1)).find? fun p => decide (k ≤ p) && (literalMatchAt t s p).isSome).bind
    (literalMatchAt t s)

theorem literalFindFrom_first (t s : List Char) (k : ℕ) :
    FirstFrom (literalMatchAt t s) k (literalFindFrom t s k) := by
  have hle : ∀ p, (literalMatchAt t s p).isSome → p ≤ utf8Length s := fun p hp => by
    obtain ⟨m, hm⟩ := Option.isSome_iff_exists.mp hp
    obtain ⟨-, u, v, rfl, rfl⟩ := eq_of_literalMatchAt hm
    rw [utf8Length_append]
    exact Nat.le_add_right _ _
  unfold literalFindFrom
  cases hf : (List.range (utf8Length s + 1)).find? fun p =>
    decide (k ≤ p) && (literalMatchAt t s p).isSome with
  | none =>
    rw [List.find?_range_eq_none] at hf
    intro p hp
    by_contra hne
    have hsome := Option.isSome_iff_ne_none.mpr hne
    have hnot := hf p (Nat.lt_succ_of_le (hle p hsome))
    rw [hsome, Bool.and_true, Bool.not_eq_true', decide_eq_false_iff_not] at hnot
    omega
  | some p =>
    rw [List.find?_range_eq_some] at hf
    obtain ⟨hp, -, hbefore⟩ := hf
    rw [Bool.and_eq_true, decide_eq_true_eq] at hp
    obtain ⟨m, hm⟩ := Option.isSome_iff_exists.mp hp.2
    have hstart : m.start = p := by rw [(eq_of_literalMatchAt hm).1]
    rw [Option.bind_some, hm]
    refine ⟨by omega, by rw [hstart, hm], fun i hi hlt => ?_⟩
    have hnot := hbefore i (hstart ▸ hlt)
    rw [Bool.not_eq_true', Bool.and_eq_false_iff, decide_eq_false_iff_not] at hnot
    exact Option.not_isSome_iff_eq_none.mp (by rw [hnot.resolve_left (by omega)]; exact Bool.noConfusion)

def literalIter (t s : List Char) : ℕ → ℕ → List Match
  | 0, _ => []
  | fuel + 1, k =>
    match literalFindFrom t s k with
    | some m => m :: literalIter t s fuel m.next
    | none => []

theorem literalIter_iterates {fuel k : ℕ} (h : utf8Length s < k + fuel) :
    Iterates (literalMatchAt t s) k (literalIter t s fuel k) := by
  have hfirst := fun k => literalFindFrom_first t s k
  induction fuel generalizing k with
  | zero =>
    refine .nil fun p hp => ?_
    by_contra hne
    obtain ⟨m, hm⟩ := Option.ne_none_iff_exists'.mp hne
    obtain ⟨-, u, v, rfl, rfl⟩ := eq_of_literalMatchAt hm
    rw [utf8Length_append] at h
    omega
  | succ fuel ih =>
    have hk := hfirst k
    unfold literalIter
    cases hf : literalFindFrom t s k with
    | none =>
      rw [hf] at hk
      exact .nil hk
    | some m =>
      rw [hf] at hk
      refine .cons hk (ih ?_)
      have hstart := hk.1
      obtain ⟨hm, -⟩ := eq_of_literalMatchAt hk.2.1
      have hend : m.start ≤ m.end_ := by
        rw [hm]
        exact Nat.le_add_right _ _
      unfold Match.next
      split <;> omega

/-- The expression that matches the characters `t`. -/
def Matcher.literal (t : List Char) : Matcher where
  matchAt := literalMatchAt t
  findFrom := literalFindFrom t
  findIter s := literalIter t s (utf8Length s + 1) 0
  start_of_matchAt h := by
    rw [(eq_of_literalMatchAt h).1]
  isRange_of_matchAt h range hrange := by
    obtain ⟨rfl, u, v, rfl, rfl⟩ := eq_of_literalMatchAt h
    obtain rfl : range = (utf8Length u, utf8Length u + utf8Length t) := by
      simpa [Match.groups] using hrange
    refine ⟨Nat.le_add_right _ _, ⟨u, _, rfl, rfl⟩, u ++ t, v, by rw [List.append_assoc], ?_⟩
    rw [utf8Length_append]
  findFrom_first := literalFindFrom_first t
  findIter_iterates s := literalIter_iterates (by omega)

end

end Starlight
