import Starlight.Vm.RegExpReplace

/-!
# Which matches are visited

The loop of `replace` and the iterator take the same steps: a search at `lastIndex`, and behind an empty
match the index of the next one. They visit the matches one behind the other as long as the index is an
`i32`; an empty match at the largest of them is found again and again.
-/

namespace Starlight

def FoundAt (matchAt : ℕ → Option Match) (lastIndex : ℤ) (e : Option Match) : Prop :=
  if lastIndex < 0 then e = none else FirstFrom matchAt (min lastIndex (2 ^ 31 - 1)) e

/-- In unicode mode there is no next index for an empty match, but at the end and where the length of the
string is negative. -/
def Throws (unicode : Bool) (s : JsString) (p : ℕ) : Prop :=
  unicode = true ∧ p + 1 < s.len ∧ (s.len < 2 ^ 31 ∨ 2 ^ 31 ≤ p)

instance (unicode : Bool) (s : JsString) (p : ℕ) : Decidable (Throws unicode s p) :=
  inferInstanceAs (Decidable (_ ∧ _ ∧ _))

/-- The search behind each of the matches finds the next one: an empty match is not at the largest `i32` or
at the largest `u32`, and has a next index; and there is no match behind one whose end is no `i32`. Behind
the last match there must be none, also if the expression is sticky. -/
def Advances (regexp : RegExp) (s : JsString) : List Match → Prop
  | [] => True
  | m :: ms =>
    (m.start = m.end_ → m.end_ ≠ 2 ^ 31 - 1 ∧ m.end_ ≠ 2 ^ 32 - 1 ∧ ¬ Throws regexp.unicode s m.end_) ∧
      (2 ^ 31 ≤ m.end_ → ms = []) ∧
      (m.end_ < 2 ^ 31 → ms = [] → FirstFrom (regexp.matcher.matchAt s.string) m.next none) ∧
      Advances regexp s ms

def VisitsExact (regexp : RegExp) (lastIndex : ℤ) (s : JsString) (ms : List Match) : Prop :=
  FoundAt (regexp.matcher.matchAt s.string) lastIndex ms.head? ∧
    (regexp.global = true → Advances regexp s ms)

/-- The index where the search goes on behind a match. -/
def indexAfter (m : Match) : ℤ :=
  if m.start = m.end_ then numberOfU32 m.end_ + 1 else numberOfU32 m.end_

def Steps (regexp : RegExp) (s : JsString) : ℤ → List Match → Prop
  | lastIndex, [] => found regexp lastIndex s = none
  | lastIndex, m :: ms => found regexp lastIndex s = some m ∧
      ¬ (m.start = m.end_ ∧ Throws regexp.unicode s m.end_) ∧ Steps regexp s (indexAfter m) ms

section

variable {regexp : RegExp} {matcher : Matcher} {s : JsString} {text : List Char} {m m' : Match}
  {ms : List Match} {k p : ℕ} {lastIndex : ℤ} {e : Option Match} {a : ExecArray} {unicode : Bool}
  {result results y : List ExecArray} {x : ResultList}

/-! ### Arrays -/

theorem matchStr_array (m : Match) (text : List Char) :
    (m.array text).matchStr = slice text m.start m.end_ := rfl

theorem index_array (m : Match) (text : List Char) : (m.array text).index = newPosition m.start := by
  rw [Match.array]

theorem array_inj (h : matcher.matchAt s.string m.start = some m)
    (h' : matcher.matchAt s.string m'.start = some m') (heq : m.array s.string = m'.array s.string) :
    m = m' := by
  have hle := Matcher.end_le h
  have hle' := Matcher.end_le h'
  have hfits : utf8Length s.string < 2 ^ 32 := s.fits
  have hindex : newPosition m.start = newPosition m'.start := by
    rw [← index_array m s.string, heq, index_array]
  have hstart := newPosition_inj (by omega) (by omega) hindex
  rw [← hstart, h] at h'
  exact Option.some.inj h'

theorem mapM_matchArray (h : ∀ m ∈ ms, matcher.matchAt text m.start = some m) :
    ms.mapM (matchArray text) = some (ms.map (Match.array text)) := by
  induction ms with
  | nil => rfl
  | cons m ms ih =>
    obtain ⟨hm, hms⟩ := List.forall_mem_cons.mp h
    rw [List.mapM_cons, Matcher.matchArray_of_matchAt hm, ih hms]
    rfl

/-! ### Searches -/

theorem RegExp.Search.matchAt (h : regexp.Search text k (some m)) :
    k ≤ m.start ∧ regexp.matcher.matchAt text m.start = some m := by
  unfold RegExp.Search at h
  split at h
  · obtain rfl := regexp.matcher.start_of_matchAt h.symm
    exact ⟨le_rfl, h.symm⟩
  · exact ⟨Int.ofNat_le.mp h.1, h.2.1⟩

theorem RegExp.Successive.matchAt (h : regexp.Successive text k ms) :
    ∀ m ∈ ms, regexp.matcher.matchAt text m.start = some m := by
  induction h with
  | nil => exact fun m hm => absurd hm List.not_mem_nil
  | cons hsearch _ ih => exact List.forall_mem_cons.mpr ⟨hsearch.matchAt.2, ih⟩

theorem RegExp.Visits.matchAt (h : regexp.Visits lastIndex text ms) :
    ∀ m ∈ ms, regexp.matcher.matchAt text m.start = some m := by
  unfold RegExp.Visits at h
  split at h
  · exact h.matchAt
  · obtain ⟨e, hsearch, rfl⟩ := h
    cases e with
    | none => exact fun m hm => absurd hm List.not_mem_nil
    | some m => exact List.forall_mem_singleton.mpr hsearch.matchAt.2

theorem RegExp.Successive.head (h : regexp.Successive text k ms) : ∀ m ∈ ms.head?, k ≤ m.start := by
  cases h with
  | nil => exact nofun
  | cons hsearch _ =>
    intro m hm
    obtain rfl := Option.some.inj hm
    exact hsearch.matchAt.1

theorem found_eq_iff : found regexp lastIndex s = e ↔
    FoundAt (regexp.matcher.matchAt s.string) lastIndex e := by
  unfold FoundAt
  split
  · next hneg => rw [found_of_neg hneg]; exact eq_comm
  · next hneg =>
    have hfirst := @firstFrom_found regexp lastIndex s (not_lt.mp hneg)
    exact ⟨fun h => h ▸ hfirst, fun h => hfirst.unique h⟩

/-! ### One step -/

theorem numberOfU32_of_lt (h : p < 2 ^ 31) : numberOfU32 p = p := (numberOfU32_eq_iff (by omega)).mpr h

theorem numberOfU32_of_ge (h : 2 ^ 31 ≤ p) (hlt : p < 2 ^ 32) : numberOfU32 p = p - 2 ^ 32 := by
  rw [numberOfU32_eq, Int.bmod_def]
  omega

theorem advanceStringIndex_eq (hp : p ≤ s.len) (unicode : Bool) :
    (Throws unicode s p ∧
        advanceStringIndex s (numberOfU32 p) unicode = .error "not a callable object".toList) ∨
      ¬ Throws unicode s p ∧ advanceStringIndex s (numberOfU32 p) unicode = .ok (numberOfU32 p + 1) := by
  have hfits : s.len < 2 ^ 32 := s.fits
  unfold advanceStringIndex Throws
  cases unicode with
  | false => exact .inr ⟨fun h => Bool.noConfusion h.1, rfl⟩
  | true =>
    have hlast : s.lengthProperty ≤ numberOfU32 p + 1 ↔
        ¬ (p + 1 < s.len ∧ (s.len < 2 ^ 31 ∨ 2 ^ 31 ≤ p)) := by
      rw [lengthProperty_eq]
      rcases Nat.lt_or_ge p (2 ^ 31) with hlt | hge
      · rw [numberOfU32_of_lt hlt]
        split <;> omega
      · rw [numberOfU32_of_ge hge (by omega)]
        split <;> omega
    rw [Bool.not_true, if_neg Bool.false_ne_true]
    by_cases hthrow : p + 1 < s.len ∧ (s.len < 2 ^ 31 ∨ 2 ^ 31 ≤ p)
    · exact .inl ⟨⟨rfl, hthrow⟩, if_neg fun h => hlast.mp h hthrow⟩
    · exact .inr ⟨fun h => hthrow h.2, if_pos (hlast.mpr hthrow)⟩

theorem utf8Length_matchStr (h : matcher.matchAt s.string p = some m) :
    utf8Length (m.array s.string).matchStr = m.end_ - m.start :=
  utf8Length_slice (matcher.isRange_of_matchAt h (m.start, m.end_) List.mem_cons_self)

theorem textLength_eq_zero_iff (h : matcher.matchAt s.string p = some m) :
    textLength (m.array s.string).matchStr = 0 ↔ m.start = m.end_ := by
  have hle := Matcher.end_le h
  have hfits : utf8Length s.string < 2 ^ 32 := s.fits
  rw [textLength, utf8Length_matchStr h, i32_cast _ (by omega)]
  split <;> omega

theorem matchStr_eq_nil_iff (h : matcher.matchAt s.string p = some m) :
    (m.array s.string).matchStr = [] ↔ m.start = m.end_ := by
  have hle := Matcher.end_le h
  have hlen := utf8Length_matchStr h
  constructor
  · intro hnil
    rw [hnil, utf8Length_nil] at hlen
    omega
  · intro heq
    have := length_le_utf8Length (m.array s.string).matchStr
    exact List.eq_nil_of_length_eq_zero (by omega)

theorem indexBehind_eq (h : matcher.matchAt s.string p = some m) {empty : Bool}
    (hempty : empty = true ↔ m.start = m.end_) (unicode : Bool) :
    (m.start = m.end_ ∧ Throws unicode s m.end_) ∧
        indexBehind s unicode (numberOfU32 m.end_) empty = .error "not a callable object".toList ∨
      ¬ (m.start = m.end_ ∧ Throws unicode s m.end_) ∧
        indexBehind s unicode (numberOfU32 m.end_) empty = .ok (indexAfter m) := by
  unfold indexBehind indexAfter
  by_cases heq : m.start = m.end_
  · rw [if_pos (hempty.mpr heq), if_pos heq, and_iff_right heq]
    exact advanceStringIndex_eq (Matcher.end_le h).2 unicode
  · rw [if_neg fun hc => heq (hempty.mp hc), if_neg heq]
    exact .inr ⟨fun h => heq h.1, rfl⟩

theorem newLastIndex_found (hfound : found regexp lastIndex s = some m)
    (huse : regexp.useLastIndex = true) : newLastIndex regexp lastIndex s = numberOfU32 m.end_ := by
  rw [newLastIndex, huse, if_pos rfl, hfound, Option.elim_some]

/-! ### The loop -/

/-- The loop ends with `x`. -/
def Collects (regexp : RegExp) (s : JsString) (unicode : Bool) (lastIndex : ℤ) (result : List ExecArray)
    (x : ResultList) : Prop :=
  ∃ fuel, replaceLoop regexp s unicode fuel lastIndex result = some x

theorem isLoop_replaceLoop (regexp : RegExp) (s : JsString) (unicode : Bool) :
    IsLoop (fun a => replaceRound regexp s unicode a.1 a.2)
      fun n a => replaceLoop regexp s unicode n a.1 a.2 where
  zero _ := rfl
  succ n a := by
    rw [replaceLoop]
    congr 1
    funext r
    cases r <;> rfl

theorem collects_of_inl {x' : ResultList}
    (h : replaceRound regexp s unicode lastIndex result = some (.inl x')) :
    Collects regexp s unicode lastIndex result x ↔ x = x' := by
  unfold Collects
  have hloop := isLoop_replaceLoop regexp s unicode
  exact @IsLoop.exists_iff_of_inl _ _ _ _ ((lastIndex : ℤ), result) x x' hloop h

theorem collects_of_inr {lastIndex' : ℤ} {result' : List ExecArray}
    (h : replaceRound regexp s unicode lastIndex result = some (.inr (lastIndex', result'))) :
    Collects regexp s unicode lastIndex result x ↔ Collects regexp s unicode lastIndex' result' x := by
  unfold Collects
  have hloop := isLoop_replaceLoop regexp s unicode
  exact @IsLoop.exists_iff_of_inr _ _ _ _ ((lastIndex : ℤ), result) ((lastIndex' : ℤ), result') x hloop h

theorem collects_not_found (hfound : found regexp lastIndex s = none) :
    Collects regexp s unicode lastIndex result x ↔ x = .ok result := by
  exact collects_of_inl (by rw [replaceRound, exec_eq, hfound, Option.map_some, Option.map_none])

theorem collects_found (hfound : found regexp lastIndex s = some m) (huse : regexp.useLastIndex = true)
    (hglobal : regexp.global = true) :
    Collects regexp s unicode lastIndex result x ↔
      if m.start = m.end_ ∧ Throws unicode s m.end_ then x = .error "not a callable object".toList
      else Collects regexp s unicode (indexAfter m) (result ++ [m.array s.string]) x := by
  have hmatch := (Matcher.matchAt_of_findFrom hfound).2
  have hround : replaceRound regexp s unicode lastIndex result =
      some (replaceNext (result ++ [m.array s.string]) (indexBehind s unicode (numberOfU32 m.end_)
        (textLength (m.array s.string).matchStr = 0))) := by
    rw [replaceRound, exec_eq, newLastIndex_found hfound huse, hfound, Option.map_some, Option.map_some]
    dsimp only
    rw [hglobal, if_pos rfl]
  have hempty : decide (textLength (m.array s.string).matchStr = 0) = true ↔ m.start = m.end_ := by
    rw [decide_eq_true_eq, textLength_eq_zero_iff hmatch]
  rcases indexBehind_eq hmatch hempty unicode with ⟨hthrow, hindex⟩ | ⟨hnot, hindex⟩
  · rw [if_pos hthrow]
    rw [hindex, replaceNext] at hround
    exact collects_of_inl hround
  · rw [if_neg hnot]
    rw [hindex, replaceNext] at hround
    exact collects_of_inr hround

theorem replaceRound_cases {r : ReplaceState}
    (h : replaceRound regexp s unicode lastIndex result = some r) :
    ∃ results, r = .inl (.ok (result ++ results)) ∨ (∃ e, r = .inl (.error e)) ∨
      ∃ lastIndex', r = .inr (lastIndex', result ++ results) := by
  obtain ⟨⟨found, lastIndex'⟩, -, rfl⟩ := Option.map_eq_some_iff.mp h
  cases found with
  | none => exact ⟨[], .inl (by rw [List.append_nil])⟩
  | some a =>
    refine ⟨[a], ?_⟩
    dsimp only
    split
    · cases indexBehind s unicode lastIndex' (textLength a.matchStr = 0) with
      | error e => exact .inr (.inl ⟨e, rfl⟩)
      | ok lastIndex' => exact .inr (.inr ⟨lastIndex', rfl⟩)
    · exact .inl rfl

theorem Collects.grows (h : Collects regexp s unicode lastIndex result (.ok y)) : result <+: y := by
  obtain ⟨fuel, hfuel⟩ := h
  refine (isLoop_replaceLoop regexp s unicode).invariant (a := (lastIndex, result))
    (I := fun a => result <+: a.2) (P := fun x => ∀ y, x = .ok y → result <+: y) ?_ ?_
    (List.prefix_refl result) hfuel y rfl
  · rintro a b hI hround
    obtain ⟨results, h | ⟨e, h⟩ | ⟨lastIndex', h⟩⟩ := replaceRound_cases hround
    · cases h
    · cases h
    · obtain rfl := Sum.inr.inj h
      exact hI.trans (List.prefix_append _ _)
  · rintro a x hI hround y rfl
    obtain ⟨results, h | ⟨e, h⟩ | ⟨lastIndex', h⟩⟩ := replaceRound_cases hround
    · rw [Except.ok.inj (Sum.inl.inj h)]
      exact hI.trans (List.prefix_append _ _)
    · cases h
    · cases h

/-- **The loop of a global expression ends with the matches just when its steps find them.** -/
theorem collects_iff_steps (huse : regexp.useLastIndex = true) (hglobal : regexp.global = true)
    (hms : ∀ m ∈ ms, regexp.matcher.matchAt s.string m.start = some m) :
    Collects regexp s regexp.unicode lastIndex result (.ok (result ++ ms.map (Match.array s.string))) ↔
      Steps regexp s lastIndex ms := by
  induction ms generalizing lastIndex result with
  | nil =>
    rw [List.map_nil, List.append_nil, Steps]
    cases hfound : found regexp lastIndex s with
    | none => exact iff_of_true ((collects_not_found hfound).mpr rfl) rfl
    | some m =>
      rw [collects_found hfound huse hglobal]
      refine iff_of_false (fun h => ?_) nofun
      split at h
      · cases h
      · have hle := h.grows.length_le
        rw [List.length_append, List.length_singleton] at hle
        omega
  | cons m ms ih =>
    obtain ⟨hm, hrest⟩ := List.forall_mem_cons.mp hms
    rw [List.map_cons, Steps]
    cases hfound : found regexp lastIndex s with
    | none =>
      rw [collects_not_found hfound]
      refine iff_of_false (fun h => ?_) fun h => nomatch h.1
      exact List.cons_ne_nil _ _ (List.append_right_eq_self.mp (Except.ok.inj h))
    | some m' =>
      rw [collects_found hfound huse hglobal, Option.some.injEq]
      by_cases hsame : m' = m
      · subst hsame
        rw [and_iff_right rfl, List.append_cons, ← ih hrest]
        split
        · next hthrow => exact iff_of_false nofun fun h => h.1 hthrow
        · next hnot => exact (and_iff_right hnot).symm
      · refine iff_of_false (fun h => hsame ?_) fun h => hsame h.1
        split at h
        · cases h
        · obtain ⟨tail, htail⟩ := h.grows
          rw [List.append_assoc, List.append_cancel_left_eq] at htail
          exact array_inj (Matcher.matchAt_of_findFrom hfound).2 hm (List.cons.inj htail).1

theorem collects_iff_found (hglobal : regexp.global = false)
    (he : ∀ m ∈ e, regexp.matcher.matchAt s.string m.start = some m) :
    Collects regexp s unicode lastIndex [] (.ok (e.toList.map (Match.array s.string))) ↔
      found regexp lastIndex s = e := by
  cases hfound : found regexp lastIndex s with
  | none =>
    rw [collects_not_found hfound, Except.ok.injEq, List.map_eq_nil_iff, Option.toList_eq_nil_iff]
    exact eq_comm
  | some m =>
    have hm := (Matcher.matchAt_of_findFrom hfound).2
    have hround : replaceRound regexp s unicode lastIndex [] = some (.inl (.ok [m.array s.string])) := by
      rw [replaceRound, exec_eq, hfound, Option.map_some, Option.map_some]
      dsimp only
      rw [hglobal, if_neg Bool.false_ne_true, List.nil_append]
    rw [collects_of_inl hround, Except.ok.injEq]
    cases e with
    | none => exact iff_of_false nofun nofun
    | some m' =>
      rw [Option.toList_some, List.map_singleton, List.singleton_inj, Option.some.injEq]
      exact ⟨fun h => array_inj hm (he m' rfl) h.symm, fun h => h ▸ rfl⟩

/-! ### The iterator -/

variable {it : RegExpStringIterator} {state : RegExpStringIterator.State} {n : ℕ}

namespace RegExpStringIterator

theorem answer_of_done (it : RegExpStringIterator) (lastIndex : ℤ) (n : ℕ) :
    it.answer n ⟨true, lastIndex⟩ = some (.ok ⟨none, true⟩) := by
  induction n with
  | zero => rfl
  | succ n ih => exact ih

theorem next_not_found (hfound : found it.regExp lastIndex it.string = none) :
    ∃ lastIndex', it.next ⟨false, lastIndex⟩ = some (.ok ⟨none, true⟩, ⟨true, lastIndex'⟩) := by
  refine ⟨newLastIndex it.regExp lastIndex it.string, ?_⟩
  rw [next, if_neg Bool.false_ne_true, exec_eq, hfound, Option.map_some, Option.map_none]

theorem next_found (hfound : found it.regExp lastIndex it.string = some m)
    (huse : it.regExp.useLastIndex = true) (hglobal : it.global = true) :
    ∃ r, it.next ⟨false, lastIndex⟩ = some r ∧
      if m.start = m.end_ ∧ Throws it.fullUnicode it.string m.end_ then ∃ e, r.1 = .error e
      else r = (.ok ⟨some (m.array it.string.string), false⟩, ⟨false, indexAfter m⟩) := by
  have hmatch := (Matcher.matchAt_of_findFrom hfound).2
  have hnext : it.next ⟨false, lastIndex⟩ = some (nextGlobal (m.array it.string.string) (numberOfU32 m.end_)
      (indexBehind it.string it.fullUnicode (numberOfU32 m.end_)
        ((m.array it.string.string).matchStr = []))) := by
    rw [next, if_neg Bool.false_ne_true, exec_eq, newLastIndex_found hfound huse, hfound, Option.map_some,
      Option.map_some]
    dsimp only
    rw [hglobal, if_pos rfl]
  have hempty : decide ((m.array it.string.string).matchStr = []) = true ↔ m.start = m.end_ := by
    rw [decide_eq_true_eq, matchStr_eq_nil_iff hmatch]
  refine ⟨_, hnext, ?_⟩
  rcases indexBehind_eq hmatch hempty it.fullUnicode with ⟨hthrow, hindex⟩ | ⟨hnot, hindex⟩
  · rw [if_pos hthrow, hindex]
    exact ⟨_, rfl⟩
  · rw [if_neg hnot, hindex, nextGlobal]

theorem next_first (hfound : found it.regExp lastIndex it.string = some m) (hglobal : it.global = false) :
    ∃ lastIndex', it.next ⟨false, lastIndex⟩ =
      some (.ok ⟨some (m.array it.string.string), false⟩, ⟨true, lastIndex'⟩) := by
  refine ⟨newLastIndex it.regExp lastIndex it.string, ?_⟩
  rw [next, if_neg Bool.false_ne_true, exec_eq, hfound, Option.map_some, Option.map_some]
  dsimp only
  rw [hglobal, if_neg Bool.false_ne_true]

/-- **A call that says that the iterator is done is followed by such calls only.** -/
theorem answer_of_next_done {r : IteratorResult} {state' : State}
    (h : it.next state = some (.ok r, state')) (hdone : r.done = true) (n : ℕ) :
    it.answer n state' = some (.ok ⟨none, true⟩) := by
  unfold next at h
  split at h
  · next hstate =>
    obtain ⟨-, rfl⟩ := Prod.mk.inj (Option.some.inj h)
    obtain ⟨done, lastIndex⟩ := state
    obtain rfl : done = true := hstate
    exact answer_of_done it lastIndex n
  · obtain ⟨⟨found, lastIndex⟩, -, h⟩ := Option.map_eq_some_iff.mp h
    cases found with
    | none =>
      obtain ⟨-, rfl⟩ := Prod.mk.inj h
      exact answer_of_done it lastIndex n
    | some found =>
      dsimp only at h
      split at h
      · cases hindex : indexBehind it.string it.fullUnicode lastIndex (found.matchStr = []) with
        | error e =>
          rw [hindex] at h
          cases h
        | ok lastIndex' =>
          rw [hindex] at h
          obtain ⟨hr, -⟩ := Prod.mk.inj h
          rw [← Except.ok.inj hr] at hdone
          cases hdone
      · obtain ⟨hr, -⟩ := Prod.mk.inj h
        rw [← Except.ok.inj hr] at hdone
        cases hdone

/-- The calls return these arrays one after the other, and then that the iterator is done. -/
def Returns (it : RegExpStringIterator) (state : State) (results : List ExecArray) : Prop :=
  ∀ n : ℕ, it.answer n state = some (.ok ⟨results[n]?, results[n]?.isNone⟩)

theorem returns_nil {state' : State} (h : it.next state = some (.ok ⟨none, true⟩, state')) :
    it.Returns state results ↔ results = [] := by
  constructor
  · intro hall
    have hfirst := hall 0
    rw [answer, h] at hfirst
    cases results with
    | nil => rfl
    | cons a results => cases hfirst
  · rintro rfl n
    cases n with
    | zero =>
      rw [answer, h]
      rfl
    | succ n =>
      rw [answer, h]
      exact answer_of_next_done h rfl n

theorem returns_cons {state' : State} (h : it.next state = some (.ok ⟨some a, false⟩, state')) :
    it.Returns state results ↔ ∃ rest, results = a :: rest ∧ it.Returns state' rest := by
  constructor
  · intro hall
    have hfirst := hall 0
    rw [answer, h] at hfirst
    cases results with
    | nil => cases hfirst
    | cons a' results =>
      have hvalue := congrArg IteratorResult.value (Except.ok.inj (Option.some.inj hfirst))
      refine ⟨results, by rw [Option.some.inj hvalue], fun n => ?_⟩
      have hnext := hall (n + 1)
      rwa [answer, h] at hnext
  · rintro ⟨rest, rfl, hrest⟩ n
    cases n with
    | zero =>
      rw [answer, h]
      rfl
    | succ n =>
      rw [answer, h]
      exact hrest n

theorem not_returns_of_error {r : Except (List Char) IteratorResult × State} {e : List Char}
    (h : it.next state = some r) (he : r.1 = .error e) : ¬ it.Returns state results := by
  intro hall
  have hfirst := hall 0
  rw [answer, h, Option.map_some, he] at hfirst
  cases hfirst

/-- **The iterator over a global expression returns the matches just when its steps find them.** -/
theorem returns_iff_steps (huse : it.regExp.useLastIndex = true) (hglobal : it.global = true)
    (hunicode : it.fullUnicode = it.regExp.unicode)
    (hms : ∀ m ∈ ms, it.regExp.matcher.matchAt it.string.string m.start = some m) :
    it.Returns ⟨false, lastIndex⟩ (ms.map (Match.array it.string.string)) ↔
      Steps it.regExp it.string lastIndex ms := by
  induction ms generalizing lastIndex with
  | nil =>
    rw [List.map_nil, Steps]
    cases hfound : found it.regExp lastIndex it.string with
    | none =>
      obtain ⟨lastIndex', hnext⟩ := next_not_found hfound
      exact iff_of_true ((returns_nil hnext).mpr rfl) rfl
    | some m =>
      obtain ⟨r, hnext, hr⟩ := next_found hfound huse hglobal
      refine iff_of_false (fun h => ?_) nofun
      split at hr
      · obtain ⟨e, he⟩ := hr
        exact not_returns_of_error hnext he h
      · rw [hr] at hnext
        obtain ⟨rest, hrest, -⟩ := (returns_cons hnext).mp h
        cases hrest
  | cons m ms ih =>
    obtain ⟨hm, hrest⟩ := List.forall_mem_cons.mp hms
    rw [List.map_cons, Steps]
    cases hfound : found it.regExp lastIndex it.string with
    | none =>
      obtain ⟨lastIndex', hnext⟩ := next_not_found hfound
      exact iff_of_false (fun h => List.cons_ne_nil _ _ ((returns_nil hnext).mp h)) fun h => nomatch h.1
    | some m' =>
      obtain ⟨r, hnext, hr⟩ := next_found hfound huse hglobal
      rw [Option.some.injEq]
      split at hr
      · next hthrow =>
        obtain ⟨e, he⟩ := hr
        refine iff_of_false (not_returns_of_error hnext he) fun h => ?_
        rw [hunicode, h.1] at hthrow
        exact h.2.1 hthrow
      · next hnot =>
        rw [hr] at hnext
        rw [returns_cons hnext]
        constructor
        · rintro ⟨rest, heq, hreturns⟩
          obtain ⟨ha, rfl⟩ := List.cons.inj heq
          obtain rfl := array_inj hm (Matcher.matchAt_of_findFrom hfound).2 ha
          exact ⟨rfl, hunicode ▸ hnot, (ih hrest).mp hreturns⟩
        · rintro ⟨rfl, -, hsteps⟩
          exact ⟨_, rfl, (ih hrest).mpr hsteps⟩

theorem returns_iff_found (hglobal : it.global = false)
    (he : ∀ m ∈ e, it.regExp.matcher.matchAt it.string.string m.start = some m) :
    it.Returns ⟨false, lastIndex⟩ (e.toList.map (Match.array it.string.string)) ↔
      found it.regExp lastIndex it.string = e := by
  cases hfound : found it.regExp lastIndex it.string with
  | none =>
    obtain ⟨lastIndex', hnext⟩ := next_not_found hfound
    rw [returns_nil hnext, List.map_eq_nil_iff, Option.toList_eq_nil_iff]
    exact eq_comm
  | some m =>
    obtain ⟨lastIndex', hnext⟩ := next_first hfound hglobal
    rw [returns_cons hnext]
    cases e with
    | none => exact iff_of_false (fun ⟨_, h, _⟩ => nomatch h) nofun
    | some m' =>
      rw [Option.some.injEq]
      constructor
      · rintro ⟨rest, heq, -⟩
        exact (array_inj (he m' rfl) (Matcher.matchAt_of_findFrom hfound).2 (List.cons.inj heq).1).symm
      · rintro rfl
        exact ⟨[], rfl, fun n => answer_of_done it lastIndex' n⟩

end RegExpStringIterator

/-! ### When the steps find the matches -/

theorem foundAt_of_neg {matchAt : ℕ → Option Match} (h : lastIndex < 0) :
    FoundAt matchAt lastIndex e ↔ e = none := by rw [FoundAt, if_pos h]

theorem foundAt_of_lt {matchAt : ℕ → Option Match} (h : k < 2 ^ 31) :
    FoundAt matchAt k e ↔ FirstFrom matchAt k e := by
  rw [FoundAt, if_neg (Int.natCast_nonneg k).not_gt, min_eq_left (by omega)]

theorem not_firstFrom {matchAt : ℕ → Option Match} (hm : matchAt m.start = some m)
    (hk : lastIndex ≤ m.start) (he : ∀ m' ∈ e, m.start < m'.start) : ¬ FirstFrom matchAt lastIndex e := by
  intro hfirst
  have hnone : matchAt m.start = none := by
    cases e with
    | none => exact hfirst m.start hk
    | some m' => exact hfirst.2.2 m.start hk (he m' rfl)
  rw [hm] at hnone
  cases hnone

theorem RegExp.Search.firstFrom (h : regexp.Search text k (some m)) :
    FirstFrom (regexp.matcher.matchAt text) k (some m) := by
  unfold RegExp.Search at h
  split at h
  · have hstart := regexp.matcher.start_of_matchAt h.symm
    refine ⟨by omega, by rw [hstart, h], fun p hp hlt => ?_⟩
    omega
  · exact h

theorem Match.lt_next (h : m.start ≤ m.end_) : m.start < m.next := by
  unfold Match.next
  split <;> omega

theorem foundAt_indexAfter_iff (hm : regexp.matcher.matchAt s.string m.start = some m)
    (h : regexp.Successive s.string m.next ms) :
    FoundAt (regexp.matcher.matchAt s.string) (indexAfter m) ms.head? ↔
      (m.start = m.end_ → m.end_ ≠ 2 ^ 31 - 1 ∧ m.end_ ≠ 2 ^ 32 - 1) ∧ (2 ^ 31 ≤ m.end_ → ms = []) ∧
      (m.end_ < 2 ^ 31 → ms = [] → FirstFrom (regexp.matcher.matchAt s.string) m.next none) := by
  obtain ⟨hle, hend⟩ := Matcher.end_le hm
  have hfits : utf8Length s.string < 2 ^ 32 := s.fits
  have hnext := Match.lt_next hle
  have hbehind : ∀ m' ∈ ms.head?, m.start < m'.start := fun m' hm' => hnext.trans_le (h.head m' hm')
  have hfirst (hlt : m.next < 2 ^ 31) :
      FoundAt (regexp.matcher.matchAt s.string) m.next ms.head? ↔
        (ms = [] → FirstFrom (regexp.matcher.matchAt s.string) m.next none) := by
    rw [foundAt_of_lt hlt]
    cases h with
    | nil => exact ⟨fun h _ => h, fun h => h rfl⟩
    | cons hsearch hrest => exact iff_of_true hsearch.firstFrom nofun
  unfold indexAfter
  rcases Nat.lt_or_ge m.end_ (2 ^ 31) with hlt | hge
  · rw [numberOfU32_of_lt hlt, imp_iff_right hlt]
    have hvacuous : 2 ^ 31 ≤ m.end_ → ms = [] := fun hge => absurd hge (Nat.not_le.mpr hlt)
    rw [and_iff_right hvacuous]
    by_cases hempty : m.start = m.end_
    · rw [if_pos hempty, imp_iff_right hempty]
      rcases eq_or_ne m.end_ (2 ^ 31 - 1) with hlast | hlast
      · -- the same match is found again
        refine iff_of_false (fun hfound => ?_) fun h => h.1.1 hlast
        rw [FoundAt, if_neg (by omega)] at hfound
        exact not_firstFrom hm (by omega) hbehind hfound
      · have hindex : (m.end_ : ℤ) + 1 = m.next := by
          rw [Match.next, if_neg hempty.not_lt]
          rfl
        rw [hindex, hfirst (by rw [Match.next, if_neg hempty.not_lt]; omega)]
        exact (and_iff_right ⟨hlast, by omega⟩).symm
    · have hlong : m.start < m.end_ := lt_of_le_of_ne hle hempty
      have hindex : m.next = m.end_ := if_pos hlong
      rw [if_neg hempty, show (m.end_ : ℤ) = m.next by rw [hindex], hfirst (hindex.trans_lt hlt)]
      exact (and_iff_right fun h => absurd h hempty).symm
  · have hsize : m.end_ < 2 ^ 32 := hend.trans_lt hfits
    rw [numberOfU32_of_ge hge hsize, imp_iff_right hge]
    have hvacuous : m.end_ < 2 ^ 31 → ms = [] →
        FirstFrom (regexp.matcher.matchAt s.string) m.next none := fun hlt =>
      absurd hge (Nat.not_le.mpr hlt)
    rw [and_iff_left hvacuous]
    have hnone : ms.head? = none ↔ ms = [] := List.head?_eq_none_iff
    by_cases hempty : m.start = m.end_
    · rw [if_pos hempty, imp_iff_right hempty]
      rcases eq_or_ne m.end_ (2 ^ 32 - 1) with hlast | hlast
      · -- the search starts again
        refine iff_of_false (fun hfound => ?_) fun h => h.1.2 hlast
        rw [FoundAt, if_neg (by omega)] at hfound
        exact not_firstFrom hm (by omega) hbehind hfound
      · rw [foundAt_of_neg (by omega), hnone]
        exact (and_iff_right ⟨by omega, hlast⟩).symm
    · rw [if_neg hempty, foundAt_of_neg (by omega), hnone]
      exact (and_iff_right fun h => absurd h hempty).symm

theorem steps_iff (h : regexp.Successive s.string k ms) :
    Steps regexp s lastIndex ms ↔
      FoundAt (regexp.matcher.matchAt s.string) lastIndex ms.head? ∧ Advances regexp s ms := by
  induction h generalizing lastIndex with
  | nil => exact found_eq_iff.trans (and_iff_left trivial).symm
  | @cons k m ms hsearch hrest ih =>
    rw [Steps, found_eq_iff, ih, foundAt_indexAfter_iff hsearch.matchAt.2 hrest, Advances, List.head?_cons]
    tauto

variable {flags : List Char}

theorem collects_iff (huse : regexp.global = true → regexp.useLastIndex = true)
    (h : regexp.Visits lastIndex s.string ms) :
    Collects regexp s (regexp.global && regexp.unicode) lastIndex [] (.ok (ms.map (Match.array s.string))) ↔
      VisitsExact regexp lastIndex s ms := by
  have hms := h.matchAt
  unfold VisitsExact
  unfold RegExp.Visits at h
  split at h
  · next hglobal =>
    rw [hglobal, Bool.true_and, imp_iff_right rfl, ← steps_iff h]
    exact collects_iff_steps (huse hglobal) hglobal hms
  · next hglobal =>
    obtain ⟨e, -, rfl⟩ := h
    have he : ∀ m ∈ e, regexp.matcher.matchAt s.string m.start = some m := fun m hm =>
      hms m (Option.mem_toList.mpr hm)
    have hhead : e.toList.head? = e := by cases e <;> rfl
    rw [and_iff_left fun hc => absurd hc hglobal, hhead, ← found_eq_iff]
    exact collects_iff_found (Bool.not_eq_true _ ▸ hglobal) he

theorem returns_iff (h : (RegExp.new matcher flags).Visits lastIndex s.string ms) :
    (matchAll matcher flags lastIndex s).1.Returns (matchAll matcher flags lastIndex s).2
        (ms.map (Match.array s.string)) ↔ VisitsExact (.new matcher flags) lastIndex s ms := by
  have hms := h.matchAt
  unfold VisitsExact
  unfold RegExp.Visits at h
  split at h
  · next hglobal =>
    have huse : (RegExp.new matcher flags).useLastIndex = true := by
      rw [RegExp.new, Bool.or_eq_true]
      exact .inl hglobal
    rw [hglobal, imp_iff_right rfl, ← steps_iff h]
    exact RegExpStringIterator.returns_iff_steps huse hglobal rfl hms
  · next hglobal =>
    obtain ⟨e, -, rfl⟩ := h
    have he : ∀ m ∈ e, matcher.matchAt s.string m.start = some m := fun m hm =>
      hms m (Option.mem_toList.mpr hm)
    have hhead : e.toList.head? = e := by cases e <;> rfl
    rw [and_iff_left fun hc => absurd hc hglobal, hhead, ← found_eq_iff]
    exact RegExpStringIterator.returns_iff_found (Bool.not_eq_true _ ▸ hglobal) he

/-- When the iterator visits the matches. -/
def MatchAllExact (matcher : Matcher) (flags : List Char) (lastIndex : ℤ) (s : JsString) : Prop :=
  ∃ ms, (RegExp.new matcher flags).Visits lastIndex s.string ms ∧
    VisitsExact (.new matcher flags) lastIndex s ms

theorem matchAllLaw_iff :
    MatchAllLaw matcher flags lastIndex s ↔ MatchAllExact matcher flags lastIndex s := by
  refine exists_congr fun ms => ?_
  constructor
  · rintro ⟨results, hvisits, hresults, hreturns⟩
    rw [mapM_matchArray hvisits.matchAt] at hresults
    obtain rfl := Option.some.inj hresults
    exact ⟨hvisits, (returns_iff hvisits).mp hreturns⟩
  · rintro ⟨hvisits, hexact⟩
    exact ⟨_, hvisits, mapM_matchArray hvisits.matchAt, (returns_iff hvisits).mpr hexact⟩

end

end Starlight
