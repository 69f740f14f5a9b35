import Starlight.Lib.Utf16
import Starlight.Vm.RegExp

/-!
# Splitting strings

Strings are split at a string or at the matches of a regular expression. With a limit, the first takes as
many pieces; the second leaves the rest of the text in its last piece.
-/

namespace Starlight

/-! ### At a string -/

/-- `to_uint32` of an integer that is not negative. -/
def toU32 (n : ℕ) : ℕ := (F64.ofInt n).toU32

def splitText (separator : List Char) : ℕ → List Char → List (List Char)
  | _, [] => [[]]
  | skip + 1, _ :: s => splitText separator skip s
  | 0, c :: s =>
    if separator <+: c :: s then [] :: splitText separator (separator.length - 1) s
    else match splitText separator 0 s with
      | piece :: pieces => (c :: piece) :: pieces
      | [] => [[c]]

def lossyUnit (u : ℕ) : List Char := [Char.ofNat (if IsSurrogate u then 0xFFFD else u)]

def stringSplit (str : List Char) (separator : Option (List Char)) (limit : Option ℕ) : List (List Char) :=
  let lim := limit.elim (2 ^ 32 - 1) toU32
  match separator with
  | none => if lim = 0 then [] else [str]
  | some separator =>
    if separator = [] then ((utf16 str).map lossyUnit).take lim
    else (splitText separator 0 str).take lim

/-! ### At the matches of an expression -/

/-- `RegexSearcher`: the matches that are left, and where the last step ended. -/
structure RegexSearcher where
  haystack : List Char
  it : List Match
  lastStepEnd : ℕ
  nextMatch : Option (ℕ × ℕ)

inductive SearchStep where
  | isMatch (a b : ℕ)
  | reject (a b : ℕ)
  | done

namespace RegexSearcher

def next (self : RegexSearcher) : SearchStep × RegexSearcher :=
  match self.nextMatch with
  | some (s, e) => (.isMatch s e, { self with nextMatch := none, lastStepEnd := e })
  | none =>
    match self.it with
    | [] =>
      if self.lastStepEnd < utf8Length self.haystack then
        (.reject self.lastStepEnd (utf8Length self.haystack),
          { self with lastStepEnd := utf8Length self.haystack })
      else (.done, self)
    | m :: it =>
      if m.start = self.lastStepEnd then
        (.isMatch m.start m.end_, { self with it := it, lastStepEnd := m.end_ })
      else (.reject self.lastStepEnd m.start,
        { self with it := it, nextMatch := some (m.start, m.end_), lastStepEnd := m.start })

def steps (self : RegexSearcher) : ℕ :=
  3 * self.it.length + (if self.nextMatch.isSome then 1 else 0) +
    if self.lastStepEnd < utf8Length self.haystack then 1 else 0

theorem steps_next {self self' : RegexSearcher} {a b : ℕ} (h : self.next = (.reject a b, self')) :
    self'.steps < self.steps := by
  unfold next at h
  split at h
  · cases h
  next hnone =>
  split at h
  · next hit =>
    split at h
    · next hlt =>
      obtain ⟨-, rfl⟩ := Prod.mk.inj h
      unfold steps
      dsimp only
      rw [if_pos hlt, if_neg (lt_irrefl _)]
      exact Nat.lt_succ_self _
    · cases h
  · next m it hit =>
    split at h
    · cases h
    · obtain ⟨-, rfl⟩ := Prod.mk.inj h
      unfold steps
      rw [hit, hnone]
      dsimp only
      rw [List.length_cons]
      split_ifs <;> simp_all <;> omega

def findNext (self : RegexSearcher) : Option (ℕ × ℕ) × RegexSearcher :=
  match _h : self.next with
  | (.isMatch a b, self) => (some (a, b), self)
  | (.reject _ _, self) => self.findNext
  | (.done, self) => (none, self)
termination_by self.steps
decreasing_by exact steps_next ‹_›

end RegexSearcher

/-- `splitn`: at most `n` pieces, the last of which is the rest. -/
def splitN (haystack : List Char) : ℕ → ℕ → RegexSearcher → List (List Char)
  | 0, _, _ => []
  | 1, start, _ => [slice haystack start (utf8Length haystack)]
  | n + 2, start, searcher =>
    match searcher.findNext with
    | (some (a, b), searcher) => slice haystack start a :: splitN haystack (n + 1) b searcher
    | (none, _) => [slice haystack start (utf8Length haystack)]

def regexpSplitFast (matcher : Matcher) (input : List Char) (limit : Option ℕ) : List (List Char) :=
  let limit := limit.elim (2 ^ 32 - 2) toU32
  if limit = 0 then []
  else if input = [] then
    match matcher.findFrom input 0 with
    | none => [input]
    | some _ => []
  else splitN input limit 0 ⟨input, matcher.findIter input, 0, none⟩

/-! ### The laws -/

/-- The pieces with what is between them. -/
def joinWith (separators : List (List Char)) : List (List Char) → List Char
  | [] => []
  | piece :: pieces => piece ++ (List.zipWith (· ++ ·) separators pieces).flatten

/-- A limit takes the first pieces. -/
def StringPrefixLaw (s : JsString) (separator : Option (List Char)) (n : ℕ) : Prop :=
  stringSplit s.string separator (some n) = (stringSplit s.string separator none).take n

def StringJoinLaw (s : JsString) (separator : List Char) : Prop :=
  List.intercalate separator (stringSplit s.string (some separator) none) = s.string

def RegExpPrefixLaw (matcher : Matcher) (s : JsString) (n : ℕ) : Prop :=
  regexpSplitFast matcher s.string (some n) = (regexpSplitFast matcher s.string none).take n

def RegExpJoinLaw (matcher : Matcher) (s : JsString) : Prop :=
  joinWith ((matcher.findIter s.string).map fun m => slice s.string m.start m.end_)
    (regexpSplitFast matcher s.string none) = s.string

section

variable {s : JsString} {text separator : List Char} {matcher : Matcher} {n d k : ℕ} {c : Char}

theorem toU32_eq (n : ℕ) : toU32 n = min n (2 ^ 32 - 1) := by
  rcases Nat.lt_or_ge n (2 ^ 32) with h | h
  · rw [toU32, toU32_ofInt h]
    omega
  · have hsaturated : toU32 n = min (⌊((n : ℤ) : ℚ)⌋).toNat (2 ^ 32 - 1) := rfl
    rw [hsaturated, Int.floor_intCast, Int.toNat_natCast]

/-! ### Strings -/

theorem length_lossyUnit (units : List ℕ) : (units.map lossyUnit).flatten.length = units.length := by
  induction units with
  | nil => rfl
  | cons u units ih =>
    rw [List.map_cons, List.flatten_cons, List.length_append, ih, List.length_cons, Nat.add_comm]
    rfl

theorem flatten_lossyUnit_iff :
    ((utf16 text).map lossyUnit).flatten = text ↔ ∀ c ∈ text, c.toNat < 0x10000 := by
  constructor
  · intro h
    have hlen := congrArg List.length h
    rw [length_lossyUnit] at hlen
    clear h
    induction text with
    | nil => exact fun c hc => absurd hc List.not_mem_nil
    | cons c text ih =>
      have hle := length_le_length_utf16 text
      rw [utf16_cons, List.length_append, List.length_cons] at hlen
      have hc := length_utf16Char_pos c
      refine List.forall_mem_cons.mpr ⟨?_, ih (by omega)⟩
      by_contra hge
      rw [utf16Char_of_ge (Nat.not_lt.mp hge), List.length_cons, List.length_singleton] at hlen
      omega
  · intro h
    induction text with
    | nil => rfl
    | cons c text ih =>
      obtain ⟨hc, htext⟩ := List.forall_mem_cons.mp h
      rw [utf16_cons, utf16Char_of_lt hc, List.singleton_append, List.map_cons, List.flatten_cons, ih htext,
        lossyUnit, if_neg (not_isSurrogate_toNat c), Char.ofNat_toNat]
      rfl

theorem splitText_ne_nil (separator text : List Char) : splitText separator k text ≠ [] := by
  induction k, text using splitText.induct separator with
  | case1 k => exact List.cons_ne_nil _ _
  | case2 k c text ih =>
    rw [splitText]
    exact ih
  | case3 c text h ih =>
    rw [splitText, if_pos h]
    exact List.cons_ne_nil _ _
  | case4 c text h piece pieces heq ih | case5 c text h heq ih =>
    rw [splitText, if_neg h, heq]
    exact List.cons_ne_nil _ _

theorem splitText_skip (separator text : List Char) (k : ℕ) :
    splitText separator k text = splitText separator 0 (text.drop k) := by
  induction k generalizing text with
  | zero => rfl
  | succ k ih =>
    cases text with
    | nil => rfl
    | cons c text => rw [splitText, ih, List.drop_succ_cons]

theorem intercalate_splitText (hsep : separator ≠ []) (text : List Char) :
    List.intercalate separator (splitText separator 0 text) = text := by
  induction hn : text.length using Nat.strong_induction_on generalizing text with
  | _ n ih =>
    cases text with
    | nil => rfl
    | cons c text =>
      subst hn
      rw [splitText]
      split
      · next hprefix =>
        obtain ⟨rest, hrest⟩ := hprefix
        have hdrop : text.drop (separator.length - 1) = rest := by
          obtain ⟨d, separator', rfl⟩ := List.exists_cons_of_ne_nil hsep
          rw [List.cons_append] at hrest
          rw [← (List.cons.inj hrest).2, List.length_cons, Nat.add_sub_cancel, List.drop_left]
        have hlt : rest.length < (c :: text).length := by
          rw [← hrest, List.length_append]
          have := List.length_pos_iff.mpr hsep
          omega
        rw [splitText_skip, hdrop]
        obtain ⟨piece, pieces, hpieces⟩ := List.exists_cons_of_ne_nil (@splitText_ne_nil 0 separator rest)
        have hjoin := ih _ hlt rest rfl
        rw [hpieces] at hjoin ⊢
        rw [List.intercalate_cons_cons, hjoin, List.nil_append, hrest]
      · have hjoin := ih _ (Nat.lt_succ_self _) text rfl
        obtain ⟨piece, pieces, hpieces⟩ := List.exists_cons_of_ne_nil (@splitText_ne_nil 0 separator text)
        rw [hpieces] at hjoin ⊢
        dsimp only
        cases pieces with
        | nil =>
          rw [List.intercalate_singleton] at hjoin ⊢
          rw [hjoin]
        | cons piece' pieces =>
          rw [List.intercalate_cons_cons] at hjoin ⊢
          rw [List.cons_append, List.cons_append, hjoin]

theorem length_intercalate_take_lt (hsep : separator ≠ []) {pieces : List (List Char)}
    (hlt : k + 1 < pieces.length) : (List.intercalate separator (pieces.take (k + 1))).length <
      (List.intercalate separator pieces).length := by
  induction k generalizing pieces with
  | zero =>
    match pieces, hlt with
    | piece :: piece' :: pieces, _ =>
      have hpos := List.length_pos_iff.mpr hsep
      rw [List.take_succ_cons, List.take_zero, List.intercalate_singleton, List.intercalate_cons_cons,
        List.length_append, List.length_append]
      omega
  | succ k ih =>
    match pieces, hlt with
    | piece :: piece' :: pieces, hlt =>
      have hrest := @ih (piece' :: pieces) (Nat.lt_of_succ_lt_succ hlt)
      rw [List.take_succ_cons] at hrest
      rw [List.take_succ_cons, List.take_succ_cons, List.intercalate_cons_cons, List.intercalate_cons_cons]
      rw [List.length_append, List.length_append, List.length_append, List.length_append]
      omega

theorem stringPrefixLaw (s : JsString) (separator : Option (List Char)) (n : ℕ) :
    StringPrefixLaw s separator n := by
  have hlim := toU32_eq n
  unfold StringPrefixLaw stringSplit
  dsimp only
  rw [Option.elim_some, Option.elim_none, hlim]
  cases separator with
  | none =>
    dsimp only
    rw [if_neg (by decide : ¬ 2 ^ 32 - 1 = 0)]
    cases n with
    | zero => rfl
    | succ n => rw [if_neg (by omega), List.take_succ_cons, List.take_nil]
  | some separator =>
    dsimp only
    split <;> rw [List.take_take]

/-- When the pieces are the string: with an empty separator, when every character is one unit of UTF-16, and
with another one, when the pieces can be counted. -/
def StringJoinExact (s : JsString) (separator : List Char) : Prop :=
  (separator = [] ∧ ∀ c ∈ s.string, c.toNat < 0x10000) ∨
    separator ≠ [] ∧ (splitText separator 0 s.string).length < 2 ^ 32

theorem stringJoinLaw_iff : StringJoinLaw s separator ↔ StringJoinExact s separator := by
  unfold StringJoinLaw StringJoinExact stringSplit
  dsimp only
  rw [Option.elim_none]
  by_cases hsep : separator = []
  · have hlen : ((utf16 s.string).map lossyUnit).length ≤ 2 ^ 32 - 1 := by
      have hle := length_utf16_le s.string
      have hfits : utf8Length s.string < 2 ^ 32 := s.fits
      rw [List.length_map]
      omega
    have hnil : ∀ pieces : List (List Char), List.intercalate [] pieces = pieces.flatten := fun pieces => by
      induction pieces with
      | nil => rfl
      | cons piece pieces ih =>
        cases pieces with
        | nil => simp
        | cons piece' pieces =>
          rw [List.intercalate_cons_cons, ih, List.append_nil]
          rfl
    rw [if_pos hsep, List.take_of_length_le hlen, hsep, hnil, flatten_lossyUnit_iff,
      or_iff_left fun h => h.1 rfl, and_iff_right rfl]
  · rw [if_neg hsep, or_iff_right fun h => hsep h.1, and_iff_right hsep]
    constructor
    · intro h
      by_contra hge
      have hlt := @length_intercalate_take_lt _ (2 ^ 32 - 2) hsep (splitText separator 0 s.string)
        (by omega)
      rw [show 2 ^ 32 - 2 + 1 = 2 ^ 32 - 1 from rfl, h, intercalate_splitText hsep] at hlt
      exact lt_irrefl _ hlt
    · intro h
      rw [List.take_of_length_le (by omega), intercalate_splitText hsep]

/-! ### Slices -/

theorem slice_self (text : List Char) (a : ℕ) (h : IsBoundary text a) : slice text a a = [] := by
  have hlen := @utf8Length_slice text a a ⟨le_rfl, h, h⟩
  have hle := length_le_utf8Length (slice text a a)
  exact List.eq_nil_of_length_eq_zero (by omega)

theorem slice_append_slice {a b e : ℕ} (h : IsRange text (a, b)) (h' : IsRange text (b, e)) :
    slice text a b ++ slice text b e = slice text a e := by
  obtain ⟨u, v, w, rfl, rfl, rfl⟩ := h.exists_parts
  obtain ⟨u', v', w', hs, hu, rfl⟩ := h'.exists_parts
  have hcut : u ++ v ++ w = u' ++ (v' ++ w') := by rw [List.append_assoc, hs]
  obtain ⟨rfl, rfl⟩ := eq_of_utf8Length_eq hcut (by rw [utf8Length_append, hu])
  have hsecond : slice (u ++ (v ++ (v' ++ w'))) (utf8Length u + utf8Length v)
      (utf8Length u + utf8Length v + utf8Length v') = v' := by
    have := slice_append (u ++ v) v' w'
    rwa [utf8Length_append, List.append_assoc] at this
  have hwhole : slice (u ++ (v ++ (v' ++ w'))) (utf8Length u)
      (utf8Length u + utf8Length v + utf8Length v') = v ++ v' := by
    have := slice_append u (v ++ v') w'
    rwa [utf8Length_append, List.append_assoc, ← Nat.add_assoc] at this
  rw [utf8Length_append, slice_append, hsecond, hwhole]

theorem isBoundary_zero (text : List Char) : IsBoundary text 0 := ⟨[], text, rfl, rfl⟩

theorem isBoundary_length (text : List Char) : IsBoundary text (utf8Length text) :=
  ⟨text, [], (List.append_nil text).symm, rfl⟩

theorem slice_whole (text : List Char) : slice text 0 (utf8Length text) = text := by
  have := slice_append [] text []
  rwa [List.append_nil, List.nil_append, utf8Length_nil, Nat.zero_add] at this

/-! ### Expressions -/

def pieces (text : List Char) : ℕ → ℕ → List Match → List (List Char)
  | 0, _, _ => []
  | 1, start, _ => [slice text start (utf8Length text)]
  | _ + 2, start, [] => [slice text start (utf8Length text)]
  | n + 2, start, m :: ms => slice text start m.start :: pieces text (n + 1) m.end_ ms

theorem RegexSearcher.findNext_of_isMatch {self self' : RegexSearcher} {a b : ℕ}
    (h : self.next = (.isMatch a b, self')) : self.findNext = (some (a, b), self') := by
  rw [findNext]
  split
  · next hnext =>
    obtain ⟨hstep, rfl⟩ := Prod.mk.inj (hnext.symm.trans h)
    obtain ⟨rfl, rfl⟩ := SearchStep.isMatch.inj hstep
    rfl
  · next hnext => exact nomatch hnext.symm.trans h
  · next hnext => exact nomatch hnext.symm.trans h

theorem RegexSearcher.findNext_of_reject {self self' : RegexSearcher} {a b : ℕ}
    (h : self.next = (.reject a b, self')) : self.findNext = self'.findNext := by
  rw [findNext]
  split
  · next hnext => exact nomatch hnext.symm.trans h
  · next hnext =>
    obtain ⟨-, rfl⟩ := Prod.mk.inj (hnext.symm.trans h)
    rfl
  · next hnext => exact nomatch hnext.symm.trans h

theorem RegexSearcher.findNext_of_done {self self' : RegexSearcher}
    (h : self.next = (.done, self')) : self.findNext = (none, self') := by
  rw [findNext]
  split
  · next hnext => exact nomatch hnext.symm.trans h
  · next hnext => exact nomatch hnext.symm.trans h
  · next hnext =>
    obtain ⟨-, rfl⟩ := Prod.mk.inj (hnext.symm.trans h)
    rfl

theorem RegexSearcher.findNext_cons (haystack : List Char) (m : Match) (it : List Match) (last : ℕ) :
    findNext ⟨haystack, m :: it, last, none⟩ =
      (some (m.start, m.end_), ⟨haystack, it, m.end_, none⟩) := by
  by_cases hstart : m.start = last
  · exact findNext_of_isMatch (if_pos hstart)
  · have hnext : next ⟨haystack, m :: it, last, none⟩ =
        (.reject last m.start, ⟨haystack, it, m.start, some (m.start, m.end_)⟩) := if_neg hstart
    rw [findNext_of_reject hnext]
    exact findNext_of_isMatch rfl

theorem RegexSearcher.findNext_nil (haystack : List Char) (last : ℕ) :
    (findNext ⟨haystack, [], last, none⟩).1 = none := by
  have hdone : ∀ last, ¬ last < utf8Length haystack →
      findNext ⟨haystack, [], last, none⟩ = (none, ⟨haystack, [], last, none⟩) := fun last h =>
    findNext_of_done (if_neg h)
  by_cases hlast : last < utf8Length haystack
  · have hnext : next ⟨haystack, [], last, none⟩ =
        (.reject last (utf8Length haystack), ⟨haystack, [], utf8Length haystack, none⟩) := if_pos hlast
    rw [findNext_of_reject hnext, hdone _ (lt_irrefl _)]
  · rw [hdone last hlast]

theorem splitN_eq (text : List Char) (n start last : ℕ) (ms : List Match) :
    splitN text n start ⟨text, ms, last, none⟩ = pieces text n start ms := by
  induction n generalizing start last ms with
  | zero => rfl
  | succ n ih =>
    cases n with
    | zero => rfl
    | succ n =>
      cases ms with
      | nil =>
        have hnone := RegexSearcher.findNext_nil text last
        rw [splitN, pieces]
        split
        · next hsome =>
          rw [hsome] at hnone
          cases hnone
        · rfl
      | cons m ms =>
        rw [splitN, RegexSearcher.findNext_cons, pieces]
        exact congrArg _ (ih m.end_ m.end_ ms)

/-! ### Pieces -/

def InOrder (text : List Char) : ℕ → List Match → Prop
  | _, [] => True
  | start, m :: ms => IsRange text (start, m.start) ∧ IsRange text (m.start, m.end_) ∧
      InOrder text m.end_ ms

theorem Iterates.inOrder {ms : List Match} (h : Iterates (matcher.matchAt text) k ms) {start : ℕ}
    (hstart : IsBoundary text start) (hle : start ≤ k) : InOrder text start ms := by
  induction h generalizing start with
  | nil => trivial
  | @cons k m ms hfirst hrest ih =>
    have hrange := matcher.isRange_of_matchAt hfirst.2.1 (m.start, m.end_) List.mem_cons_self
    have hge : start ≤ m.start := by
      have := hfirst.1
      omega
    refine ⟨⟨hge, hstart, hrange.2.1⟩, hrange, ih hrange.2.2 ?_⟩
    unfold Match.next
    split <;> omega

theorem length_pieces (text : List Char) (n start : ℕ) (ms : List Match) :
    (pieces text n start ms).length = min n (ms.length + 1) := by
  induction n generalizing start ms with
  | zero => exact (Nat.zero_min _).symm
  | succ n ih =>
    cases n with
    | zero => rw [pieces, List.length_singleton]; omega
    | succ n =>
      cases ms with
      | nil => rw [pieces, List.length_singleton, List.length_nil]; omega
      | cons m ms => rw [pieces, List.length_cons, ih, List.length_cons]; omega

theorem pieces_eq_of_lt {ms : List Match} (hn : ms.length < n) (hd : ms.length < d) (start : ℕ) :
    pieces text n start ms = pieces text d start ms := by
  induction ms generalizing n d start with
  | nil =>
    match n, d, hn, hd with
    | 1, 1, _, _ => rfl
    | 1, _ + 2, _, _ => rfl
    | _ + 2, 1, _, _ => rfl
    | _ + 2, _ + 2, _, _ => rfl
  | cons m ms ih =>
    match n, d, hn, hd with
    | n + 2, d + 2, hn, hd =>
      rw [pieces, pieces, ih (Nat.lt_of_succ_lt_succ hn) (Nat.lt_of_succ_lt_succ hd)]

/-- The last of `n` pieces is the rest of the text, which is the piece in front of the next match when that
starts at the end. -/
theorem pieces_eq_take_iff {ms : List Match} {start : ℕ} (h : InOrder text start ms)
    (hstart : IsBoundary text start) (hn : n + 1 < d) (hle : n + 1 ≤ ms.length) :
    pieces text (n + 1) start ms = (pieces text d start ms).take (n + 1) ↔
      ∃ m, ms[n]? = some m ∧ m.start = utf8Length text := by
  induction n generalizing d ms start with
  | zero =>
    match ms, d, h, hn with
    | m :: ms, d + 2, h, _ =>
      obtain ⟨hbefore, hrange, -⟩ := h
      have hrest : IsRange text (start, utf8Length text) :=
        ⟨hbefore.1.trans hrange.2.1.le, hstart, isBoundary_length text⟩
      rw [pieces, pieces, List.take_succ_cons, List.take_zero, List.singleton_inj,
        List.getElem?_cons_zero]
      constructor
      · intro heq
        have hlen := congrArg utf8Length heq
        rw [utf8Length_slice hrest, utf8Length_slice hbefore] at hlen
        have hle1 : start ≤ m.start := hbefore.1
        have hle2 : start ≤ utf8Length text := hrest.1
        exact ⟨m, rfl, by omega⟩
      · rintro ⟨m', hm', heq⟩
        obtain rfl := Option.some.inj hm'
        rw [heq]
  | succ n ih =>
    match ms, d, h, hn with
    | m :: ms, d + 2, h, hn =>
      obtain ⟨-, hrange, hrest⟩ := h
      rw [pieces, pieces, List.take_succ_cons, List.cons_inj_right, List.getElem?_cons_succ]
      exact ih hrest hrange.2.2 (Nat.lt_of_succ_lt_succ hn) (Nat.le_of_succ_le_succ hle)

theorem joinWith_pieces {ms : List Match} {start : ℕ} (h : InOrder text start ms)
    (hstart : IsBoundary text start) (n : ℕ) :
    joinWith (ms.map fun m => slice text m.start m.end_) (pieces text (n + 1) start ms) =
      slice text start (utf8Length text) := by
  induction ms generalizing start n with
  | nil =>
    cases n <;> exact List.append_nil _
  | cons m ms ih =>
    obtain ⟨hbefore, hrange, hrest⟩ := h
    cases n with
    | zero => exact List.append_nil _
    | succ n =>
      have hjoin := ih hrest hrange.2.2 n
      obtain ⟨piece, rest, hpieces⟩ := List.exists_cons_of_ne_nil
        (show pieces text (n + 1) m.end_ ms ≠ [] from
          List.ne_nil_of_length_pos (by rw [length_pieces]; omega))
      have hend : IsRange text (m.end_, utf8Length text) :=
        ⟨hrange.2.2.le, hrange.2.2, isBoundary_length text⟩
      have hmatch : IsRange text (m.start, utf8Length text) :=
        ⟨hrange.2.1.le, hrange.2.1, isBoundary_length text⟩
      rw [hpieces] at hjoin
      rw [pieces, hpieces, List.map_cons, joinWith, List.zipWith_cons_cons, List.flatten_cons,
        List.append_assoc]
      rw [joinWith] at hjoin
      rw [hjoin, slice_append_slice hrange hend, slice_append_slice hbefore hmatch]

theorem regexpSplitFast_eq (matcher : Matcher) (htext : text ≠ []) (limit : Option ℕ) :
    regexpSplitFast matcher text limit =
      pieces text (limit.elim (2 ^ 32 - 2) toU32) 0 (matcher.findIter text) := by
  unfold regexpSplitFast
  dsimp only
  by_cases hzero : limit.elim (2 ^ 32 - 2) toU32 = 0
  · rw [if_pos hzero, hzero]
    rfl
  · rw [if_neg hzero, if_neg htext, splitN_eq]

theorem regexpSplitFast_nil (matcher : Matcher) {limit : Option ℕ}
    (hlimit : limit.elim (2 ^ 32 - 2) toU32 ≠ 0) : regexpSplitFast matcher [] limit =
      match matcher.findFrom [] 0 with
      | none => [[]]
      | some _ => [] := by
  unfold regexpSplitFast
  dsimp only
  rw [if_neg hlimit, if_pos rfl]

theorem inOrder_findIter (matcher : Matcher) (text : List Char) : InOrder text 0 (matcher.findIter text) :=
  (matcher.findIter_iterates text).inOrder (isBoundary_zero text) le_rfl

/-- When a limit takes the first pieces: there is none to take or nothing to split, or there are less
matches than pieces to take, or the last match that it passes over starts at the end. Without a limit there are at
most `2 ^ 32 - 2` pieces. -/
def RegExpPrefixExact (matcher : Matcher) (s : JsString) (n : ℕ) : Prop :=
  n = 0 ∨ s.string = [] ∨ (matcher.findIter s.string).length < min n (2 ^ 32 - 2) ∨ n = 2 ^ 32 - 2 ∨
    n < 2 ^ 32 - 2 ∧ ∃ m, (matcher.findIter s.string)[n - 1]? = some m ∧ m.start = s.len

theorem regExpPrefixLaw_iff : RegExpPrefixLaw matcher s n ↔ RegExpPrefixExact matcher s n := by
  unfold RegExpPrefixLaw RegExpPrefixExact
  rcases Nat.eq_zero_or_pos n with rfl | hn
  · refine iff_of_true ?_ (.inl rfl)
    unfold regexpSplitFast
    dsimp only
    rw [Option.elim_some, toU32_eq, if_pos (Nat.zero_min _), List.take_zero]
  rw [or_iff_right hn.ne']
  by_cases hs : s.string = []
  · refine iff_of_true ?_ (.inl hs)
    have hlim : (some n).elim (2 ^ 32 - 2) toU32 ≠ 0 := by
      rw [Option.elim_some, toU32_eq]
      omega
    rw [hs, regexpSplitFast_nil matcher hlim, regexpSplitFast_nil matcher (by decide)]
    split
    · exact (List.take_of_length_le hn).symm
    · exact List.take_nil.symm
  have hd : 1 ≤ 2 ^ 32 - 2 := by decide
  rw [or_iff_right hs, regexpSplitFast_eq matcher hs, regexpSplitFast_eq matcher hs, Option.elim_some,
    Option.elim_none, toU32_eq, show 2 ^ 32 - 1 = 2 ^ 32 - 2 + 1 from rfl]
  have horder := inOrder_findIter matcher s.string
  have hzero := isBoundary_zero s.string
  unfold JsString.len
  generalize matcher.findIter s.string = ms at *
  generalize 2 ^ 32 - 2 = d at *
  rcases Nat.lt_or_ge ms.length (min n d) with hlen | hlen
  · -- less matches than pieces
    refine iff_of_true ?_ (.inl hlen)
    rw [pieces_eq_of_lt (by omega : ms.length < min n (d + 1)) (by omega : ms.length < d),
      List.take_of_length_le (by rw [length_pieces]; omega)]
  rw [or_iff_right (Nat.not_lt.mpr hlen)]
  rcases Nat.lt_trichotomy n d with hlt | rfl | hgt
  · obtain ⟨n, rfl⟩ := Nat.exists_eq_succ_of_ne_zero hn.ne'
    rw [min_eq_left (by omega), Nat.succ_eq_add_one, Nat.add_sub_cancel,
      pieces_eq_take_iff horder hzero hlt (by omega), or_iff_right hlt.ne, and_iff_right hlt]
  · rw [min_eq_left (Nat.le_succ n), List.take_of_length_le (by rw [length_pieces]; omega)]
    exact iff_of_true rfl (.inl rfl)
  · refine iff_of_false (fun h => ?_) fun h => h.elim (fun h => hgt.ne' h) fun h => hgt.not_gt h.1
    have hlength := congrArg List.length h
    rw [List.length_take, length_pieces, length_pieces] at hlength
    omega

theorem regExpJoinLaw (matcher : Matcher) (s : JsString) : RegExpJoinLaw matcher s := by
  unfold RegExpJoinLaw
  by_cases hs : s.string = []
  · rw [hs, regexpSplitFast_nil matcher (by decide)]
    split
    · rw [joinWith, List.zipWith_nil_right]
      rfl
    · rfl
  · rw [regexpSplitFast_eq matcher hs, Option.elim_none, show 2 ^ 32 - 2 = 2 ^ 32 - 3 + 1 from rfl,
      joinWith_pieces (inOrder_findIter matcher s.string) (isBoundary_zero _), slice_whole]

end

end Starlight
