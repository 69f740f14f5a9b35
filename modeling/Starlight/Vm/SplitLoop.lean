import Starlight.Lib.Loop
import Starlight.Vm.RegExpProtocol
import Starlight.Vm.Split
import Starlight.Vm.StringPositions

/-!
# Splitting in JavaScript

The other way to split at an expression is a loop over the positions of the text, written for a sticky
expression. The search of the engine is never sticky, so that the loop takes every match for one at the
position where it looked: the piece in front of it is empty.
-/

namespace Starlight

/-! ### The loop -/

/-- `__advanceStringIndex__`. The function that it calls for two units is `undefined`. -/
def advanceStringIndex (string : JsString) (index : ℤ) (unicode : Bool) : Except (List Char) ℤ :=
  if !unicode then .ok (index + 1)
  else if string.lengthProperty ≤ index + 1 then .ok (index + 1)
  else .error "not a callable object".toList

/-- `substring`, called with two numbers. -/
def substring (str : JsString) (start end_ : ℤ) : Except (List Char) (List Char) :=
  stringSubstring str.string (some (toI32 start)) (some (toI32 end_))

/-- The captures of a match go behind the piece, until there is no room: `true`. -/
def pushCaptures (limit : ℕ) :
    List (Option (List Char)) → List (Option (List Char)) → Bool × List (Option (List Char))
  | [], result => (false, result)
  | capture :: captures, result =>
    if (result ++ [capture]).length = limit then (true, result ++ [capture])
    else pushCaptures limit captures (result ++ [capture])

/-- The array that is returned, or what is thrown. -/
abbrev SplitResult := Except (List Char) (List (Option (List Char)))

/-- How a round of the loop ends: the loop is done, or goes on with `position`, `matchPosition` and
`result`. -/
abbrev SplitState := SplitResult ⊕ ℤ × ℤ × List (Option (List Char))

/-- A round in which nothing is cut off, from the next position. -/
def splitAdvance (position : ℤ) (result : List (Option (List Char))) : Except (List Char) ℤ → SplitState
  | .ok next => .inr (position, next, result)
  | .error e => .inl (.error e)

/-- A round that cuts off a piece. -/
def splitPush (limit : ℕ) (endPosition : ℤ) (captures result : List (Option (List Char))) :
    Except (List Char) (List Char) → SplitState
  | .error e => .inl (.error e)
  | .ok subStr =>
    if (result ++ [some subStr]).length = limit then .inl (.ok (result ++ [some subStr]))
    else match pushCaptures limit captures (result ++ [some subStr]) with
      | (true, result) => .inl (.ok result)
      | (false, result) => .inr (endPosition, endPosition, result)

/-- The last piece, behind the loop. -/
def splitRemaining (result : List (Option (List Char))) : Except (List Char) (List Char) → SplitResult
  | .ok remainingStr => .ok (result ++ [some remainingStr])
  | .error e => .error e

def splitRound (splitter : RegExp) (str : JsString) (limit : ℕ) (unicodeMatching : Bool)
    (position matchPosition : ℤ) (result : List (Option (List Char))) : Option SplitState :=
  if matchPosition < str.lengthProperty then
    (regexpExec splitter matchPosition str.string).map fun r => match r with
      | (some found, lastIndex) =>
        if min lastIndex str.lengthProperty = position then
          splitAdvance position result (advanceStringIndex str matchPosition unicodeMatching)
        else splitPush limit (min lastIndex str.lengthProperty) (found.elements.drop 1) result
          (substring str position matchPosition)
      | (none, _) => splitAdvance position result (advanceStringIndex str matchPosition unicodeMatching)
  else some (.inl (splitRemaining result (substring str position str.lengthProperty)))

def splitLoop (splitter : RegExp) (str : JsString) (limit : ℕ) (unicodeMatching : Bool) :
    ℕ → ℤ → ℤ → List (Option (List Char)) → Option SplitResult
  | 0, _, _, _ => none
  | fuel + 1, position, matchPosition, result =>
    (splitRound splitter str limit unicodeMatching position matchPosition result).bind fun
      | .inl x => some x
      | .inr (position, matchPosition, result) =>
        splitLoop splitter str limit unicodeMatching fuel position matchPosition result

/-- `RegExp.prototype[Symbol.split]` behind the fast paths. -/
def regexpSplit (matcher : Matcher) (flags : List Char) (str : JsString) (limit : Option ℕ) (fuel : ℕ) :
    Option SplitResult :=
  let unicodeMatching := flags.contains 'u'
  let newFlags := if flags.contains 'y' then flags else flags ++ ['y']
  let splitter := RegExp.new matcher newFlags
  let limit := limit.elim (2 ^ 32 - 1) toU32
  if limit = 0 then some (.ok [])
  else if str.lengthProperty = 0 then
    (regexpExec splitter 0 str.string).map fun (z, _) => .ok (if z.isSome then [] else [some str.string])
  else splitLoop splitter str limit unicodeMatching fuel 0 0 []

/-- An expression without groups. -/
def Matcher.CaptureFree (matcher : Matcher) : Prop :=
  ∀ s p m, matcher.matchAt s p = some m → m.captures = []

section

variable {matcher : Matcher} {splitter : RegExp} {s : JsString} {limit left p q : ℕ} {unicode : Bool}
  {result y : List (Option (List Char))} {x : SplitResult} {m : Match}
  {ms : List Match} {text : List Char} {y' : SplitResult}

/-! ### Searching -/

theorem found_of_firstFrom {e : Option Match} (hq : q < 2 ^ 31)
    (h : FirstFrom (splitter.matcher.matchAt s.string) q e) : found splitter q s = e := by
  have hfirst := @firstFrom_found splitter q s (Int.natCast_nonneg q)
  rw [min_eq_left (by omega)] at hfirst
  exact hfirst.unique h

theorem exec_none (hq : q < 2 ^ 31) (h : FirstFrom (splitter.matcher.matchAt s.string) q none) :
    ∃ lastIndex, regexpExec splitter q s.string = some (none, lastIndex) :=
  ⟨_, by rw [exec_eq, found_of_firstFrom hq h, Option.map_none]⟩

theorem exec_some (huse : splitter.useLastIndex = true) (hcap : splitter.matcher.CaptureFree)
    (hs : s.len < 2 ^ 31) (hq : q < 2 ^ 31) (h : FirstFrom (splitter.matcher.matchAt s.string) q (some m)) :
    ∃ a, regexpExec splitter q s.string = some (some a, (m.end_ : ℤ)) ∧ a.elements.drop 1 = [] := by
  have hlt : m.end_ < 2 ^ 31 := (Matcher.end_le h.2.1).2.trans_lt hs
  refine ⟨m.array s.string, ?_, ?_⟩
  · rw [exec_eq, newLastIndex, huse, if_pos rfl, found_of_firstFrom hq h, Option.elim_some, Option.map_some,
      (numberOfU32_eq_iff (by omega)).mpr hlt]
  · rw [Match.array, Match.groups, hcap _ _ _ h.2.1]
    rfl

/-! ### Rounds -/

def Ends (splitter : RegExp) (s : JsString) (limit : ℕ) (unicode : Bool) (position matchPosition : ℕ)
    (result : List (Option (List Char))) (x : SplitResult) : Prop :=
  ∃ fuel, splitLoop splitter s limit unicode fuel position matchPosition result = some x

theorem isLoop_splitLoop (splitter : RegExp) (s : JsString) (limit : ℕ) (unicode : Bool) :
    IsLoop (fun a => splitRound splitter s limit unicode a.1 a.2.1 a.2.2)
      fun n a => splitLoop splitter s limit unicode n a.1 a.2.1 a.2.2 where
  zero _ := rfl
  succ n a := by
    rw [splitLoop]
    congr 1
    funext r
    cases r <;> rfl

theorem ends_of_inl (h : splitRound splitter s limit unicode p q result = some (.inl y')) :
    Ends splitter s limit unicode p q result x ↔ x = y' := by
  unfold Ends
  have hloop := isLoop_splitLoop splitter s limit unicode
  exact @IsLoop.exists_iff_of_inl _ _ _ _ ((p : ℤ), (q : ℤ), result) x y' hloop h

theorem ends_of_inr {p' q' : ℕ} {result' : List (Option (List Char))}
    (h : splitRound splitter s limit unicode p q result = some (.inr (p', q', result'))) :
    Ends splitter s limit unicode p q result x ↔ Ends splitter s limit unicode p' q' result' x := by
  unfold Ends
  have hloop := isLoop_splitLoop splitter s limit unicode
  exact @IsLoop.exists_iff_of_inr _ _ _ _ ((p : ℤ), (q : ℤ), result) ((p' : ℤ), (q' : ℤ), result') x hloop h

theorem ends_of_ge (hs : s.len < 2 ^ 31) (hq : s.len ≤ q) :
    Ends splitter s limit unicode p q result x ↔ x = splitRemaining result (substring s p s.len) := by
  have hnot : ¬ (q : ℤ) < s.len := not_lt.mpr (Int.ofNat_le.mpr hq)
  refine ends_of_inl ?_
  rw [splitRound, lengthProperty_of_lt hs, if_neg hnot]

theorem ends_of_advance (hs : s.len < 2 ^ 31) (h : splitRound splitter s limit unicode p q result =
      some (splitAdvance p result (advanceStringIndex s q unicode))) :
    Ends splitter s limit unicode p q result x ↔
      if unicode = true ∧ q + 1 < s.len then x = .error "not a callable object".toList
      else Ends splitter s limit unicode p (q + 1) result x := by
  by_cases hthrow : unicode = true ∧ q + 1 < s.len
  · have hlt : ¬ (s.len : ℤ) ≤ q + 1 := not_le.mpr (by exact_mod_cast hthrow.2)
    have hnext : advanceStringIndex s q unicode = .error "not a callable object".toList := by
      rw [advanceStringIndex, lengthProperty_of_lt hs, hthrow.1, if_neg (by decide), if_neg hlt]
    rw [if_pos hthrow]
    exact ends_of_inl (h.trans (by rw [hnext, splitAdvance]))
  · have hnext : advanceStringIndex s q unicode = .ok ((q + 1 : ℕ) : ℤ) := by
      cases unicode with
      | false => rfl
      | true =>
        have hge : (s.len : ℤ) ≤ q + 1 := by
          have hnot : ¬ q + 1 < s.len := fun hlt => hthrow ⟨rfl, hlt⟩
          exact_mod_cast not_lt.mp hnot
        rw [advanceStringIndex, lengthProperty_of_lt hs, if_neg (by decide), if_pos hge]
        rfl
    rw [if_neg hthrow]
    exact ends_of_inr (h.trans (by rw [hnext, splitAdvance]))

theorem splitRound_of_lt (hs : s.len < 2 ^ 31) (hq : q < s.len) {found : Option ExecArray} {lastIndex : ℤ}
    (h : regexpExec splitter q s.string = some (found, lastIndex)) :
    splitRound splitter s limit unicode p q result =
      some (found.elim (splitAdvance p result (advanceStringIndex s q unicode)) fun found =>
        if min lastIndex s.len = p then splitAdvance p result (advanceStringIndex s q unicode)
        else splitPush limit (min lastIndex s.len) (found.elements.drop 1) result (substring s p q)) := by
  have hlt : (q : ℤ) < s.len := Int.ofNat_lt.mpr hq
  rw [splitRound, lengthProperty_of_lt hs, if_pos hlt, h, Option.map_some]
  cases found <;> rfl

theorem ends_none (hs : s.len < 2 ^ 31) (hq : q < s.len)
    (h : FirstFrom (splitter.matcher.matchAt s.string) q none) :
    Ends splitter s limit unicode p q result x ↔
      if unicode = true ∧ q + 1 < s.len then x = .error "not a callable object".toList
      else Ends splitter s limit unicode p (q + 1) result x := by
  obtain ⟨lastIndex, hexec⟩ := @exec_none splitter s q (hq.trans hs) h
  exact ends_of_advance hs (splitRound_of_lt hs hq hexec)

theorem ends_skip (huse : splitter.useLastIndex = true) (hcap : splitter.matcher.CaptureFree)
    (hs : s.len < 2 ^ 31) (hq : q < s.len)
    (h : FirstFrom (splitter.matcher.matchAt s.string) q (some m)) (hm : m.end_ = p) :
    Ends splitter s limit unicode p q result x ↔
      if unicode = true ∧ q + 1 < s.len then x = .error "not a callable object".toList
      else Ends splitter s limit unicode p (q + 1) result x := by
  obtain ⟨a, hexec, -⟩ := @exec_some splitter s q m huse hcap hs (hq.trans hs) h
  have hle : (m.end_ : ℤ) ≤ s.len := Int.ofNat_le.mpr (Matcher.end_le h.2.1).2
  refine ends_of_advance hs ((splitRound_of_lt hs hq hexec).trans ?_)
  rw [Option.elim_some, min_eq_left hle, hm, if_pos rfl]

theorem splitRound_push (huse : splitter.useLastIndex = true) (hcap : splitter.matcher.CaptureFree)
    (hs : s.len < 2 ^ 31) (hq : q < s.len)
    (h : FirstFrom (splitter.matcher.matchAt s.string) q (some m)) (hm : m.end_ ≠ p) :
    splitRound splitter s limit unicode p q result =
      some (splitPush limit m.end_ [] result (substring s p q)) := by
  obtain ⟨a, hexec, hdrop⟩ := @exec_some splitter s q m huse hcap hs (hq.trans hs) h
  have hle : (m.end_ : ℤ) ≤ s.len := Int.ofNat_le.mpr (Matcher.end_le h.2.1).2
  rw [splitRound_of_lt hs hq hexec, Option.elim_some, min_eq_left hle,
    if_neg fun h => hm (Int.ofNat_inj.mp h), hdrop]

theorem ends_push_error (huse : splitter.useLastIndex = true) (hcap : splitter.matcher.CaptureFree)
    (hs : s.len < 2 ^ 31) (hq : q < s.len) (h : FirstFrom (splitter.matcher.matchAt s.string) q (some m))
    (hm : m.end_ ≠ p) {e : List Char} (hsub : substring s p q = .error e) :
    Ends splitter s limit unicode p q result x ↔ x = .error e := by
  refine ends_of_inl ((splitRound_push huse hcap hs hq h hm).trans ?_)
  rw [hsub, splitPush]

theorem ends_push (huse : splitter.useLastIndex = true) (hcap : splitter.matcher.CaptureFree)
    (hs : s.len < 2 ^ 31) (hq : q < s.len) (h : FirstFrom (splitter.matcher.matchAt s.string) q (some m))
    (hm : m.end_ ≠ p) {t : List Char} (hsub : substring s p q = .ok t) :
    Ends splitter s limit unicode p q result x ↔
      if result.length + 1 = limit then x = .ok (result ++ [some t])
      else Ends splitter s limit unicode m.end_ m.end_ (result ++ [some t]) x := by
  have hlen : (result ++ [some t]).length = result.length + 1 := List.length_append
  have hround := @splitRound_push splitter s limit p q unicode result m huse hcap hs hq h hm
  rw [hsub, splitPush, hlen] at hround
  split
  · next hlimit =>
    rw [if_pos hlimit] at hround
    exact ends_of_inl hround
  · next hlimit =>
    rw [if_neg hlimit] at hround
    exact ends_of_inr hround

/-! ### Substrings -/

theorem substring_eq_ok_iff (hs : s.len < 2 ^ 31) (hpq : p ≤ q) {t : List Char} :
    substring s p q = .ok t ↔ utf16 t = ((utf16 s.string).drop p).take (q - p) := by
  have hlen : (utf16 s.string).length < 2 ^ 31 := (length_utf16_le s.string).trans_lt hs
  rw [substring, stringSubstring_eq s (Int.natCast_nonneg p) (Int.ofNat_le.mpr hpq), mapError_eq_ok_iff,
    decodeUtf16_eq_ok_iff fun u hu => utf16_lt (part_reached_subset hu), reached, if_pos hlen]
  rfl

theorem substring_self (hs : s.len < 2 ^ 31) (p : ℕ) : substring s p p = .ok [] := by
  rw [substring_eq_ok_iff hs le_rfl, Nat.sub_self, List.take_zero]
  rfl

theorem substring_of_length_le (hs : s.len < 2 ^ 31) (hpq : p ≤ q) (hp : (utf16 s.string).length ≤ p) :
    substring s p q = .ok [] := by
  rw [substring_eq_ok_iff hs hpq, List.drop_of_length_le hp, List.take_nil]
  rfl

variable {u v : List Char}

theorem substring_rest_iff (hs : s.len < 2 ^ 31) (h : s.string = u ++ v) (hp : utf8Length u = p) :
    substring s p s.len = .ok v ↔ v = [] ∨ IsAscii u := by
  have hlen : s.len = p + utf8Length v := by rw [JsString.len, h, utf8Length_append, hp]
  have hu := length_utf16_le u
  have hv := length_utf16_le v
  have hv' := length_le_length_utf16 v
  rw [substring_eq_ok_iff hs (by omega), h, utf16_append]
  constructor
  · intro heq
    have hlength := congrArg List.length heq
    rw [List.length_take, List.length_drop, List.length_append] at hlength
    rw [← length_utf16_eq_utf8Length_iff]
    rcases Nat.eq_zero_or_pos v.length with hzero | hpos
    · exact .inl (List.eq_nil_of_length_eq_zero hzero)
    · exact .inr (by omega)
  · rintro (rfl | hascii)
    · rw [utf16_nil, List.append_nil, List.drop_of_length_le (hu.trans hp.le), List.take_nil]
    · have hunits := length_utf16_eq_utf8Length_iff.mpr hascii
      rw [← hp, ← hunits, List.drop_left, List.take_of_length_le (by omega)]

theorem substring_one_iff (hs : s.len < 2 ^ 31) (h : s.string = u ++ v) (hp : utf8Length u = p)
    (hv : v ≠ []) : substring s p (p + 1 : ℕ) = .ok v ↔ IsAscii u ∧ ∃ c, v = [c] ∧ c.toNat < 0x10000 := by
  have hu := length_utf16_le u
  have hpos := List.length_pos_iff.mpr hv
  have hle := length_le_length_utf16 v
  rw [substring_eq_ok_iff hs (Nat.le_add_right p 1), h, utf16_append, Nat.add_sub_cancel_left]
  constructor
  · intro heq
    have hlength := congrArg List.length heq
    rw [List.length_take, List.length_drop, List.length_append] at hlength
    obtain ⟨c, rfl⟩ := List.length_eq_one_iff.mp (by omega : v.length = 1)
    refine ⟨length_utf16_eq_utf8Length_iff.mp (by omega), c, rfl, ?_⟩
    by_contra hge
    rw [utf16_cons, utf16Char_of_ge (Nat.not_lt.mp hge), utf16_nil] at hlength
    simp at hlength
    omega
  · rintro ⟨hascii, c, rfl, hc⟩
    have hunits := length_utf16_eq_utf8Length_iff.mpr hascii
    rw [← hp, ← hunits, List.drop_left, utf16_cons, utf16Char_of_lt hc]
    rfl

/-! ### What a run of the loop leaves -/

theorem Ends.exists_append (huse : splitter.useLastIndex = true) (hcap : splitter.matcher.CaptureFree)
    (hs : s.len < 2 ^ 31) (hpq : p ≤ q) (hp : p ≤ s.len)
    (h : Ends splitter s limit unicode p q result (.ok y)) :
    ∃ rest, y = result ++ rest ∧ ((utf16 s.string).length ≤ p → ∀ t ∈ rest, t = some []) := by
  -- the position moves, or what was found is cut off there
  induction hn : 2 * (s.len - q) + (if p = q then 0 else 1) using Nat.strong_induction_on
    generalizing p q result with
  | _ n ih =>
  subst hn
  have hlast : ∀ {t q'}, p ≤ q' → substring s p q' = .ok t → (utf16 s.string).length ≤ p → t = [] :=
    fun hle ht hunits => Except.ok.inj (ht.symm.trans (substring_of_length_le hs hle hunits))
  rcases Nat.lt_or_ge q s.len with hq | hq
  · have hnext : (if unicode = true ∧ q + 1 < s.len then Except.ok y = .error "not a callable object".toList
        else Ends splitter s limit unicode p (q + 1) result (.ok y)) →
        ∃ rest, y = result ++ rest ∧ ((utf16 s.string).length ≤ p → ∀ t ∈ rest, t = some []) := by
      intro h
      split at h
      · cases h
      · exact ih _ (by split_ifs <;> omega) (Nat.le_succ_of_le hpq) hp h rfl
    have hfirst := splitter.matcher.findFrom_first s.string q
    cases hf : splitter.matcher.findFrom s.string q with
    | none =>
      rw [hf] at hfirst
      exact hnext ((ends_none hs hq hfirst).mp h)
    | some m =>
      rw [hf] at hfirst
      by_cases hm : m.end_ = p
      · exact hnext ((ends_skip huse hcap hs hq hfirst hm).mp h)
      · have hend := Matcher.end_le hfirst.2.1
        have hge : q ≤ m.end_ := (Int.ofNat_le.mp hfirst.1).trans hend.1
        cases hsub : substring s p q with
        | error e => exact nomatch (ends_push_error huse hcap hs hq hfirst hm hsub).mp h
        | ok t =>
          have hempty := hlast hpq hsub
          have hrest := (ends_push huse hcap hs hq hfirst hm hsub).mp h
          split at hrest
          · refine ⟨[some t], Except.ok.inj hrest, fun hunits => ?_⟩
            rw [hempty hunits]
            exact List.forall_mem_singleton.mpr rfl
          · obtain ⟨rest, hy, hall⟩ :=
              ih _ (by rw [if_pos rfl]; split_ifs <;> omega) le_rfl hend.2 hrest rfl
            refine ⟨some t :: rest, by rw [hy, List.append_assoc]; rfl, fun hunits => ?_⟩
            rw [hempty hunits]
            exact List.forall_mem_cons.mpr ⟨rfl, hall (hunits.trans (hpq.trans hge))⟩
  · have hrest := (ends_of_ge hs hq).mp h
    cases hsub : substring s p s.len with
    | error e =>
      rw [hsub, splitRemaining] at hrest
      cases hrest
    | ok t =>
      rw [hsub, splitRemaining] at hrest
      refine ⟨[some t], Except.ok.inj hrest, fun hunits => ?_⟩
      rw [hlast hp hsub hunits]
      exact List.forall_mem_singleton.mpr rfl

theorem ends_of_none (hs : s.len < 2 ^ 31) (hq : q ≤ s.len)
    (h : FirstFrom (splitter.matcher.matchAt s.string) q none) :
    Ends splitter s limit unicode p q result x ↔
      if unicode = true ∧ q + 1 < s.len then x = .error "not a callable object".toList
      else x = splitRemaining result (substring s p s.len) := by
  induction hn : s.len - q generalizing q with
  | zero =>
    rw [ends_of_ge hs (by omega), if_neg (by omega)]
  | succ n ih =>
    have hlt : q < s.len := by omega
    rw [ends_none hs hlt h]
    split
    · exact Iff.rfl
    · next hthrow =>
      have hnext : FirstFrom (splitter.matcher.matchAt s.string) (q + 1 : ℕ) none :=
        fun i hi => h i (by omega)
      rw [ih hlt hnext (by omega), if_neg (fun hc => hthrow ⟨hc.1, by omega⟩)]

end

end Starlight
