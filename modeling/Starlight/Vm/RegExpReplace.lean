import Starlight.Vm.SplitLoop

/-!
# Replacing matches and going through them

`RegExp.prototype[Symbol.replace]` collects the matches in a loop of `exec`, and then puts the text together
from the parts in front of the matches, the replacements, and the rest. `RegExpStringIterator` hands out the
same matches one at a time.
-/

namespace Starlight

/-! ### Matches -/

def textLength (str : List Char) : ℤ := IntType.i32.cast (utf8Length str)

def ExecArray.matchStr (result : ExecArray) : List Char :=
  match result.elements with
  | some matchStr :: _ => matchStr
  | _ => "undefined".toList

/-- The new `lastIndex`, when the match was `empty` or not. -/
def indexBehind (str : JsString) (unicode : Bool) (lastIndex : ℤ) (empty : Bool) : Except (List Char) ℤ :=
  if empty then advanceStringIndex str lastIndex unicode else .ok lastIndex

/-! ### The loop -/

/-- The matches, or what is thrown. -/
abbrev ResultList := Except (List Char) (List ExecArray)

/-- How a round of the loop ends: the loop is done, or goes on with `lastIndex` and `resultList`. -/
abbrev ReplaceState := ResultList ⊕ ℤ × List ExecArray

/-- The round behind a match of a global expression. -/
def replaceNext (resultList : List ExecArray) : Except (List Char) ℤ → ReplaceState
  | .ok lastIndex => .inr (lastIndex, resultList)
  | .error e => .inl (.error e)

def replaceRound (regexp : RegExp) (str : JsString) (unicode : Bool) (lastIndex : ℤ)
    (resultList : List ExecArray) : Option ReplaceState :=
  (regexpExec regexp lastIndex str.string).map fun r => match r with
    | (none, _) => .inl (.ok resultList)
    | (some result, lastIndex) =>
      if regexp.global then replaceNext (resultList ++ [result])
        (indexBehind str unicode lastIndex (textLength result.matchStr = 0))
      else .inl (.ok (resultList ++ [result]))

def replaceLoop (regexp : RegExp) (str : JsString) (unicode : Bool) :
    ℕ → ℤ → List ExecArray → Option ResultList
  | 0, _, _ => none
  | fuel + 1, lastIndex, resultList =>
    (replaceRound regexp str unicode lastIndex resultList).bind fun
      | .inl x => some x
      | .inr (lastIndex, resultList) => replaceLoop regexp str unicode fuel lastIndex resultList

/-! ### The text -/

/-- The integer part of a number, for `___toIntegerOrInfinity`; the index of a match is not infinite. -/
def F64.integerPart : F64 → ℤ
  | .fin q => F64.truncRat q
  | _ => 0

def toIntegerOrInfinity (target : Boxed) : ℤ := target.getNumber.elim 0 F64.integerPart

/-- What the function is called with. -/
structure ReplacerArgs where
  matched : List Char
  captures : List (Option (List Char))
  position : ℤ
  str : List Char

/-- Where a match starts, but not in front of the string or behind it. -/
def ExecArray.position (result : ExecArray) (str : JsString) : ℤ :=
  max (min (toIntegerOrInfinity result.index) str.lengthProperty) 0

def ExecArray.replacerArgs (result : ExecArray) (str : JsString) : ReplacerArgs :=
  ⟨result.matchStr, result.elements.drop 1, result.position str, str.string⟩

/-- `substring`, called with one number. -/
def substringFrom (str : JsString) (start : ℤ) : Except (List Char) (List Char) :=
  stringSubstring str.string (some (toI32 start)) none

/-- The text from the matches on, the first of which is number `i`; the function may answer every call in
its own way. -/
def replaceResults (str : JsString) (replace : ℕ → ReplacerArgs → List Char) :
    ℕ → ℤ → List Char → List ExecArray → Except (List Char) (List Char)
  | _, nextSourcePosition, accumulatedResult, [] =>
    if str.lengthProperty ≤ nextSourcePosition then .ok accumulatedResult
    else (substringFrom str nextSourcePosition).map (accumulatedResult ++ ·)
  | i, nextSourcePosition, accumulatedResult, result :: resultList =>
    if nextSourcePosition ≤ result.position str then
      (substring str nextSourcePosition (result.position str)).bind fun part =>
        replaceResults str replace (i + 1) (result.position str + textLength result.matchStr)
          (accumulatedResult ++ (part ++ replace i (result.replacerArgs str))) resultList
    else replaceResults str replace (i + 1) nextSourcePosition accumulatedResult resultList

def regexpReplace (regexp : RegExp) (lastIndex : ℤ) (str : JsString)
    (replace : ℕ → ReplacerArgs → List Char) (fuel : ℕ) : Option (Except (List Char) (List Char)) :=
  (replaceLoop regexp str (regexp.global && regexp.unicode) fuel (if regexp.global then 0 else lastIndex)
    []).map fun resultList => resultList.bind (replaceResults str replace 0 0 [])

/-! ### The iterator -/

structure RegExpStringIterator where
  regExp : RegExp
  string : JsString
  global : Bool
  fullUnicode : Bool

structure RegExpStringIterator.State where
  done : Bool
  lastIndex : ℤ

/-- What `next` returns. -/
structure IteratorResult where
  value : Option ExecArray
  done : Bool

namespace RegExpStringIterator

/-- A call behind a match of a global expression. -/
def nextGlobal (found : ExecArray) (lastIndex : ℤ) :
    Except (List Char) ℤ → Except (List Char) IteratorResult × State
  | .ok lastIndex => (.ok ⟨some found, false⟩, ⟨false, lastIndex⟩)
  | .error e => (.error e, ⟨false, lastIndex⟩)

def next (it : RegExpStringIterator) (state : State) :
    Option (Except (List Char) IteratorResult × State) :=
  if state.done then some (.ok ⟨none, true⟩, state)
  else (regexpExec it.regExp state.lastIndex it.string.string).map fun r => match r with
    | (none, lastIndex) => (.ok ⟨none, true⟩, ⟨true, lastIndex⟩)
    | (some found, lastIndex) =>
      if it.global then
        nextGlobal found lastIndex (indexBehind it.string it.fullUnicode lastIndex (found.matchStr = []))
      else (.ok ⟨some found, false⟩, ⟨true, lastIndex⟩)

/-- What call number `n` returns or throws. -/
def answer (it : RegExpStringIterator) : ℕ → State → Option (Except (List Char) IteratorResult)
  | 0, state => (it.next state).map Prod.fst
  | n + 1, state => (it.next state).bind fun r => it.answer n r.2

end RegExpStringIterator

/-- `RegExp.prototype[Symbol.matchAll]`: the iterator over a new expression with the flags and the
`lastIndex` of the old one. -/
def matchAll (matcher : Matcher) (flags : List Char) (lastIndex : ℤ) (string : JsString) :
    RegExpStringIterator × RegExpStringIterator.State :=
  (⟨.new matcher flags, string, flags.contains 'g', flags.contains 'u'⟩, ⟨false, lastIndex⟩)

/-! ### What the functions should do -/

def RegExp.Search (regexp : RegExp) (s : List Char) (k : ℕ) (e : Option Match) : Prop :=
  if regexp.sticky then e = regexp.matcher.matchAt s k else FirstFrom (regexp.matcher.matchAt s) k e

/-- The matches from a position on, one behind the other. -/
inductive RegExp.Successive (regexp : RegExp) (s : List Char) : ℕ → List Match → Prop
  | nil {k : ℕ} : regexp.Search s k none → regexp.Successive s k []
  | cons {k : ℕ} {m : Match} {ms : List Match} : regexp.Search s k (some m) →
      regexp.Successive s m.next ms → regexp.Successive s k (m :: ms)

/-- The matches that are to be visited: of a global expression all from `lastIndex` on, and of another one
the first, at `lastIndex` when it is sticky. -/
def RegExp.Visits (regexp : RegExp) (lastIndex : ℤ) (s : List Char) (ms : List Match) : Prop :=
  if regexp.global then regexp.Successive s lastIndex.toNat ms
  else ∃ e, regexp.Search s (if regexp.sticky then lastIndex.toNat else 0) e ∧ ms = e.toList

/-- What the function is to be called with for a match. -/
def Match.replacerArgs (m : Match) (s : List Char) : ReplacerArgs :=
  ⟨slice s m.start m.end_, m.captures.map fun group => group.map fun range => slice s range.1 range.2,
    m.start, s⟩

def replaced (s : List Char) (replace : ℕ → ReplacerArgs → List Char) : ℕ → ℕ → List Match → List Char
  | _, a, [] => slice s a (utf8Length s)
  | i, a, m :: ms =>
    slice s a m.start ++ (replace i (m.replacerArgs s) ++ replaced s replace (i + 1) m.end_ ms)

/-- The loop ends and visits the matches, and for every function the text is the old one with every match
replaced. -/
def ReplaceLaw (regexp : RegExp) (lastIndex : ℤ) (s : JsString) : Prop :=
  ∃ ms resultList, regexp.Visits (if regexp.global then 0 else lastIndex) s.string ms ∧
    ms.mapM (matchArray s.string) = some resultList ∧
    (∃ fuel, replaceLoop regexp s (regexp.global && regexp.unicode) fuel
      (if regexp.global then 0 else lastIndex) [] = some (.ok resultList)) ∧
    ∀ replace, ∃ fuel, regexpReplace regexp lastIndex s replace fuel =
      some (.ok (replaced s.string replace 0 0 ms))

/-- The calls of `next` return the matches, and then that the iterator is done. -/
def MatchAllLaw (matcher : Matcher) (flags : List Char) (lastIndex : ℤ) (s : JsString) : Prop :=
  ∃ ms resultList, (RegExp.new matcher flags).Visits lastIndex s.string ms ∧
    ms.mapM (matchArray s.string) = some resultList ∧
    ∀ n : ℕ, (matchAll matcher flags lastIndex s).1.answer n (matchAll matcher flags lastIndex s).2 =
      some (.ok ⟨resultList[n]?, resultList[n]?.isNone⟩)

end Starlight
