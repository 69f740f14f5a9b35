import Starlight.Vm.Split

/-!
# Replacing the first match

`string_replace` finds the first match, expands the template of the replacement with the groups of that match,
and then replaces the matched text, wherever it occurs: `str::replace` takes the text and not the position.

Of a form `$nn` whose number is too great, the edition of 2021 makes nothing, and the later ones the capture of
its first digit when there is one. What the template stands for is defined for both.
-/

namespace Starlight

/-! ### The function -/

def groupSlice (primitiveVal : List Char) (mat : Match) (n : ℕ) : Option (List Char) :=
  match mat.groups[n]? with
  | some (some range) => sliceText primitiveVal range
  | _ => some []

/-- The two texts, one after the other. -/
def pushStr (text rest : Option (List Char)) : Option (List Char) :=
  text.bind fun text => rest.map fun rest => text ++ rest

/-- The loop of `string_replace` over the characters of the template. -/
def expandTemplate (primitiveVal : List Char) (mat : Match) : List Char → Option (List Char)
  | [] => some []
  | first :: chars =>
    if first ≠ '$' then (expandTemplate primitiveVal mat chars).map (first :: ·)
    else
      match chars with
      | [] => some [first]
      | second :: chars =>
        if second = '$' then (expandTemplate primitiveVal mat chars).map ('$' :: ·)
        else if second = '&' then
          pushStr (sliceText primitiveVal (mat.start, mat.end_)) (expandTemplate primitiveVal mat chars)
        else if second = '\x60' then
          pushStr (sliceText primitiveVal (0, mat.start)) (expandTemplate primitiveVal mat chars)
        else if second = '\x27' then
          pushStr (sliceText primitiveVal (mat.end_, utf8Length primitiveVal)) (expandTemplate primitiveVal mat chars)
        else if second.isDigit then
          match chars with
          | [] =>
            let n := second.toNat - 48
            if n = 0 ∨ mat.captures.length < n then some [first, second] else groupSlice primitiveVal mat n
          | third :: chars' =>
            if third.isDigit then
              let nn := 10 * (second.toNat - 48) + (third.toNat - 48)
              if nn = 0 ∨ mat.captures.length < nn then
                (expandTemplate primitiveVal mat chars').map ([first, second, third] ++ ·)
              else pushStr (groupSlice primitiveVal mat nn) (expandTemplate primitiveVal mat chars')
            else
              let n := second.toNat - 48
              if n = 0 ∨ mat.captures.length < n then
                (expandTemplate primitiveVal mat (third :: chars')).map ([first, second] ++ ·)
              else pushStr (groupSlice primitiveVal mat n) (expandTemplate primitiveVal mat (third :: chars'))
        -- `$<` is copied like any other pair
        else (expandTemplate primitiveVal mat chars).map ([first, second] ++ ·)

/-- The parts of a text between the occurrences of another one, as `str::replace` finds them. -/
def piecesBetween (from_ s : List Char) : List (List Char) :=
  if from_ = [] then [] :: (s.map ([·]) ++ [[]]) else splitText from_ 0 s

def strReplace (s from_ to_ : List Char) : List Char := List.intercalate to_ (piecesBetween from_ s)

/-- `string_replace`, behind the compilation of the pattern. A slice that is none panics: `none`. -/
def stringReplace (re : Matcher) (primitiveVal : List Char) (val : Option (List Char)) : Option (List Char) :=
  match re.findFrom primitiveVal 0 with
  | none => some primitiveVal
  | some mat => do
    let replaceValue ← val.elim (some "undefined".toList) (expandTemplate primitiveVal mat)
    let matched ← sliceText primitiveVal (mat.start, mat.end_)
    some (strReplace primitiveVal matched replaceValue)

/-! ### What it is to do -/

section Substitution

variable (fallback : Bool) (s : List Char) (m : Match)

/-- The text of a capture, empty when it did not take part. -/
def captureText (n : ℕ) : List Char :=
  match m.groups[n]? with
  | some (some range) => slice s range.1 range.2
  | _ => []

/-- A form `$n` or `$nn` with the text it stands for and the number of its digits. -/
def captureForm (c : Char) (t : List Char) : Option (List Char × ℕ) :=
  let n := c.toNat - 48
  match t.head?.filter Char.isDigit with
  | some d =>
    let nn := 10 * n + (d.toNat - 48)
    if 1 ≤ nn ∧ nn ≤ m.captures.length then some (captureText s m nn, 2)
    else if fallback ∧ m.captures.length < nn ∧ 1 ≤ n ∧ n ≤ m.captures.length then some (captureText s m n, 1)
    else none
  | none => if 1 ≤ n ∧ n ≤ m.captures.length then some (captureText s m n, 1) else none

/-- The form at the front of a template, by its text and how many characters follow the dollar sign. -/
def templateForm : List Char → Option (List Char × ℕ)
  | first :: c :: t =>
    if first ≠ '$' then none
    else if c = '$' then some (['$'], 1)
    else if c = '&' then some (slice s m.start m.end_, 1)
    else if c = '\x60' then some (slice s 0 m.start, 1)
    else if c = '\x27' then some (slice s m.end_ (utf8Length s), 1)
    else if c.isDigit then captureForm fallback s m c t
    else none
  | _ => none

def getSubstitution : ℕ → List Char → List Char
  | _, [] => []
  | skip + 1, _ :: t => getSubstitution skip t
  | 0, c :: t =>
    match templateForm fallback s m (c :: t) with
    | some (text, k) => text ++ getSubstitution k t
    | none => c :: getSubstitution 0 t

end Substitution

/-- Exactly the first match is replaced, by what the template stands for. -/
def StringReplaceLaw (fallback : Bool) (re : Matcher) (s r : List Char) : Prop :=
  ∀ e, FirstFrom (re.matchAt s) 0 e → stringReplace re s (some r) =
    some (match e with
      | none => s
      | some m => slice s 0 m.start ++ (getSubstitution fallback s m 0 r ++ slice s m.end_ (utf8Length s)))

/-- The text of the match is replaced by itself, or it occurs in one place only: at the match, or so that it
makes no difference. -/
def SpliceExact (s : List Char) (m : Match) (text : List Char) : Prop :=
  text = slice s m.start m.end_ ∨ ∃ x y d e, piecesBetween (slice s m.start m.end_) s = [x, y] ∧
    slice s 0 m.start = x ++ d ∧ y = e ++ slice s m.end_ (utf8Length s) ∧ text ++ e = d ++ text

/-! ### The template -/

section Template

variable {s t : List Char} {m : Match} {fallback : Bool}

theorem groupSlice_eq (hm : ∀ range, some range ∈ m.groups → IsRange s range) (n : ℕ) :
    groupSlice s m n = some (captureText s m n) := by
  unfold groupSlice captureText
  split
  · next range hrange => exact sliceText_of_isRange (hm range (List.mem_of_getElem? hrange))
  · rfl

theorem getSubstitution_plain {c : Char} (hc : c ≠ '$') (t : List Char) :
    getSubstitution fallback s m 0 (c :: t) = c :: getSubstitution fallback s m 0 t := by
  have hform : templateForm fallback s m (c :: t) = none := by
    cases t with
    | nil => rfl
    | cons d t => exact if_pos hc
  rw [getSubstitution, hform]

theorem ne_dollar_of_isDigit {c : Char} (h : c.isDigit = true) : c ≠ '$' := by
  rintro rfl
  exact absurd h (by decide)

theorem getSubstitution_pair {c : Char} (hform : templateForm fallback s m ('$' :: c :: t) = none) (hc : c ≠ '$') :
    getSubstitution fallback s m 0 ('$' :: c :: t) = ['$', c] ++ getSubstitution fallback s m 0 t := by
  rw [getSubstitution, hform]
  exact congrArg ('$' :: ·) (getSubstitution_plain hc t)

theorem getSubstitution_form {text : List Char} {k : ℕ} (hform : templateForm fallback s m t = some (text, k)) :
    getSubstitution fallback s m 0 t = text ++ getSubstitution fallback s m k t.tail := by
  cases t with
  | nil => cases hform
  | cons c t =>
    rw [getSubstitution, hform]
    rfl

theorem templateForm_digit {c : Char} (hc : c.isDigit = true) (t : List Char) :
    templateForm fallback s m ('$' :: c :: t) = captureForm fallback s m c t := by
  have hne : ∀ d : Char, d.isDigit = false → c ≠ d := by
    rintro d hd rfl
    rw [hc] at hd
    cases hd
  rw [templateForm, if_neg (not_not.mpr rfl), if_neg (hne _ rfl), if_neg (hne _ rfl), if_neg (hne _ rfl),
    if_neg (hne _ rfl), if_pos hc]

theorem captureForm_one {c : Char} (ht : ∀ d ∈ t.head?, d.isDigit = false) :
    captureForm fallback s m c t =
      if c.toNat - 48 = 0 ∨ m.captures.length < c.toNat - 48 then none
      else some (captureText s m (c.toNat - 48), 1) := by
  have hnone : t.head?.filter Char.isDigit = none := by
    cases t with
    | nil => rfl
    | cons d t => exact Option.filter_eq_none_iff.mpr fun d' hd' => by rw [ht d' hd']; exact Bool.false_ne_true
  rw [captureForm, hnone]
  dsimp only
  by_cases h : c.toNat - 48 = 0 ∨ m.captures.length < c.toNat - 48
  · rw [if_pos h, if_neg (by omega)]
  · rw [if_neg h, if_pos (by omega)]

theorem captureForm_two {c d : Char} (hd : d.isDigit = true) :
    captureForm false s m c (d :: t) =
      if 10 * (c.toNat - 48) + (d.toNat - 48) = 0 ∨ m.captures.length < 10 * (c.toNat - 48) + (d.toNat - 48) then none
      else some (captureText s m (10 * (c.toNat - 48) + (d.toNat - 48)), 2) := by
  have hsome : (d :: t).head?.filter Char.isDigit = some d := Option.filter_eq_some_iff.mpr ⟨rfl, hd⟩
  rw [captureForm, hsome]
  dsimp only
  split
  · next h => rw [if_neg (by omega)]
  · next h => rw [if_neg (by simp), if_pos (by omega)]

theorem expandTemplate_eq (hm : ∀ range, some range ∈ m.groups → IsRange s range) (t : List Char) :
    expandTemplate s m t = some (getSubstitution false s m 0 t) := by
  have hmatch : IsRange s (m.start, m.end_) := hm _ List.mem_cons_self
  have hmatched : sliceText s (m.start, m.end_) = some (slice s m.start m.end_) := sliceText_of_isRange hmatch
  have hbefore : sliceText s (0, m.start) = some (slice s 0 m.start) :=
    sliceText_of_isRange ⟨Nat.zero_le _, isBoundary_zero s, hmatch.2.1⟩
  have hbehind : sliceText s (m.end_, utf8Length s) = some (slice s m.end_ (utf8Length s)) :=
    sliceText_of_isRange ⟨hmatch.2.2.le, hmatch.2.2, isBoundary_length s⟩
  induction hn : t.length using Nat.strong_induction_on generalizing t with
  | _ n ih =>
    cases t with
    | nil => rfl
    | cons first chars =>
      subst hn
      rw [expandTemplate.eq_def]
      dsimp only
      by_cases hfirst : first = '$'
      · subst hfirst
        rw [if_neg (not_not.mpr rfl)]
        cases chars with
        | nil => rfl
        | cons second chars =>
          have hrest := ih _ (by rw [List.length_cons, List.length_cons]; omega) chars rfl
          dsimp only
          by_cases h1 : second = '$'
          · have hform : templateForm false s m ('$' :: second :: chars) = some (['$'], 1) := if_pos h1
            rw [if_pos h1, hrest, getSubstitution_form hform]
            rfl
          rw [if_neg h1]
          by_cases h2 : second = '&'
          · have hform : templateForm false s m ('$' :: second :: chars) = some (slice s m.start m.end_, 1) :=
              (if_neg h1).trans (if_pos h2)
            rw [if_pos h2, hmatched, hrest, getSubstitution_form hform]
            rfl
          rw [if_neg h2]
          by_cases h3 : second = '\x60'
          · have hform : templateForm false s m ('$' :: second :: chars) = some (slice s 0 m.start, 1) :=
              (if_neg h1).trans ((if_neg h2).trans (if_pos h3))
            rw [if_pos h3, hbefore, hrest, getSubstitution_form hform]
            rfl
          rw [if_neg h3]
          by_cases h4 : second = '\x27'
          · have hform : templateForm false s m ('$' :: second :: chars) =
                some (slice s m.end_ (utf8Length s), 1) :=
              (if_neg h1).trans ((if_neg h2).trans ((if_neg h3).trans (if_pos h4)))
            rw [if_pos h4, hbehind, hrest, getSubstitution_form hform]
            rfl
          rw [if_neg h4]
          by_cases hdigit : second.isDigit = true
          · rw [if_pos hdigit]
            cases chars with
            | nil =>
              have hone := (@templateForm_digit s m false _ hdigit []).trans (captureForm_one (by simp))
              dsimp only
              split
              · next hbad =>
                rw [if_pos hbad] at hone
                rw [getSubstitution_pair hone h1]
                rfl
              · next hgood =>
                rw [if_neg hgood] at hone
                rw [groupSlice_eq hm, getSubstitution_form hone]
                exact congrArg some (List.append_nil _).symm
            | cons third chars =>
              dsimp only
              by_cases hthird : third.isDigit = true
              · have htwo := (@templateForm_digit s m false _ hdigit (third :: chars)).trans (captureForm_two hthird)
                have htail := ih _ (by rw [List.length_cons, List.length_cons, List.length_cons]; omega) chars rfl
                rw [if_pos hthird]
                split
                · next hbad =>
                  rw [if_pos hbad] at htwo
                  rw [getSubstitution_pair htwo h1, getSubstitution_plain (ne_dollar_of_isDigit hthird), htail]
                  rfl
                · next hgood =>
                  rw [if_neg hgood] at htwo
                  rw [groupSlice_eq hm, getSubstitution_form htwo, htail]
                  rfl
              · have hone := (@templateForm_digit s m false _ hdigit (third :: chars)).trans
                  (captureForm_one (by simpa using hthird))
                rw [if_neg hthird]
                split
                · next hbad =>
                  rw [if_pos hbad] at hone
                  rw [getSubstitution_pair hone h1, hrest]
                  rfl
                · next hgood =>
                  rw [if_neg hgood] at hone
                  rw [groupSlice_eq hm, getSubstitution_form hone, hrest]
                  rfl
          · have hform : templateForm false s m ('$' :: second :: chars) = none :=
              (if_neg h1).trans ((if_neg h2).trans ((if_neg h3).trans ((if_neg h4).trans (if_neg hdigit))))
            rw [if_neg hdigit, hrest, getSubstitution_pair hform h1]
            rfl
      · rw [if_pos hfirst, ih _ (by rw [List.length_cons]; omega) chars rfl, getSubstitution_plain hfirst]
        rfl

end Template

/-! ### Where the text is put -/

section Splice

variable {s u v x y from_ text : List Char} {pieces : List (List Char)}

theorem intercalate_nil_eq (pieces : List (List Char)) : List.intercalate [] pieces = pieces.flatten := by
  induction pieces with
  | nil => rfl
  | cons x pieces ih =>
    cases pieces with
    | nil => rw [List.intercalate_singleton, List.flatten_singleton]
    | cons y pieces => rw [List.intercalate_cons_cons, ih, List.append_nil, List.flatten_cons (l := x)]

theorem intercalate_piecesBetween (from_ s : List Char) :
    List.intercalate from_ (piecesBetween from_ s) = s := by
  unfold piecesBetween
  split
  · next h =>
    subst h
    rw [intercalate_nil_eq, List.flatten_cons, List.flatten_append, ← List.flatMap_def, List.flatMap_singleton']
    simp
  · next h => exact intercalate_splitText h s

theorem exists_piecesBetween (from_ u v : List Char) : ∃ x y pieces d,
    piecesBetween from_ (u ++ (from_ ++ v)) = x :: y :: pieces ∧ u = x ++ d := by
  unfold piecesBetween
  by_cases h : from_ = []
  · obtain ⟨y, pieces, hrest⟩ := List.exists_cons_of_ne_nil
      (show (u ++ (from_ ++ v)).map ([·]) ++ [[]] ≠ [] by simp)
    rw [if_pos h, hrest]
    exact ⟨[], y, pieces, u, rfl, rfl⟩
  rw [if_neg h]
  obtain ⟨c, from', rfl⟩ := List.exists_cons_of_ne_nil h
  induction u with
  | nil =>
    obtain ⟨y, pieces, hrest⟩ :=
      List.exists_cons_of_ne_nil (splitText_ne_nil (k := (c :: from').length - 1) (c :: from') (from' ++ v))
    refine ⟨[], y, pieces, [], ?_, rfl⟩
    rw [List.nil_append, List.cons_append, splitText, if_pos ⟨v, rfl⟩, hrest]
  | cons b u ih =>
    rw [List.cons_append, splitText]
    split
    · obtain ⟨y, pieces, hrest⟩ := List.exists_cons_of_ne_nil
        (splitText_ne_nil (k := (c :: from').length - 1) (c :: from') (u ++ ((c :: from') ++ v)))
      rw [hrest]
      exact ⟨[], y, pieces, b :: u, rfl, rfl⟩
    · obtain ⟨x, y, pieces, d, hpieces, hu⟩ := ih
      rw [hpieces]
      exact ⟨b :: x, y, pieces, d, rfl, by rw [hu, List.cons_append]⟩

theorem eq_of_self_overlap {d : List Char} (hd : d ≠ []) {a b : List Char} (hlen : a.length = b.length)
    (ha : a <+: d ++ a) (hb : b <+: d ++ b) : a = b := by
  induction hn : a.length using Nat.strong_induction_on generalizing a b with
  | _ n ih =>
    by_cases hle : a.length ≤ d.length
    · have hpre : a <+: d := List.prefix_of_prefix_length_le ha (List.prefix_append d a) hle
      have hpre' : b <+: d := List.prefix_of_prefix_length_le hb (List.prefix_append d b) (hlen ▸ hle)
      rw [List.prefix_iff_eq_take.mp hpre, List.prefix_iff_eq_take.mp hpre', hlen]
    · obtain ⟨a', rfl⟩ := List.prefix_of_prefix_length_le (List.prefix_append d a) ha (by omega)
      obtain ⟨b', rfl⟩ := List.prefix_of_prefix_length_le (List.prefix_append d b) hb (by omega)
      rw [List.prefix_append_right_inj] at ha hb
      have hpos := List.length_pos_iff.mpr hd
      rw [List.length_append] at hn hlen
      rw [List.length_append] at hlen
      rw [ih a'.length (by omega) (by omega) ha hb rfl]

theorem length_intercalate (to_ x : List Char) (pieces : List (List Char)) :
    (List.intercalate to_ (x :: pieces)).length =
      x.length + (pieces.map List.length).sum + pieces.length * to_.length := by
  induction pieces generalizing x with
  | nil => rw [List.intercalate_singleton]; simp
  | cons y pieces ih =>
    rw [List.intercalate_cons_cons, List.length_append, List.length_append, ih, List.map_cons, List.sum_cons,
      List.length_cons]
    ring

theorem strReplace_eq_iff (from_ text u v : List Char) :
    strReplace (u ++ (from_ ++ v)) from_ text = u ++ (text ++ v) ↔
      text = from_ ∨ ∃ x y d e, piecesBetween from_ (u ++ (from_ ++ v)) = [x, y] ∧ u = x ++ d ∧ y = e ++ v ∧
        text ++ e = d ++ text := by
  obtain ⟨x, y, pieces, d, hpieces, hu⟩ := exists_piecesBetween from_ u v
  have hjoin := intercalate_piecesBetween from_ (u ++ (from_ ++ v))
  rw [hpieces] at hjoin
  rw [strReplace, hpieces]
  constructor
  · intro heq
    have hlength := congrArg List.length heq
    have hlength' := congrArg List.length hjoin
    rw [length_intercalate, List.length_append, List.length_append, List.length_cons, Nat.succ_mul] at hlength hlength'
    rw [List.intercalate_cons_cons, hu, List.append_assoc, List.append_assoc, List.append_cancel_left_eq] at heq hjoin
    cases pieces with
    | nil =>
      right
      rw [List.intercalate_singleton] at heq
      rw [List.length_nil, Nat.zero_mul, List.map_singleton, List.sum_singleton, hu, List.length_append] at hlength
      have hsuffix : v <:+ y := by
        refine List.suffix_of_suffix_length_le ⟨d ++ text, ?_⟩ (List.suffix_append text y) (by omega)
        rw [heq, List.append_assoc]
      obtain ⟨e, rfl⟩ := hsuffix
      refine ⟨x, e ++ v, d, e, rfl, hu, rfl, ?_⟩
      rw [← List.append_assoc, ← List.append_assoc] at heq
      exact List.append_cancel_right heq
    | cons z pieces =>
      left
      have hsize : text.length = from_.length :=
        Nat.eq_of_mul_eq_mul_left (show 0 < (z :: pieces).length from Nat.succ_pos _) (by omega)
      by_cases hd : d = []
      · rw [hd, List.nil_append, List.append_cancel_left_eq] at heq hjoin
        have hrest := heq.trans hjoin.symm
        rw [List.intercalate_cons_cons, List.intercalate_cons_cons, List.append_assoc, List.append_assoc,
          List.append_cancel_left_eq] at hrest
        exact List.append_inj_left hrest hsize
      · -- both texts come again behind `d`
        refine eq_of_self_overlap hd hsize ?_ ?_
        · refine List.prefix_of_prefix_length_le (List.prefix_append text (text.intercalate (y :: z :: pieces)))
            ⟨v, ?_⟩ (by simp)
          rw [heq, List.append_assoc]
        · refine List.prefix_of_prefix_length_le (List.prefix_append from_ (from_.intercalate (y :: z :: pieces)))
            ⟨v, ?_⟩ (by simp)
          rw [hjoin, List.append_assoc]
  · rintro (rfl | ⟨x', y', d', e, hlist, hu', rfl, hswap⟩)
    · exact hjoin
    · rw [hlist]
      rw [List.intercalate_cons_cons, List.intercalate_singleton, hu', List.append_assoc, ← List.append_assoc text,
        hswap, List.append_assoc, List.append_assoc]

end Splice

/-! ### The law -/

section Law

variable {re : Matcher} {s r : List Char} {m : Match} {fallback : Bool}

theorem findFrom_eq {e : Option Match} (h : FirstFrom (re.matchAt s) 0 e) : re.findFrom s 0 = e :=
  (re.findFrom_first s 0).unique h

theorem stringReplace_of_first (h : FirstFrom (re.matchAt s) 0 (some m)) (r : List Char) :
    stringReplace re s (some r) =
      some (strReplace s (slice s m.start m.end_) (getSubstitution false s m 0 r)) := by
  have hm := re.isRange_of_matchAt h.2.1
  rw [stringReplace, findFrom_eq h]
  dsimp only
  rw [Option.elim_some, expandTemplate_eq hm, sliceText_of_isRange (hm _ List.mem_cons_self)]
  rfl

end Law

end Starlight
