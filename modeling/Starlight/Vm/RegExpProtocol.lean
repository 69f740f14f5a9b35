import Starlight.Vm.RegExp

/-!
# The protocol of `lastIndex`

`exec` and `test` start every search at `lastIndex`, whatever the flags, and never compare the start of the
match with it. So an expression that is not global is only right where the start makes no difference, and a
sticky one where the first match happens to start there.
-/

namespace Starlight

/-! ### What the calls should do -/

/-- A call of `exec` or `test` on the text `s` with the given `lastIndex`: nothing panics, `test` answers
whether `exec` finds a match, and the match and the new `lastIndex` are those that the flags ask for. -/
def ProtocolLaw (re : RegExp) (lastIndex : ℤ) (s : JsString) : Prop :=
  ∃ e r lastIndex', regexpExec re lastIndex s.string = some (r, lastIndex') ∧
    regexpTest re lastIndex s.string = (r.isSome, lastIndex') ∧
    e.mapM (matchArray s.string) = some r ∧
    (∀ m, e = some m → re.matcher.matchAt s.string m.start = some m) ∧
    (re.global = false → re.sticky = false →
      FirstFrom (re.matcher.matchAt s.string) 0 e ∧ lastIndex' = lastIndex) ∧
    (re.global = true → lastIndex' = e.elim 0 fun m => (m.end_ : ℤ)) ∧
    (re.global = true → re.sticky = false → FirstFrom (re.matcher.matchAt s.string) lastIndex e) ∧
    (re.sticky = true → ∀ m, e = some m → (m.start : ℤ) = lastIndex)

/-- When a call does that. -/
structure ProtocolExact (re : RegExp) (lastIndex : ℤ) (s : JsString) : Prop where
  /-- Without flags: an `i32` in front of which there is no match, and no match at all for a negative
  one. -/
  plain : re.global = false → re.sticky = false → -2 ^ 31 ≤ lastIndex ∧ lastIndex < 2 ^ 31 ∧
    ∀ p : ℕ, lastIndex < 0 ∨ p < lastIndex → re.matcher.matchAt s.string p = none
  /-- A match of a global expression must not be in the part that an `i32` cannot skip, or in front of a
  negative index. -/
  global : re.global = true → re.sticky = false → ∀ p : ℕ,
    lastIndex < 0 ∨ 2 ^ 31 - 1 ≤ p ∧ p < lastIndex → re.matcher.matchAt s.string p = none
  /-- Its end must be an `i32`. -/
  end_lt : re.global = true → 0 ≤ lastIndex → ∀ m,
    FirstFrom (re.matcher.matchAt s.string) (min lastIndex (2 ^ 31 - 1)) (some m) → m.end_ < 2 ^ 31
  /-- The first match of a sticky expression starts at the index. -/
  sticky : re.sticky = true → 0 ≤ lastIndex → ∀ m,
    FirstFrom (re.matcher.matchAt s.string) (min lastIndex (2 ^ 31 - 1)) (some m) →
      (m.start : ℤ) = lastIndex

/-- What a program does with an expression. -/
inductive RegExpOp where
  | exec (s : JsString)
  | test (s : JsString)
  | assign (lastIndex : ℤ)

namespace RegExpOp

def next (re : RegExp) (lastIndex : ℤ) : RegExpOp → ℤ
  | exec s => ((regexpExec re lastIndex s.string).map Prod.snd).getD lastIndex
  | test s => (regexpTest re lastIndex s.string).2
  | assign lastIndex => lastIndex

def Calls (P : ℤ → JsString → Prop) (lastIndex : ℤ) : RegExpOp → Prop
  | exec s | test s => P lastIndex s
  | assign _ => True

def Run (re : RegExp) (P : ℤ → JsString → Prop) : ℤ → List RegExpOp → Prop
  | _, [] => True
  | lastIndex, op :: ops => op.Calls P lastIndex ∧ Run re P (op.next re lastIndex) ops

end RegExpOp

inductive NthMatch (matchAt : ℕ → Option Match) : ℕ → Option Match → Prop
  | first {e} : FirstFrom matchAt 0 e → NthMatch matchAt 0 e
  | next {n e e'} : NthMatch matchAt n e → FirstFrom matchAt (e.elim 0 fun m => (m.end_ : ℤ)) e' →
      NthMatch matchAt (n + 1) e'

def lastIndexAfter (re : RegExp) (s : JsString) : ℕ → ℤ
  | 0 => 0
  | n + 1 => (RegExpOp.exec s).next re (lastIndexAfter re s n)

section

variable {re : RegExp} {lastIndex : ℤ} {s : JsString} {ops : List RegExpOp} {matcher : Matcher}
  {regexFlags : List Char} {e e' : Option Match} {r : Option ExecArray} {m m' : Match}

/-! ### What the calls do -/

/-- What the search of a call finds. -/
def found (re : RegExp) (lastIndex : ℤ) (s : JsString) : Option Match :=
  re.matcher.findFrom s.string (asUsize (toI32 lastIndex))

def newLastIndex (re : RegExp) (lastIndex : ℤ) (s : JsString) : ℤ :=
  if re.useLastIndex then (found re lastIndex s).elim 0 fun m => numberOfU32 m.end_ else toI32 lastIndex

theorem numberOfU32_ite (b : Bool) (n : ℕ) (lastIndex : ℤ) :
    numberOfU32 (if b then n else asUsize (toI32 lastIndex)) =
      if b then numberOfU32 n else toI32 lastIndex := by
  rw [apply_ite numberOfU32, numberOfU32_asUsize]

theorem regexpTest_eq (re : RegExp) (lastIndex : ℤ) (s : JsString) : regexpTest re lastIndex s.string =
    ((found re lastIndex s).isSome, newLastIndex re lastIndex s) := by
  unfold regexpTest newLastIndex found
  dsimp only
  cases re.matcher.findFrom s.string (asUsize (toI32 lastIndex)) with
  | none =>
    dsimp only
    rw [numberOfU32_ite, numberOfU32_zero, Option.isSome_none, Option.elim_none]
  | some m =>
    dsimp only
    rw [numberOfU32_ite, Option.isSome_some, Option.elim_some]

theorem exec_eq (re : RegExp) (lastIndex : ℤ) (s : JsString) : regexpExec re lastIndex s.string =
    some ((found re lastIndex s).map (Match.array s.string), newLastIndex re lastIndex s) := by
  unfold regexpExec newLastIndex found
  dsimp only
  cases hf : re.matcher.findFrom s.string (asUsize (toI32 lastIndex)) with
  | none =>
    dsimp only
    rw [numberOfU32_ite, numberOfU32_zero, Option.elim_none, Option.map_none]
  | some m =>
    dsimp only
    rw [Matcher.matchArray_of_matchAt (Matcher.matchAt_of_findFrom hf).2, Option.map_some, numberOfU32_ite,
      Option.elim_some, Option.map_some]

theorem regexpExec_eq (re : RegExp) (lastIndex : ℤ) (s : JsString) : ∃ r,
    regexpExec re lastIndex s.string = some (r, newLastIndex re lastIndex s) ∧
      (found re lastIndex s).mapM (matchArray s.string) = some r := by
  refine ⟨_, exec_eq re lastIndex s, ?_⟩
  cases hf : found re lastIndex s with
  | none => rfl
  | some m =>
    rw [Option.mapM_some, Matcher.matchArray_of_matchAt (Matcher.matchAt_of_findFrom hf).2]
    rfl

theorem isSome_of_mapM (h : e.mapM (matchArray s.string) = some r) : r.isSome = e.isSome := by
  cases e with
  | none =>
    obtain rfl := Option.some.inj h
    rfl
  | some m =>
    rw [Option.mapM_some] at h
    obtain ⟨result, -, rfl⟩ := Option.map_eq_some_iff.mp h
    rfl

/-- **No call panics, and `test` answers whether `exec` finds a match.** -/
theorem exec_test (re : RegExp) (lastIndex : ℤ) (s : JsString) : ∃ r lastIndex',
    regexpExec re lastIndex s.string = some (r, lastIndex') ∧
      regexpTest re lastIndex s.string = (r.isSome, lastIndex') := by
  obtain ⟨r, hexec, hr⟩ := regexpExec_eq re lastIndex s
  exact ⟨r, _, hexec, by rw [regexpTest_eq, isSome_of_mapM hr]⟩

/-! ### One call -/

theorem matchAt_of_found (h : found re lastIndex s = some m) :
    re.matcher.matchAt s.string m.start = some m := (Matcher.matchAt_of_findFrom h).2

theorem index_of_matchArray {result : ExecArray} (h : matchArray s.string m = some result) :
    result.index = newPosition m.start := by
  obtain ⟨elements, -, harray⟩ := Option.map_eq_some_iff.mp h
  rw [← harray]

theorem eq_found (he : ∀ m, e = some m → re.matcher.matchAt s.string m.start = some m)
    (hr : e.mapM (matchArray s.string) = some r)
    (hr' : (found re lastIndex s).mapM (matchArray s.string) = some r) : e = found re lastIndex s := by
  have hsome := (isSome_of_mapM hr).symm.trans (isSome_of_mapM hr')
  cases hf : found re lastIndex s with
  | none =>
    rw [hf] at hsome
    exact Option.isNone_iff_eq_none.mp (by rw [← Option.not_isSome, hsome]; rfl)
  | some m' =>
    rw [hf] at hsome hr'
    obtain ⟨m, rfl⟩ := Option.isSome_iff_exists.mp hsome
    obtain ⟨result, hresult, rfl⟩ := Option.map_eq_some_iff.mp hr
    obtain ⟨result', hresult', heq⟩ := Option.map_eq_some_iff.mp hr'
    obtain rfl := Option.some.inj heq
    have hat := he m rfl
    have hat' := matchAt_of_found hf
    have hlt := (Matcher.end_le hat).1.trans_lt ((Matcher.end_le hat).2.trans_lt s.fits)
    have hlt' := (Matcher.end_le hat').1.trans_lt ((Matcher.end_le hat').2.trans_lt s.fits)
    have hstart := newPosition_inj hlt hlt'
      ((index_of_matchArray hresult).symm.trans (index_of_matchArray hresult'))
    rw [← hat, hstart, hat']

theorem found_of_neg (h : lastIndex < 0) : found re lastIndex s = none := by
  have hi32 := toI32_eq lastIndex
  have hsize := asUsize_of_neg (by omega : toI32 lastIndex < 0) (by omega)
  cases hf : found re lastIndex s with
  | none => rfl
  | some m =>
    have hle := (Matcher.matchAt_of_findFrom hf).1
    have hend := Matcher.end_le (matchAt_of_found hf)
    have hfits : utf8Length s.string < 2 ^ 32 := s.fits
    omega

theorem firstFrom_found (h : 0 ≤ lastIndex) :
    FirstFrom (re.matcher.matchAt s.string) (min lastIndex (2 ^ 31 - 1)) (found re lastIndex s) := by
  have hi32 := toI32_eq lastIndex
  have hfirst := re.matcher.findFrom_first s.string (asUsize (toI32 lastIndex))
  have hstart : (asUsize (toI32 lastIndex) : ℤ) = min lastIndex (2 ^ 31 - 1) := by
    rw [asUsize_of_nonneg (by omega) (by omega)]
    omega
  rwa [hstart] at hfirst

theorem protocolLaw_iff_found (huse : re.useLastIndex = (re.global || re.sticky)) :
    ProtocolLaw re lastIndex s ↔
      (re.global = false → re.sticky = false →
        FirstFrom (re.matcher.matchAt s.string) 0 (found re lastIndex s) ∧ toI32 lastIndex = lastIndex) ∧
      (re.global = true → (found re lastIndex s).elim 0 (fun m => numberOfU32 m.end_) =
        (found re lastIndex s).elim 0 fun m => (m.end_ : ℤ)) ∧
      (re.global = true → re.sticky = false →
        FirstFrom (re.matcher.matchAt s.string) lastIndex (found re lastIndex s)) ∧
      (re.sticky = true → ∀ m, found re lastIndex s = some m → (m.start : ℤ) = lastIndex) := by
  obtain ⟨r, hexec, hr⟩ := regexpExec_eq re lastIndex s
  have hplain : re.global = false → re.sticky = false → newLastIndex re lastIndex s = toI32 lastIndex := by
    intro hg hs
    rw [newLastIndex, huse, hg, hs]
    rfl
  have hglobal : re.global = true → newLastIndex re lastIndex s =
      (found re lastIndex s).elim 0 fun m => numberOfU32 m.end_ := by
    intro hg
    rw [newLastIndex, huse, hg]
    rfl
  constructor
  · rintro ⟨e, r', lastIndex', hexec', -, hr', hat, hp, hend, hg, hs⟩
    rw [hexec] at hexec'
    obtain ⟨rfl, rfl⟩ := Prod.mk.inj (Option.some.inj hexec')
    obtain rfl := eq_found hat hr' hr
    refine ⟨fun hg' hs' => ?_, fun hg' => ?_, hg, hs⟩
    · obtain ⟨hfirst, hlast⟩ := hp hg' hs'
      exact ⟨hfirst, (hplain hg' hs').symm.trans hlast⟩
    · exact (hglobal hg').symm.trans (hend hg')
  · rintro ⟨hp, hend, hg, hs⟩
    refine ⟨found re lastIndex s, r, _, hexec, ?_, hr, fun m => matchAt_of_found, fun hg' hs' => ?_,
      fun hg' => (hglobal hg').trans (hend hg'), hg, hs⟩
    · rw [regexpTest_eq, isSome_of_mapM hr]
    · obtain ⟨hfirst, hlast⟩ := hp hg' hs'
      exact ⟨hfirst, (hplain hg' hs').trans hlast⟩

theorem plain_iff : FirstFrom (re.matcher.matchAt s.string) 0 (found re lastIndex s) ∧
    toI32 lastIndex = lastIndex ↔ -2 ^ 31 ≤ lastIndex ∧ lastIndex < 2 ^ 31 ∧
      ∀ p : ℕ, lastIndex < 0 ∨ p < lastIndex → re.matcher.matchAt s.string p = none := by
  have hi32 := toI32_eq lastIndex
  rcases lt_or_ge lastIndex 0 with hneg | hnonneg
  · rw [found_of_neg hneg]
    constructor
    · rintro ⟨hnone, heq⟩
      exact ⟨by omega, by omega, fun p _ => hnone p (Int.natCast_nonneg p)⟩
    · rintro ⟨hlow, -, hnone⟩
      exact ⟨fun p _ => hnone p (.inl hneg), by omega⟩
  · have hfirst := @firstFrom_found re lastIndex s hnonneg
    constructor
    · rintro ⟨hzero, heq⟩
      rw [min_eq_left (by omega)] at hfirst
      exact ⟨by omega, by omega, fun p hp => hzero.skip hfirst (Int.natCast_nonneg p) (by omega)⟩
    · rintro ⟨-, hhigh, hnone⟩
      rw [min_eq_left (by omega)] at hfirst
      exact ⟨hfirst.of_le hnonneg fun p _ hp => hnone p (.inr hp), by omega⟩

theorem global_iff : FirstFrom (re.matcher.matchAt s.string) lastIndex (found re lastIndex s) ↔
    ∀ p : ℕ, lastIndex < 0 ∨ 2 ^ 31 - 1 ≤ p ∧ p < lastIndex → re.matcher.matchAt s.string p = none := by
  rcases lt_or_ge lastIndex 0 with hneg | hnonneg
  · rw [found_of_neg hneg]
    refine ⟨fun hnone p _ => hnone p (by omega), fun hnone p _ => hnone p (.inl hneg)⟩
  · have hfirst := @firstFrom_found re lastIndex s hnonneg
    constructor
    · intro h p hp
      exact hfirst.skip h (by omega) (by omega)
    · exact fun hnone => hfirst.raise (min_le_left _ _) fun p hp hlt => hnone p (.inr (by omega))

theorem end_iff : (found re lastIndex s).elim 0 (fun m => numberOfU32 m.end_) =
      (found re lastIndex s).elim 0 (fun m => (m.end_ : ℤ)) ↔
    (0 ≤ lastIndex → ∀ m, FirstFrom (re.matcher.matchAt s.string) (min lastIndex (2 ^ 31 - 1)) (some m) →
      m.end_ < 2 ^ 31) := by
  rcases lt_or_ge lastIndex 0 with hneg | hnonneg
  · rw [found_of_neg hneg, Option.elim_none, Option.elim_none]
    exact iff_of_true rfl fun h => absurd h (not_le.mpr hneg)
  · have hfirst := @firstFrom_found re lastIndex s hnonneg
    rw [forall_prop_of_true hnonneg]
    cases hf : found re lastIndex s with
    | none =>
      rw [hf] at hfirst
      rw [Option.elim_none, Option.elim_none]
      exact iff_of_true rfl fun m hm => nomatch hfirst.unique hm
    | some m =>
      rw [hf] at hfirst
      have hlt := (Matcher.end_le (matchAt_of_found hf)).2.trans_lt s.fits
      rw [Option.elim_some, Option.elim_some, numberOfU32_eq_iff hlt]
      refine ⟨fun h m' hm' => ?_, fun h => h m hfirst⟩
      obtain rfl := Option.some.inj (hfirst.unique hm')
      exact h

theorem sticky_iff : (∀ m, found re lastIndex s = some m → (m.start : ℤ) = lastIndex) ↔
    (0 ≤ lastIndex → ∀ m, FirstFrom (re.matcher.matchAt s.string) (min lastIndex (2 ^ 31 - 1)) (some m) →
      (m.start : ℤ) = lastIndex) := by
  rcases lt_or_ge lastIndex 0 with hneg | hnonneg
  · rw [found_of_neg hneg]
    exact iff_of_true (fun m h => nomatch h) fun h => absurd h (not_le.mpr hneg)
  · have hfirst := @firstFrom_found re lastIndex s hnonneg
    rw [forall_prop_of_true hnonneg]
    refine forall_congr' fun m => ⟨fun h hm => h (hfirst.unique hm), fun h hm => h (hm ▸ hfirst)⟩

/-- **One call.** -/
theorem protocolLaw_iff (huse : re.useLastIndex = (re.global || re.sticky)) :
    ProtocolLaw re lastIndex s ↔ ProtocolExact re lastIndex s := by
  rw [protocolLaw_iff_found huse, plain_iff, global_iff, end_iff, sticky_iff]
  exact ⟨fun ⟨hp, hend, hg, hs⟩ => ⟨hp, hg, hend, hs⟩, fun h => ⟨h.plain, h.end_lt, h.global, h.sticky⟩⟩

/-! ### Runs -/

theorem RegExpOp.run_congr {P Q : ℤ → JsString → Prop} (h : ∀ lastIndex s, P lastIndex s ↔ Q lastIndex s) :
    Run re P lastIndex ops ↔ Run re Q lastIndex ops := by
  induction ops generalizing lastIndex with
  | nil => exact Iff.rfl
  | cons op ops ih =>
    refine and_congr ?_ ih
    cases op with
    | exec s | test s => exact h lastIndex s
    | assign lastIndex' => exact Iff.rfl

theorem nthMatch_found (hglobal : re.global = true) (hsticky : re.sticky = false)
    (huse : re.useLastIndex = (re.global || re.sticky)) {n : ℕ}
    (h : ∀ k, k ≤ n → ProtocolExact re (lastIndexAfter re s k) s) :
    NthMatch (re.matcher.matchAt s.string) n (found re (lastIndexAfter re s n) s) ∧
      lastIndexAfter re s (n + 1) =
        (found re (lastIndexAfter re s n) s).elim 0 fun m => (m.end_ : ℤ) := by
  have hlaw := fun k hk => (protocolLaw_iff_found huse).mp ((protocolLaw_iff huse).mpr (h k hk))
  have hnext : ∀ k, k ≤ n → lastIndexAfter re s (k + 1) =
      (found re (lastIndexAfter re s k) s).elim 0 fun m => (m.end_ : ℤ) := fun k hk => by
    obtain ⟨r, hexec, -⟩ := regexpExec_eq re (lastIndexAfter re s k) s
    have hindex : lastIndexAfter re s (k + 1) = newLastIndex re (lastIndexAfter re s k) s := by
      rw [lastIndexAfter, RegExpOp.next, hexec]
      rfl
    rw [hindex, newLastIndex, huse, hglobal, Bool.true_or, if_pos rfl]
    exact (hlaw k hk).2.1 hglobal
  refine ⟨?_, hnext n le_rfl⟩
  clear h
  induction n with
  | zero => exact .first ((hlaw 0 le_rfl).2.2.1 hglobal hsticky)
  | succ n ih =>
    have hnth := ih (fun k hk => hlaw k (Nat.le_succ_of_le hk)) fun k hk => hnext k (Nat.le_succ_of_le hk)
    refine .next hnth ?_
    rw [← hnext n (Nat.le_succ n)]
    exact (hlaw (n + 1) le_rfl).2.2.1 hglobal hsticky

theorem run_replicate_exec {P : ℤ → JsString → Prop} {n : ℕ}
    (h : RegExpOp.Run re P 0 (List.replicate (n + 1) (.exec s))) :
    ∀ k, k ≤ n → P (lastIndexAfter re s k) s := by
  have hrun : ∀ m k, RegExpOp.Run re P (lastIndexAfter re s k) (List.replicate m (.exec s)) →
      ∀ i, i < m → P (lastIndexAfter re s (k + i)) s := by
    intro m
    induction m with
    | zero => exact fun k _ i hi => absurd hi (Nat.not_lt_zero i)
    | succ m ih =>
      rintro k ⟨hfirst, hrest⟩ i hi
      cases i with
      | zero => exact hfirst
      | succ i =>
        have := ih (k + 1) hrest i (Nat.lt_of_succ_lt_succ hi)
        rwa [Nat.add_right_comm] at this
  intro k hk
  have := hrun (n + 1) 0 h k (Nat.lt_succ_of_le hk)
  rwa [Nat.zero_add] at this

/-- **The protocol of `lastIndex`**, over every run of calls and assignments: no call panics, `test` agrees
with `exec`, the calls of a run do what the flags ask for just when they all meet the condition, and then a
run of `exec` with the flag `g` finds the matches of the text one after another. -/
theorem regexp_protocol (matcher : Matcher) (regexFlags : List Char) (lastIndex : ℤ) (ops : List RegExpOp) :
    (∀ (lastIndex : ℤ) (s : JsString), ∃ r lastIndex',
      regexpExec (.new matcher regexFlags) lastIndex s.string = some (r, lastIndex') ∧
        regexpTest (.new matcher regexFlags) lastIndex s.string = (r.isSome, lastIndex')) ∧
    (RegExpOp.Run (.new matcher regexFlags) (ProtocolLaw (.new matcher regexFlags)) lastIndex ops ↔
      RegExpOp.Run (.new matcher regexFlags) (ProtocolExact (.new matcher regexFlags)) lastIndex ops) ∧
    (regexFlags.contains 'g' = true → regexFlags.contains 'y' = false → ∀ (s : JsString) (n : ℕ),
      RegExpOp.Run (.new matcher regexFlags) (ProtocolExact (.new matcher regexFlags)) 0
        (List.replicate (n + 1) (.exec s)) →
      ∃ e r lastIndex', NthMatch (matcher.matchAt s.string) n e ∧ e.mapM (matchArray s.string) = some r ∧
        regexpExec (.new matcher regexFlags) (lastIndexAfter (.new matcher regexFlags) s n) s.string =
          some (r, lastIndex')) := by
  refine ⟨exec_test _, RegExpOp.run_congr fun lastIndex s => protocolLaw_iff rfl, ?_⟩
  intro hg hy s n hrun
  obtain ⟨r, hexec, hr⟩ := regexpExec_eq (.new matcher regexFlags) (lastIndexAfter _ s n) s
  have hnth := @nthMatch_found (.new matcher regexFlags) s hg hy rfl n (run_replicate_exec hrun)
  exact ⟨_, r, _, hnth.1, hr, hexec⟩

/-- `/a/` with `lastIndex` set to `1` does not find the `a` of `"a"`, and `/a/y` finds the one of `"ba"`
behind its `lastIndex`. -/
theorem not_regexp_protocol :
    ¬ RegExpOp.Run (.new (.literal ['a']) []) (ProtocolLaw (.new (.literal ['a']) [])) 0
      [.assign 1, .exec ⟨['a'], by decide⟩] ∧
    ¬ RegExpOp.Run (.new (.literal ['a']) ['y']) (ProtocolLaw (.new (.literal ['a']) ['y'])) 0
      [.exec ⟨['b', 'a'], by decide⟩] := by
  constructor
  · rintro ⟨-, hlaw, -⟩
    have hexact := (protocolLaw_iff rfl).mp hlaw
    exact absurd ((hexact.plain rfl rfl).2.2 0 (.inr (by decide))) (by decide)
  · rintro ⟨hlaw, -⟩
    have hexact := (protocolLaw_iff rfl).mp hlaw
    have hfirst : FirstFrom ((Matcher.literal ['a']).matchAt ['b', 'a']) (min 0 (2 ^ 31 - 1))
        (some ⟨1, 2, []⟩) := by
      refine ⟨by decide, by decide, fun p _ hp => ?_⟩
      obtain rfl : p = 0 := by
        have hp' : p < 1 := hp
        omega
      decide
    exact absurd (hexact.sticky rfl le_rfl _ hfirst) (by decide)

end

end Starlight
