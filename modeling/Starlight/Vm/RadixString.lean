import Starlight.Lib.Loop
import Starlight.Lib.Numeral
import Starlight.Vm.Double

/-!
# Numbers in another radix

`to_native_string_radix` writes the integer part of a number to the left half of a buffer, from its end,
and the fraction to the right half. The right half is a list of characters with the cursor behind the last
one, as `back_trace` reads what is written there; of the left half only what is written is kept, and how
much of it there may be. A failed `unwrap`, an index outside the buffer and a failed assertion are `none`.
-/

namespace Starlight

open Numeral

def bufHalf : ℕ := 1100

/-! ### The fraction -/

def writeFrac (fracBuf : List Char) (i : ℕ) (c : Char) : Option (List Char) :=
  if i < fracBuf.length then some (fracBuf.set i c) else none

/-- Where the fraction loop ends: whether the integer part goes up by one, and the buffer and its cursor. -/
structure FractionEnd where
  carry : Bool
  fracBuf : List Char
  fractionCursor : ℕ
deriving DecidableEq

/-- The back-trace over the digits already written, from the cursor behind the last of them. -/
def backTrace (radix : ℕ) (fracBuf : List Char) : ℕ → Option FractionEnd
  | 0 => none
  | fractionCursor + 1 =>
    if fractionCursor = 0 then some ⟨true, fracBuf, 0⟩
    else do
      let c ← fracBuf[fractionCursor]?
      let digit0 ← toDigit c 10
      if digit0 + 1 ≥ radix then backTrace radix fracBuf fractionCursor
      else
        let c' ← fromDigit (digit0 + 1) radix
        some ⟨false, ← writeFrac fracBuf fractionCursor c', fractionCursor + 1⟩

/-- What the fraction loop changes. -/
structure FractionState where
  fraction : F64
  delta : F64
  fracBuf : List Char
  fractionCursor : ℕ

/-- The test that rounds the last digit up: the rest is more than a half, or a half after an odd digit. -/
def roundsUp (fraction delta : F64) (digit : ℕ) : Bool :=
  F64.lt (.fin 1) (fraction.add delta) &&
    (F64.lt (.fin (1 / 2)) fraction ||
      ((fraction.sub (.fin (1 / 2))).abs.lt (.fin (1 / 2 ^ 52)) && digit % 2 ≠ 0))

/-- One digit of the fraction. -/
def fractionStep (radix : ℕ) (s : FractionState) : Option (FractionEnd ⊕ FractionState) := do
  let fraction := s.fraction.mul (.fin radix)
  let delta := s.delta.mul (.fin radix)
  let digit := fraction.toU32
  let fracBuf ← writeFrac s.fracBuf s.fractionCursor (← fromDigit digit radix)
  let fraction := fraction.sub (.fin digit)
  if roundsUp fraction delta digit then
    (backTrace radix fracBuf (s.fractionCursor + 1)).map Sum.inl
  else if fraction.lt delta then some (.inl ⟨false, fracBuf, s.fractionCursor + 1⟩)
  else some (.inr ⟨fraction, delta, fracBuf, s.fractionCursor + 1⟩)

def fractionLoop (radix : ℕ) : ℕ → FractionState → Option FractionEnd
  | 0, _ => none
  | fuel + 1, s => (fractionStep radix s).bind (Sum.elim some (fractionLoop radix fuel))

namespace F64

def maxFinite : F64 := ofBits 0x7fefffffffffffff#64

def nextAfter (x y : F64) : F64 :=
  if x.isNan || y.isNan then .nan
  else if (x.sub y).isZero then x
  else if x.isZero then if y.isNeg then ofBits 0x8000000000000001#64 else ofBits 1#64
  else if x.lt y || F64.lt (.fin 0) x then ofBits (x.toBits + 1#64)
  else ofBits (x.toBits - 1#64)

/-- `FloatCore::integer_decode(x).1`, the exponent of the last place. -/
def integerExponent (x : F64) : ℤ := (x.toBits.toNat / 2 ^ 52 % 2 ^ 11 : ℕ) - 1075

end F64

/-- Half the distance to the next double, and no less than the least one. -/
def fractionDelta (value : F64) : F64 :=
  (F64.nextAfter (.fin 0) F64.maxFinite).maxNum
    ((F64.fin (1 / 2)).mul ((F64.nextAfter value F64.maxFinite).sub value))

/-- The state in which the fraction loop begins: the point is written. -/
def fractionStart (value : F64) : FractionState :=
  ⟨value.sub value.floor, fractionDelta value, (List.replicate bufHalf '\x00').set 0 '.', 1⟩

/-- The fraction of a number that is not negative. -/
def fractionPart (fuel radix : ℕ) (value : F64) : Option FractionEnd :=
  let start := fractionStart value
  if !F64.lt (.fin 0) start.delta then none
  else if start.delta.le start.fraction then fractionLoop radix fuel start
  else some ⟨false, List.replicate bufHalf '\x00', 0⟩

/-! ### The integer part -/

/-- `*int_iter.next().unwrap().1 = c`: the left half is written from its end. -/
def writeInt (intBuf : List Char) (c : Char) : Option (List Char) :=
  if intBuf.length < bufHalf then some (c :: intBuf) else none

/-- The digits that a number of more than 53 bits does not determine are zeros. -/
def padLoop (radix : ℕ) : ℕ → F64 → List Char → Option (F64 × List Char)
  | 0, _, _ => none
  | fuel + 1, integer, intBuf =>
    if 0 < (integer.div (.fin radix)).integerExponent then do
      padLoop radix fuel (integer.div (.fin radix)) (← writeInt intBuf '0')
    else some (integer, intBuf)

/-- The digits of the integer part, from the last one. -/
def integerLoop (radix : ℕ) : ℕ → F64 → List Char → Option (List Char)
  | 0, _, _ => none
  | fuel + 1, integer, intBuf => do
    let remainder := integer.rem (.fin radix)
    let intBuf ← writeInt intBuf (← fromDigit remainder.toU32 radix)
    let integer := (integer.sub remainder).div (.fin radix)
    if integer.le (.fin 0) then some intBuf else integerLoop radix fuel integer intBuf

def toNativeStringRadix (fuel : ℕ) (value : F64) (radix : ℕ) : Option (List Char) :=
  let negative := value.isNeg
  let value := if negative then value.neg else value
  if radix < 2 || 36 < radix || value.isNan || value.isInfinite then none
  else do
    let ⟨carry, fracBuf, fractionCursor⟩ ← fractionPart fuel radix value
    let integer := if carry then value.floor.add (.fin 1) else value.floor
    let (integer, intBuf) ← padLoop radix fuel integer []
    let intBuf ← integerLoop radix fuel integer intBuf
    let intBuf ← (if negative then writeInt intBuf '-' else some intBuf : Option (List Char))
    -- the iterator gives the cursor, so one place is left
    if intBuf.length < bufHalf then some (intBuf ++ fracBuf.take fractionCursor) else none

/-! ### The digits that the fraction loop has written -/

/-- The digits written so far, behind the point; what is behind the cursor does not matter. -/
def fractionBuf (ds : List ℕ) (rest : List Char) : List Char := '.' :: ds.map digitChar ++ rest

@[simp] theorem length_fractionBuf (ds : List ℕ) (rest : List Char) :
    (fractionBuf ds rest).length = ds.length + 1 + rest.length := by
  simp [fractionBuf, Nat.add_right_comm]

theorem fractionBuf_concat (ds : List ℕ) (d : ℕ) (rest : List Char) :
    fractionBuf (ds ++ [d]) rest = fractionBuf ds (digitChar d :: rest) := by
  simp [fractionBuf]

theorem take_fractionBuf (ds : List ℕ) (rest : List Char) :
    (fractionBuf ds rest).take (ds.length + 1) = fractionBuf ds [] := by
  simp [fractionBuf]

theorem set_fractionBuf (ds : List ℕ) (d : ℕ) (c : Char) (rest : List Char) :
    (fractionBuf ds (c :: rest)).set (ds.length + 1) (digitChar d) = fractionBuf (ds ++ [d]) rest := by
  simp [fractionBuf]

theorem getElem?_fractionBuf (ds : List ℕ) (c : Char) (rest : List Char) :
    (fractionBuf ds (c :: rest))[ds.length + 1]? = some c := by
  simp [fractionBuf]

theorem writeFrac_fractionBuf (ds : List ℕ) (d : ℕ) (c : Char) (rest : List Char) :
    writeFrac (fractionBuf ds (c :: rest)) (ds.length + 1) (digitChar d) =
      some (fractionBuf (ds ++ [d]) rest) := by
  rw [writeFrac, if_pos (by simp), set_fractionBuf]

def FractionState.Written (radix : ℕ) (s : FractionState) : Prop :=
  ∃ ds rest, (∀ d ∈ ds, d < radix) ∧ s.fracBuf = fractionBuf ds rest ∧ s.fractionCursor = ds.length + 1

theorem written_fractionStart (radix : ℕ) (value : F64) : (fractionStart value).Written radix :=
  ⟨[], List.replicate (bufHalf - 1) '\x00', by simp, rfl, rfl⟩

theorem FractionState.Written.writeFrac {radix digit : ℕ} {c : Char} {s : FractionState} {fracBuf : List Char}
    (h : s.Written radix) (hc : fromDigit digit radix = some c)
    (hwrite : writeFrac s.fracBuf s.fractionCursor c = some fracBuf) :
    ∃ ds rest, (∀ d ∈ ds, d < radix) ∧ digit < radix ∧ fracBuf = fractionBuf (ds ++ [digit]) rest ∧
      s.fractionCursor = ds.length + 1 := by
  obtain ⟨ds, rest, hds, hbuf, hcursor⟩ := h
  obtain ⟨hdigit, rfl⟩ := fromDigit_eq_some.mp hc
  rw [hbuf, hcursor] at hwrite
  cases rest with
  | nil =>
    rw [Starlight.writeFrac, if_neg (by simp)] at hwrite
    cases hwrite
  | cons c rest =>
    rw [writeFrac_fractionBuf] at hwrite
    exact ⟨ds, rest, hds, hdigit, (Option.some.inj hwrite).symm, hcursor⟩

theorem FractionState.Written.step {radix : ℕ} {s s' : FractionState} (h : s.Written radix)
    (hstep : fractionStep radix s = some (.inr s')) : s'.Written radix := by
  unfold fractionStep at hstep
  obtain ⟨c, hc, hstep⟩ := Option.bind_eq_some_iff.mp hstep
  obtain ⟨fracBuf, hwrite, hstep⟩ := Option.bind_eq_some_iff.mp hstep
  obtain ⟨ds, rest, hds, hdigit, rfl, hcursor⟩ := h.writeFrac hc hwrite
  dsimp only at hstep
  split_ifs at hstep
  · obtain ⟨e, -, he⟩ := Option.map_eq_some_iff.mp hstep
    cases he
  · cases hstep
  · cases hstep
    refine ⟨ds ++ [_], rest, ?_, rfl, by simp [hcursor]⟩
    intro d hd
    rcases List.mem_append.mp hd with hd | hd
    · exact hds d hd
    · rwa [List.mem_singleton.mp hd]

theorem written_of_reaches {radix : ℕ} {value : F64} {s : FractionState}
    (h : Relation.ReflTransGen (fun s s' => fractionStep radix s = some (.inr s')) (fractionStart value) s) :
    s.Written radix := by
  induction h with
  | refl => exact written_fractionStart radix value
  | tail _ hstep ih => exact ih.step hstep

/-! ### The back-trace -/

/-- `out` are the digits of the next number with as many digits, without the zeros at its end, and `carry`
whether it has one more. -/
structure IsSuccessor (radix : ℕ) (ds : List ℕ) (carry : Bool) (out : List ℕ) : Prop where
  digit : ∀ d ∈ out, d < radix
  trimmed : out.getLast? ≠ some 0
  value : ∃ k, ds.length = out.length + k ∧
    carry.toNat * radix ^ ds.length + ofDigits radix (out ++ List.replicate k 0) = ofDigits radix ds + 1

namespace IsSuccessor

variable {radix d : ℕ} {ds out : List ℕ} {carry : Bool}

theorem nil (radix : ℕ) : IsSuccessor radix [] true [] :=
  ⟨by simp, by simp, 0, rfl, by simp⟩

theorem last (hds : ∀ d ∈ ds, d < radix) (hd : d + 1 < radix) :
    IsSuccessor radix (ds ++ [d]) false (ds ++ [d + 1]) where
  digit := by
    intro e he
    rcases List.mem_append.mp he with he | he
    · exact hds e he
    · rwa [List.mem_singleton.mp he]
  trimmed := by simp
  value := ⟨0, by simp, by simp [Nat.add_assoc]⟩

theorem concat (h : IsSuccessor radix ds carry out) (hd : d + 1 = radix) :
    IsSuccessor radix (ds ++ [d]) carry out where
  digit := h.digit
  trimmed := h.trimmed
  value := by
    obtain ⟨k, hk, hvalue⟩ := h.value
    refine ⟨k + 1, by rw [List.length_append, hk]; rfl, ?_⟩
    rw [List.replicate_succ', ← List.append_assoc, ofDigits_concat, ofDigits_concat, List.length_append,
      List.length_singleton, pow_succ]
    calc carry.toNat * (radix ^ ds.length * radix) + (ofDigits radix (out ++ List.replicate k 0) * radix + 0)
        = (carry.toNat * radix ^ ds.length + ofDigits radix (out ++ List.replicate k 0)) * radix := by ring
      _ = ofDigits radix ds * radix + d + 1 := by rw [hvalue, Nat.add_assoc, hd, Nat.succ_mul]

end IsSuccessor

/-- The back-trace over the written digits `ds` does not fail, and leaves the digits of the next number with
a carry exactly when all of them were the greatest. With a carry nothing is left of the fraction, not even
the point. -/
def BackTraceLaw (radix : ℕ) (ds : List ℕ) : Prop :=
  ∀ rest, ∃ e out, backTrace radix (fractionBuf ds rest) (ds.length + 1) = some e ∧
    IsSuccessor radix ds e.carry out ∧ (e.carry = true ↔ ∀ d ∈ ds, d + 1 = radix) ∧
    e.fractionCursor = (if e.carry then 0 else out.length + 1) ∧
    e.fracBuf.take e.fractionCursor = if e.carry then [] else fractionBuf out []

theorem backTrace_nil (radix : ℕ) (fracBuf : List Char) :
    backTrace radix fracBuf 1 = some ⟨true, fracBuf, 0⟩ := rfl

section Concat

variable {radix d : ℕ} {ds : List ℕ} {rest : List Char}

theorem backTrace_concat (hd : d < 36) :
    backTrace radix (fractionBuf (ds ++ [d]) rest) ((ds ++ [d]).length + 1) =
      if d < 10 then
        if d + 1 < radix then some ⟨false, fractionBuf (ds ++ [d + 1]) rest, ds.length + 2⟩
        else backTrace radix (fractionBuf ds (digitChar d :: rest)) (ds.length + 1)
      else none := by
  rw [List.length_append, List.length_singleton, backTrace, if_neg (Nat.succ_ne_zero _), fractionBuf_concat,
    getElem?_fractionBuf, Option.bind_eq_bind, Option.bind_some, toDigit_digitChar hd]
  by_cases hten : d < 10
  · rw [if_pos hten, if_pos hten, Option.bind_eq_bind, Option.bind_some]
    by_cases hradix : d + 1 < radix
    · rw [if_neg (by omega), if_pos hradix, fromDigit_eq hradix, Option.bind_eq_bind, Option.bind_some,
        writeFrac_fractionBuf]
      rfl
    · rw [if_pos (by omega), if_neg hradix]
  · rw [if_neg hten, if_neg hten]
    rfl

theorem backTraceLaw_of_lt (hds : ∀ d ∈ ds, d < radix) (hradix : d + 1 < radix) (hten : d < 10) : BackTraceLaw radix (ds ++ [d]) := by
  intro rest
  refine ⟨⟨false, fractionBuf (ds ++ [d + 1]) rest, ds.length + 2⟩, ds ++ [d + 1], ?_,
    IsSuccessor.last hds hradix, ?_, ?_, ?_⟩
  · rw [backTrace_concat (by omega), if_pos hten, if_pos hradix]
  · exact ⟨nofun, fun hall => absurd (hall d (by simp)) (by omega)⟩
  · simp
  · rw [if_neg Bool.false_ne_true, ← take_fractionBuf (ds ++ [d + 1]) rest, List.length_append]
    rfl

theorem BackTraceLaw.concat (h : BackTraceLaw radix ds) (hd : d + 1 = radix) (hle : radix ≤ 10) :
    BackTraceLaw radix (ds ++ [d]) := by
  intro rest
  obtain ⟨e, out, hrun, hsucc, hall, hcursor, htake⟩ := h (digitChar d :: rest)
  refine ⟨e, out, ?_, hsucc.concat hd, ?_, hcursor, htake⟩
  · rw [backTrace_concat (by omega), if_pos (by omega), if_neg (by omega), hrun]
  · rw [hall, List.forall_mem_append, List.forall_mem_singleton, and_iff_left hd]

end Concat

theorem backTraceLaw_nil (radix : ℕ) : BackTraceLaw radix [] :=
  fun rest => ⟨_, [], backTrace_nil radix _, IsSuccessor.nil radix, by simp, rfl, rfl⟩

theorem backTraceLaw_of_le_ten {radix : ℕ} (hle : radix ≤ 10) {ds : List ℕ} (hds : ∀ d ∈ ds, d < radix) :
    BackTraceLaw radix ds := by
  induction ds using List.reverseRecOn with
  | nil => exact backTraceLaw_nil radix
  | append_singleton ds d ih =>
    have hinit : ∀ e ∈ ds, e < radix := fun e he => hds e (List.mem_append_left _ he)
    have hd : d < radix := hds d (by simp)
    by_cases hlast : d + 1 < radix
    · exact backTraceLaw_of_lt hinit hlast (by omega)
    · exact (ih hinit).concat (by omega) hle

/-- **The back-trace carries rightly** unless the last digit is a letter, which it cannot read. -/
theorem backTraceLaw_iff {radix : ℕ} (hle : radix ≤ 36) {ds : List ℕ} (hne : ds ≠ [])
    (hds : ∀ d ∈ ds, d < radix) : BackTraceLaw radix ds ↔ radix ≤ 10 ∨ ds.getLast hne < 10 := by
  obtain ⟨ds, d, rfl⟩ := (List.eq_nil_or_concat' ds).resolve_left hne
  rw [List.getLast_concat]
  have hd : d < radix := hds d (by simp)
  constructor
  · intro hlaw
    by_contra hletter
    obtain ⟨e, out, hrun, -⟩ := hlaw []
    rw [backTrace_concat (by omega), if_neg (by omega)] at hrun
    cases hrun
  · intro h
    by_cases hten : radix ≤ 10
    · exact backTraceLaw_of_le_ten hten hds
    · have hdigit : d < 10 := h.resolve_left hten
      exact backTraceLaw_of_lt (fun e he => hds e (List.mem_append_left _ he)) (by omega) hdigit

theorem backTraceLaw_999 : BackTraceLaw 10 [9, 9, 9] :=
  (backTraceLaw_iff (by decide) (by decide) (by decide)).mpr (Or.inl le_rfl)

/-- `(2 ** 50 + 0.75).toString(17)` panics: the digit `c` is to be rounded up. -/
theorem toNativeStringRadix_letter :
    (∀ fuel, toNativeStringRadix fuel (.fin (1125899906842624 + 3 / 4)) 17 = none) ∧
      fractionStep 17 (fractionStart (.fin (1125899906842624 + 3 / 4))) = none ∧
      backTrace 17 ['.', 'c'] 2 = none ∧ ¬ BackTraceLaw 17 [12] := by
  have hstep : fractionStep 17 (fractionStart (.fin (1125899906842624 + 3 / 4))) = none := by
    decide +kernel
  have hpart : ∀ fuel, fractionPart fuel 17 (.fin (1125899906842624 + 3 / 4)) = none := by
    intro fuel
    unfold fractionPart
    dsimp only
    rw [if_neg (by decide +kernel), if_pos (by decide +kernel)]
    cases fuel with
    | zero => rfl
    | succ fuel => rw [fractionLoop, hstep, Option.bind_none]
  refine ⟨?_, hstep, by decide, ?_⟩
  · intro fuel
    unfold toNativeStringRadix
    dsimp only
    rw [if_neg (by decide +kernel), if_neg (by decide +kernel), hpart]
    rfl
  · intro hlaw
    obtain ⟨e, out, hrun, -⟩ := hlaw []
    cases hrun

end Starlight
