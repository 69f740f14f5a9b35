import Starlight.Lib.Numeral

/-!
# Rounding of decimal strings

`round_to_fixed` and `round_to_precision` round a printed decimal on its characters. A scan over what is
dropped decides whether a carry is passed over the nines, and the character where this stops goes up by one,
also when there was no carry.
-/

namespace Starlight

open Numeral

/-! ### The functions -/

def byteSucc (c : Char) : Char := Char.ofNat (c.toNat + 1)

/-- The loop over the nines, from the byte before `stop_index + 1`; `point` is whether it steps over a point.
The index -1 is zero here, and reading there a panic. -/
def carryBack (point : Bool) (bytes : List Char) : ℕ → Option (List Char × ℕ)
  | 0 => some (bytes, 0)
  | stop + 1 =>
    match bytes[stop]? with
    | none => none
    | some digit =>
      if digit = '9' then carryBack point (bytes.set stop '0') stop
      else if point && digit = '.' then if stop = 0 then none else carryBack point bytes stop
      else some (bytes, stop + 1)

/-- The scan over the dropped characters: the first that is not a four decides. -/
def scanCarries : List Char → Bool
  | [] => false
  | c :: cs => if c < '4' then false else if c > '4' then true else scanCarries cs

/-- The kept bytes after the scan, and the place that goes up. -/
def roundKept (point : Bool) (bytes toRound : List Char) : Option (List Char × ℕ) :=
  if bytes.isEmpty then none
  else if scanCarries toRound then carryBack point bytes bytes.length
  else some (bytes, bytes.length)

/-- The byte at the place goes up, or a one goes in front. -/
def raise (stopped : List Char × ℕ) : List Char :=
  if stopped.2 = 0 then '1' :: stopped.1 else stopped.1.modify (stopped.2 - 1) byteSucc

def roundToPrecision (digits : List Char) (precision : ℕ) : Option (List Char) :=
  if digits.length > precision then
    (roundKept false (digits.take precision) (digits.drop precision)).map fun stopped =>
      if stopped.2 = 0 then (raise stopped).dropLast else raise stopped
  else some (digits ++ List.replicate (precision - digits.length) '0')

def roundToFixed (string : List Char) (fixed : ℕ) : Option (List Char) :=
  match string.idxOf? '.' with
  | some n =>
    if string.length - 1 - n > fixed then
      (roundKept true (string.take (n + fixed + 1)) (string.drop (n + fixed + 1))).map fun stopped =>
        if fixed = 0 then (raise stopped).dropLast else raise stopped
    else (roundToPrecision (string.drop (n + 1)) fixed).map fun digits => string.take (n + 1) ++ digits
  | none =>
    (roundToPrecision [] fixed).map fun digits => if digits.isEmpty then string else string ++ '.' :: digits

/-! ### Decimals -/

/-- The text of a decimal: its sign, the digits before the point and those after it, if there are any. -/
def decimalText (neg : Bool) (int frac : List ℕ) : List Char :=
  (if neg then ['-'] else []) ++ int.map digitChar ++ if frac.isEmpty then [] else '.' :: frac.map digitChar

/-- The result of rounding to `fixed` fraction digits is the text of the decimal nearest to the given one, the
greater in magnitude of two. -/
def ToFixedLaw (neg : Bool) (int frac : List ℕ) (fixed : ℕ) : Prop :=
  ∃ int' frac', roundToFixed (decimalText neg int frac) fixed = some (decimalText neg int' frac') ∧
    int' ≠ [] ∧ frac'.length = fixed ∧ (∀ d ∈ int' ++ frac', d < 10) ∧
    ofDigits 10 (int' ++ frac') = nearest (ofDigits 10 (int ++ frac) * 10 ^ fixed) (10 ^ frac.length)

/-! ### The carry -/

section Carry

variable {point neg : Bool} {pre post toRound : List Char} {c : Char} {k : ℕ} {int frac ds : List ℕ}

theorem carryBack_concat (point : Bool) (pre post : List Char) (c : Char) :
    carryBack point (pre ++ c :: post) (pre.length + 1) =
      if c = '9' then carryBack point (pre ++ '0' :: post) pre.length
      else if point && c = '.' then
        if pre.length = 0 then none else carryBack point (pre ++ c :: post) pre.length
      else some (pre ++ c :: post, pre.length + 1) := by
  have hget : (pre ++ c :: post)[pre.length]? = some c := by simp
  have hset : (pre ++ c :: post).set pre.length '0' = pre ++ '0' :: post := by simp
  rw [carryBack, hget, hset]

theorem carryBack_nines (point : Bool) (pre post : List Char) (k : ℕ) :
    carryBack point (pre ++ List.replicate k '9' ++ post) (pre.length + k) =
      carryBack point (pre ++ List.replicate k '0' ++ post) pre.length := by
  induction k generalizing post with
  | zero => rfl
  | succ k ih =>
    have hlast : pre ++ List.replicate (k + 1) '9' ++ post =
        (pre ++ List.replicate k '9') ++ '9' :: post := by simp [List.replicate_succ']
    have hlen : pre.length + (k + 1) = (pre ++ List.replicate k '9').length + 1 := by simp [Nat.add_assoc]
    rw [hlast, hlen, carryBack_concat, if_pos rfl, List.length_append, List.length_replicate, ih]
    simp [List.replicate_succ']

theorem carryBack_stop (hnine : c ≠ '9') (hpoint : c ≠ '.') (pre post : List Char) :
    carryBack point (pre ++ c :: post) (pre.length + 1) = some (pre ++ c :: post, pre.length + 1) := by
  rw [carryBack_concat, if_neg hnine, if_neg (by simp [hpoint])]

theorem carryBack_point (hpre : pre ≠ []) (post : List Char) :
    carryBack true (pre ++ '.' :: post) (pre.length + 1) = carryBack true (pre ++ '.' :: post) pre.length := by
  rw [carryBack_concat, if_neg (by decide), if_pos (by decide),
    if_neg (fun h => hpre (List.eq_nil_of_length_eq_zero h))]

@[simp] theorem digitChar_nine : digitChar 9 = '9' := rfl

@[simp] theorem digitChar_zero : digitChar 0 = '0' := rfl

theorem modify_append_cons (pre post : List Char) (c : Char) (f : Char → Char) :
    (pre ++ c :: post).modify pre.length f = pre ++ f c :: post := by
  induction pre with
  | nil => rfl
  | cons b pre ih => rw [List.cons_append, List.length_cons, List.modify_succ_cons, ih, List.cons_append]

theorem byteSucc_digitChar {d : ℕ} (hd : d < 9) : byteSucc (digitChar d) = digitChar (d + 1) := by
  interval_cases d <;> decide

theorem byteSucc_ne {d e : ℕ} (hd : d < 10) (hde : byteSucc (digitChar d) = digitChar e) (he : e < 10) :
    e ≠ d := by
  rintro rfl
  revert hde
  interval_cases e <;> decide

theorem raise_carryBack {init : List ℕ} {d : ℕ} (hd : d < 9) (pre post : List Char) (k : ℕ) :
    (carryBack point (pre ++ (init ++ d :: List.replicate k 9).map digitChar ++ post)
        (pre.length + (init ++ d :: List.replicate k 9).length)).map raise =
      some (pre ++ (init ++ (d + 1) :: List.replicate k 0).map digitChar ++ post) := by
  have hnines : pre ++ (init ++ d :: List.replicate k 9).map digitChar ++ post =
      (pre ++ init.map digitChar ++ [digitChar d]) ++ List.replicate k '9' ++ post := by
    simp
  have hlen : pre.length + (init ++ d :: List.replicate k 9).length =
      (pre ++ init.map digitChar ++ [digitChar d]).length + k := by
    simp
    omega
  have hstop : (pre ++ init.map digitChar ++ [digitChar d]) ++ List.replicate k '0' ++ post =
      (pre ++ init.map digitChar) ++ digitChar d :: (List.replicate k '0' ++ post) := by simp
  have hplace : (pre ++ init.map digitChar ++ [digitChar d]).length = (pre ++ init.map digitChar).length + 1 := by
    simp [Nat.add_assoc]
  rw [hnines, hlen, carryBack_nines, hstop, hplace,
    carryBack_stop (fun h => by have := (digitChar_eq_nine (by omega)).mp h; omega) (digitChar_ne_point (by omega)),
    Option.map_some, raise, if_neg (Nat.succ_ne_zero _), Nat.add_sub_cancel, modify_append_cons]
  simp [byteSucc_digitChar hd]

def keptText (neg : Bool) (int frac : List ℕ) : List Char :=
  (if neg then ['-'] else []) ++ int.map digitChar ++ '.' :: frac.map digitChar

theorem length_keptText (neg : Bool) (int frac : List ℕ) :
    (keptText neg int frac).length =
      ((if neg then ['-'] else []) ++ int.map digitChar ++ ['.']).length + frac.length := by
  simp [keptText]
  omega

/-- **The carry** through the point: the digits become those of the next number, with a one in front when they
were all nines and there is no sign. -/
theorem exists_raise_carryBack (hne : int ≠ []) (hint : ∀ d ∈ int, d < 10) (hfrac : ∀ d ∈ frac, d < 10)
    (hsign : ¬ (neg = true ∧ ∀ d ∈ int ++ frac, d = 9)) :
    ∃ int' frac', (carryBack true (keptText neg int frac) (keptText neg int frac).length).map raise =
        some (keptText neg int' frac') ∧ int' ≠ [] ∧ frac'.length = frac.length ∧
      (∀ d ∈ int' ++ frac', d < 10) ∧ ofDigits 10 (int' ++ frac') = ofDigits 10 (int ++ frac) + 1 := by
  set sign : List Char := if neg then ['-'] else [] with hsigndef
  have hpoint : sign ++ int.map digitChar ≠ [] := by simp [hne]
  rw [length_keptText]
  rcases nines_cases hfrac with ⟨m, rfl⟩ | ⟨init, d, k, hd, rfl⟩
  · -- all fraction digits are nines: the carry reaches the point, and goes on before it
    have hcarry : carryBack true (keptText neg int (List.replicate m 9))
        ((sign ++ int.map digitChar ++ ['.']).length + (List.replicate m 9).length) =
          carryBack true (sign ++ int.map digitChar ++ '.' :: List.replicate m '0')
            (sign ++ int.map digitChar).length := by
      have htext : keptText neg int (List.replicate m 9) =
          (sign ++ int.map digitChar ++ ['.']) ++ List.replicate m '9' ++ [] := by
        simp [keptText, hsigndef]
      have hzeros : (sign ++ int.map digitChar ++ ['.']) ++ List.replicate m '0' ++ [] =
          (sign ++ int.map digitChar) ++ '.' :: List.replicate m '0' := by simp
      have hlen : (sign ++ int.map digitChar ++ ['.']).length = (sign ++ int.map digitChar).length + 1 := by
        simp [Nat.add_assoc]
      rw [htext, List.length_replicate, carryBack_nines, hzeros, hlen, carryBack_point hpoint]
    rw [hcarry]
    rcases nines_cases hint with ⟨k, rfl⟩ | ⟨init, d, k, hd, rfl⟩
    · -- all digits are nines
      have hneg : neg = false := by
        refine Bool.eq_false_iff.mpr fun hneg => hsign ⟨hneg, fun d hd => ?_⟩
        rw [List.replicate_append_replicate] at hd
        exact List.eq_of_mem_replicate hd
      subst hneg
      refine ⟨1 :: List.replicate k 0, List.replicate m 0, ?_, by simp, by simp, ?_, ?_⟩
      · have hrun := carryBack_nines true [] ('.' :: List.replicate m '0') k
        have htext : sign ++ (List.replicate k 9).map digitChar ++ '.' :: List.replicate m '0' =
            [] ++ List.replicate k '9' ++ '.' :: List.replicate m '0' := by
          simp [hsigndef]
        have hlen : (sign ++ (List.replicate k 9).map digitChar).length = ([] : List Char).length + k := by
          simp [hsigndef]
        rw [htext, hlen, hrun, List.length_nil, carryBack, Option.map_some, raise, if_pos rfl]
        simp [keptText, digitChar]
      · intro d hd
        simp only [List.cons_append, List.mem_cons, List.mem_append, List.mem_replicate] at hd
        omega
      · rw [List.cons_append, List.replicate_append_replicate, List.replicate_append_replicate, ofDigits_cons,
          ofDigits_replicate_zero, ofDigits_nines, List.length_replicate]
        ring
    · -- the carry stops before the point
      refine ⟨init ++ (d + 1) :: List.replicate k 0, List.replicate m 0, ?_, by simp, by simp, ?_, ?_⟩
      · have hrun := @raise_carryBack true init d hd sign ('.' :: List.replicate m '0') k
        rw [List.length_append, List.length_map, hrun, keptText]
        simp [hsigndef]
      · intro e he
        have hinit : ∀ e ∈ init, e < 10 := fun e he => hint e (List.mem_append_left _ he)
        simp only [List.append_assoc, List.cons_append, List.mem_cons, List.mem_append, List.mem_replicate] at he
        rcases he with he | he
        · exact hinit e he
        · omega
      · rw [List.append_assoc, List.append_assoc, List.cons_append, List.cons_append,
          List.replicate_append_replicate, List.replicate_append_replicate, ofDigits_carry]
  · -- the carry stops behind the point
    refine ⟨int, init ++ (d + 1) :: List.replicate k 0, ?_, hne, by simp, ?_, ?_⟩
    · have hrun := @raise_carryBack true init d hd (sign ++ int.map digitChar ++ ['.']) [] k
      have htext : ∀ ds : List ℕ, keptText neg int ds =
          sign ++ int.map digitChar ++ ['.'] ++ ds.map digitChar ++ [] := by
        intro ds
        simp [keptText, hsigndef]
      rw [htext, htext, hrun]
    · intro e he
      have hinit : ∀ e ∈ init, e < 10 := fun e he => hfrac e (List.mem_append_left _ he)
      simp only [List.mem_append, List.mem_cons, List.mem_replicate] at he
      rcases he with he | he | he
      · exact hint e he
      · exact hinit e he
      · omega
    · rw [← List.append_assoc, ← List.append_assoc, ofDigits_carry]

end Carry

/-! ### Rounding to fraction digits -/

theorem exists_raise_sign {int frac : List ℕ} {k m : ℕ} (hint : int = List.replicate k 9)
    (hfrac : frac = List.replicate m 9) :
    ∃ cs, cs ≠ [] ∧ (carryBack true (keptText true int frac) (keptText true int frac).length).map raise =
      some ('.' :: cs) := by
  subst hint hfrac
  refine ⟨List.replicate k '0' ++ '.' :: List.replicate m '0', by simp, ?_⟩
  have htext : keptText true (List.replicate k 9) (List.replicate m 9) =
      ('-' :: List.replicate k '9' ++ ['.']) ++ List.replicate m '9' ++ [] := by simp [keptText]
  have hlen : (('-' :: List.replicate k '9' ++ ['.']) ++ List.replicate m '9' ++ []).length =
      ('-' :: List.replicate k '9' ++ ['.']).length + m := by
    simp
    omega
  have hpoint : ('-' :: List.replicate k '9' ++ ['.']) ++ List.replicate m '0' ++ [] =
      '-' :: List.replicate k '9' ++ '.' :: List.replicate m '0' := by simp
  have hplace : ('-' :: List.replicate k '9' ++ ['.']).length = ('-' :: List.replicate k '9').length + 1 := by simp
  have hints : '-' :: List.replicate k '9' ++ '.' :: List.replicate m '0' =
      ['-'] ++ List.replicate k '9' ++ '.' :: List.replicate m '0' := rfl
  have hsign : ('-' :: List.replicate k '9').length = ['-'].length + k := by simp [Nat.add_comm]
  have hstop := @carryBack_stop true '-' (by decide) (by decide) []
    (List.replicate k '0' ++ '.' :: List.replicate m '0')
  rw [htext, hlen, carryBack_nines, hpoint, hplace, carryBack_point (List.cons_ne_nil _ _), hints, hsign,
    carryBack_nines]
  rw [List.append_assoc]
  exact congrArg (Option.map raise) hstop

section Fixed

variable {neg : Bool} {int frac : List ℕ} {fixed : ℕ}

theorem idxOf?_append_cons {pre : List Char} (h : '.' ∉ pre) (post : List Char) :
    (pre ++ '.' :: post).idxOf? '.' = some pre.length := by
  induction pre with
  | nil => rfl
  | cons b pre ih =>
    rw [List.mem_cons, not_or] at h
    rw [List.cons_append, List.idxOf?_cons, if_neg (by simpa using Ne.symm h.1), ih h.2]
    rfl

/-- The sign and the digits before the point. -/
def signedText (neg : Bool) (int : List ℕ) : List Char := (if neg then ['-'] else []) ++ int.map digitChar

theorem keptText_eq (neg : Bool) (int frac : List ℕ) :
    keptText neg int frac = signedText neg int ++ '.' :: frac.map digitChar := rfl

theorem point_notMem_signedText (hint : ∀ d ∈ int, d < 10) : '.' ∉ signedText neg int := by
  intro hmem
  rcases List.mem_append.mp hmem with hmem | hmem
  · split at hmem
    · exact absurd (List.mem_singleton.mp hmem) (by decide)
    · cases hmem
  · obtain ⟨d, hd, heq⟩ := List.mem_map.mp hmem
    exact digitChar_ne_point (hint d hd) heq

theorem decimalText_nil (neg : Bool) (int : List ℕ) : decimalText neg int [] = signedText neg int :=
  List.append_nil _

theorem decimalText_of_ne_nil (hne : frac ≠ []) : decimalText neg int frac = keptText neg int frac := by
  have hempty : ¬ frac.isEmpty = true := by simpa using hne
  rw [decimalText, keptText, if_neg hempty]

theorem roundToFixed_nil (hint : ∀ d ∈ int, d < 10) (fixed : ℕ) :
    roundToFixed (decimalText neg int []) fixed = some (decimalText neg int (List.replicate fixed 0)) := by
  have hnone : (signedText neg int).idxOf? '.' = none :=
    List.idxOf?_eq_none_iff.mpr (point_notMem_signedText hint)
  rw [decimalText_nil, roundToFixed, hnone]
  dsimp only
  rw [roundToPrecision, if_neg (by simp), Option.map_some, List.nil_append, List.length_nil, Nat.sub_zero]
  cases fixed with
  | zero => rw [List.replicate_zero, List.replicate_zero, decimalText_nil]; rfl
  | succ k =>
    rw [if_neg (by simp [List.replicate_succ]), decimalText_of_ne_nil (by simp [List.replicate_succ]), keptText_eq]
    simp

theorem roundToFixed_of_ne_nil (hint : ∀ d ∈ int, d < 10) (hne : frac ≠ []) (fixed : ℕ) :
    roundToFixed (decimalText neg int frac) fixed =
      if frac.length > fixed then
        (roundKept true (keptText neg int (frac.take fixed)) ((frac.drop fixed).map digitChar)).map fun stopped =>
          if fixed = 0 then (raise stopped).dropLast else raise stopped
      else some (keptText neg int (frac ++ List.replicate (fixed - frac.length) 0)) := by
  have hidx := idxOf?_append_cons (@point_notMem_signedText neg int hint) (frac.map digitChar)
  rw [decimalText_of_ne_nil hne, keptText_eq, roundToFixed, hidx]
  dsimp only
  have hlen : (signedText neg int ++ '.' :: frac.map digitChar).length - 1 - (signedText neg int).length =
      frac.length := by
    simp
  have htake : ∀ k, (signedText neg int ++ '.' :: frac.map digitChar).take ((signedText neg int).length + k + 1) =
      keptText neg int (frac.take k) := by
    intro k
    rw [Nat.add_assoc, List.take_length_add_append, List.take_succ_cons, keptText_eq, List.map_take]
  have hdrop : ∀ k, (signedText neg int ++ '.' :: frac.map digitChar).drop ((signedText neg int).length + k + 1) =
      (frac.drop k).map digitChar := by
    intro k
    rw [Nat.add_assoc, List.drop_length_add_append, List.drop_succ_cons, List.map_drop]
  rw [hlen]
  split
  · rw [htake, hdrop]
  · next hle =>
    have hdrop0 := hdrop 0
    have htake0 := htake 0
    rw [Nat.add_zero] at hdrop0 htake0
    rw [hdrop0, htake0, List.drop_zero, List.take_zero, roundToPrecision, List.length_map, if_neg hle, keptText_eq,
      keptText_eq]
    simp

theorem dropPoint_keptText (neg : Bool) (int frac : List ℕ) :
    (if frac.length = 0 then (keptText neg int frac).dropLast else keptText neg int frac) =
      decimalText neg int frac := by
  cases frac with
  | nil =>
    rw [if_pos List.length_nil, decimalText_nil, keptText_eq, List.map_nil, List.dropLast_concat]
  | cons d frac => rw [if_neg (by simp), decimalText_of_ne_nil (by simp)]

theorem decimalText_inj {int' frac' : List ℕ} (hd : ∀ d ∈ int ++ frac, d < 10) (hd' : ∀ d ∈ int' ++ frac', d < 10)
    (hlen : frac.length = frac'.length) (h : decimalText neg int frac = decimalText neg int' frac') :
    int ++ frac = int' ++ frac' := by
  rw [List.forall_mem_append] at hd hd'
  have hsplit : ∀ {tail tail' : List Char}, tail.length = tail'.length →
      signedText neg int ++ tail = signedText neg int' ++ tail' → int = int' ∧ tail = tail' := by
    intro tail tail' htail heq
    obtain ⟨hsigned, rfl⟩ := List.append_inj' heq htail
    exact ⟨map_digitChar_inj hd.1 hd'.1 (List.append_cancel_left hsigned), rfl⟩
  cases frac with
  | nil =>
    obtain rfl := List.eq_nil_of_length_eq_zero hlen.symm
    rw [(hsplit rfl h).1]
  | cons d frac =>
    have hne : frac' ≠ [] := by
      rintro rfl
      cases hlen
    rw [decimalText_of_ne_nil (by simp), decimalText_of_ne_nil hne, keptText_eq, keptText_eq] at h
    obtain ⟨hint, htail⟩ := hsplit (by simpa using hlen) h
    rw [hint, map_digitChar_inj hd.2 hd'.2 (List.cons.inj htail).2]

/-- The decimals that are rounded rightly: those with few enough digits, those whose first dropped digit is at
least five, unless they are negative and all kept digits are nines, and those that the scan rounds down to an
integer. -/
def ToFixedHolds (neg : Bool) (int frac : List ℕ) (fixed : ℕ) : Prop :=
  frac.length ≤ fixed ∨
  ((∃ d, frac[fixed]? = some d ∧ 5 ≤ d) ∧ ¬ (neg = true ∧ ∀ d ∈ int ++ frac.take fixed, d = 9)) ∨
  (fixed = 0 ∧ scanCarries (frac.map digitChar) = false)

theorem toFixedLaw_of_le (hne : int ≠ []) (hint : ∀ d ∈ int, d < 10) (hfrac : ∀ d ∈ frac, d < 10)
    (hle : frac.length ≤ fixed) : ToFixedLaw neg int frac fixed := by
  obtain ⟨k, rfl⟩ := Nat.exists_eq_add_of_le hle
  refine ⟨int, frac ++ List.replicate k 0, ?_, hne, by simp, ?_, ?_⟩
  · by_cases hnil : frac = []
    · rw [hnil, roundToFixed_nil hint, List.length_nil, Nat.zero_add, List.nil_append]
    · rw [roundToFixed_of_ne_nil hint hnil, if_neg (by omega), Nat.add_sub_cancel_left,
        decimalText_of_ne_nil (by simp [hnil])]
  · intro d hd
    simp only [List.mem_append, List.mem_replicate] at hd
    rcases hd with hd | hd | hd
    · exact hint d hd
    · exact hfrac d hd
    · omega
  · have hpow : ofDigits 10 (int ++ frac) * 10 ^ (frac.length + k) =
        ofDigits 10 (int ++ frac) * 10 ^ k * 10 ^ frac.length := by ring
    rw [hpow, nearest_mul_self (Nat.pow_pos (by decide)), ← List.append_assoc, ofDigits_append,
      ofDigits_replicate_zero, List.length_replicate, Nat.add_zero]

theorem scanCarries_cons {d : ℕ} (hd : d < 10) (cs : List Char) :
    scanCarries (digitChar d :: cs) = if d = 4 then scanCarries cs else decide (5 ≤ d) := by
  interval_cases d <;> rfl

section Dropped

variable {kept rest : List ℕ} {d : ℕ}

theorem nearest_dropped (hd : d < 10) (hrest : ∀ e ∈ rest, e < 10) :
    nearest (ofDigits 10 (int ++ (kept ++ d :: rest)) * 10 ^ kept.length) (10 ^ (kept ++ d :: rest).length) =
      ofDigits 10 (int ++ kept) + if 5 ≤ d then 1 else 0 := by
  rw [← nearest_append_cons (int ++ kept) hd hrest, List.append_assoc, List.length_append, List.length_cons,
    Nat.add_comm kept.length, pow_add, nearest_mul_mul (Nat.pow_pos (by decide))]

theorem roundToFixed_dropped (hint : ∀ d ∈ int, d < 10) :
    roundToFixed (decimalText neg int (kept ++ d :: rest)) kept.length =
      (roundKept true (keptText neg int kept) ((d :: rest).map digitChar)).map fun stopped =>
        if kept.length = 0 then (raise stopped).dropLast else raise stopped := by
  rw [roundToFixed_of_ne_nil hint (by simp), if_pos (by simp), List.take_left, List.drop_left]

theorem roundKept_keptText (hscan : scanCarries ((d :: rest).map digitChar) = true) :
    roundKept true (keptText neg int kept) ((d :: rest).map digitChar) =
      carryBack true (keptText neg int kept) (keptText neg int kept).length := by
  rw [roundKept, if_neg (by simp [keptText]), if_pos hscan]

theorem toFixedLaw_of_scan_false (hne : int ≠ []) (hint : ∀ d ∈ int, d < 10) (hkept : ∀ d ∈ kept, d < 10)
    (hd : d < 10) (hrest : ∀ e ∈ rest, e < 10) (hscan : scanCarries ((d :: rest).map digitChar) = false) :
    ToFixedLaw neg int (kept ++ d :: rest) kept.length ↔ kept = [] := by
  have hround : roundKept true (keptText neg int kept) ((d :: rest).map digitChar) =
      some (keptText neg int kept, (keptText neg int kept).length) := by
    rw [roundKept, if_neg (by simp [keptText]), if_neg (by rw [hscan]; exact Bool.false_ne_true)]
  have hdown : ¬ 5 ≤ d := by
    intro hup
    rw [List.map_cons, scanCarries_cons hd, if_neg (by omega), decide_eq_true hup] at hscan
    cases hscan
  have hvalue := @nearest_dropped int kept rest d hd hrest
  rw [if_neg hdown, Nat.add_zero] at hvalue
  have hrun := @roundToFixed_dropped neg int kept rest d hint
  rw [hround, Option.map_some] at hrun
  constructor
  · rintro ⟨int', frac', hrun', -, hlen, hdigit, hval⟩
    rw [hvalue] at hval
    by_contra hnil
    obtain ⟨init, e, rfl⟩ := (List.eq_nil_or_concat' kept).resolve_left hnil
    have he : e < 10 := hkept e (by simp)
    have hraise : raise (keptText neg int (init ++ [e]), (keptText neg int (init ++ [e])).length) =
        (signedText neg int ++ '.' :: init.map digitChar) ++ [byteSucc (digitChar e)] := by
      have hconcat : keptText neg int (init ++ [e]) =
          (signedText neg int ++ '.' :: init.map digitChar) ++ digitChar e :: [] := by simp [keptText_eq]
      have hplace : (keptText neg int (init ++ [e])).length - 1 =
          (signedText neg int ++ '.' :: init.map digitChar).length := by simp [hconcat]
      rw [raise, if_neg (by simp [keptText]), hplace, hconcat, modify_append_cons]
    rw [hrun, if_neg (by simp), hraise] at hrun'
    obtain ⟨init', e', rfl⟩ : ∃ init' e', frac' = init' ++ [e'] := by
      rcases List.eq_nil_or_concat' frac' with rfl | h
      · simp at hlen
      · exact h
    have htext := Option.some.inj hrun'
    rw [decimalText_of_ne_nil (by simp), keptText_eq, List.map_append, List.map_singleton, ← List.cons_append,
      ← List.append_assoc] at htext
    -- the last digits differ, but the numbers do not
    have hlast : byteSucc (digitChar e) = digitChar e' := List.singleton_inj.mp (List.append_inj' htext rfl).2
    have he' : e' < 10 := hdigit e' (by simp)
    rw [← List.append_assoc, ← List.append_assoc, ofDigits_concat, ofDigits_concat] at hval
    exact byteSucc_ne he hlast he' (by omega)
  · rintro rfl
    refine ⟨int, [], ?_, hne, rfl, by simpa using hint, ?_⟩
    · rw [hrun, if_pos List.length_nil, decimalText_nil]
      have hraise : raise (keptText neg int [], (keptText neg int []).length) =
          signedText neg int ++ [byteSucc '.'] := by
        rw [raise, if_neg (by simp [keptText]), keptText_eq, List.map_nil, List.length_append,
          List.length_singleton, Nat.add_sub_cancel, modify_append_cons]
      rw [hraise, List.dropLast_concat]
    · rw [hvalue]

theorem not_toFixedLaw_of_nines (hint : ∀ d ∈ int, d < 10) (hall : ∀ e ∈ int ++ kept, e = 9)
    (hscan : scanCarries ((d :: rest).map digitChar) = true) :
    ¬ ToFixedLaw true int (kept ++ d :: rest) kept.length := by
  rintro ⟨int', frac', hrun', -⟩
  obtain ⟨hint9, hkept9⟩ := List.forall_mem_append.mp hall
  obtain ⟨cs, hne, hraise⟩ := exists_raise_sign (List.eq_replicate_of_mem hint9) (List.eq_replicate_of_mem hkept9)
  rw [roundToFixed_dropped hint, roundKept_keptText hscan] at hrun'
  obtain ⟨stopped, hstopped, htext⟩ := Option.map_eq_some_iff.mp hrun'
  rw [hstopped] at hraise
  rw [Option.some.inj hraise] at htext
  have hhead := congrArg List.head? htext
  rw [decimalText] at hhead
  split at hhead
  · rw [List.dropLast_cons_of_ne_nil hne] at hhead
    exact absurd (Option.some.inj hhead) (by decide)
  · exact absurd (Option.some.inj hhead) (by decide)

/-- With a carry the kept digits become those of the next number: this is right when the first dropped digit is
at least five, and wrong behind a four. -/
theorem toFixedLaw_of_scan_true (hne : int ≠ []) (hint : ∀ d ∈ int, d < 10) (hkept : ∀ d ∈ kept, d < 10)
    (hd : d < 10) (hrest : ∀ e ∈ rest, e < 10) (hscan : scanCarries ((d :: rest).map digitChar) = true)
    (hsign : ¬ (neg = true ∧ ∀ d ∈ int ++ kept, d = 9)) :
    ToFixedLaw neg int (kept ++ d :: rest) kept.length ↔ 5 ≤ d := by
  obtain ⟨int₁, frac₁, hcarry, hne₁, hlen₁, hdigit₁, hval₁⟩ := exists_raise_carryBack hne hint hkept hsign
  have hvalue := @nearest_dropped int kept rest d hd hrest
  have hrun : roundToFixed (decimalText neg int (kept ++ d :: rest)) kept.length =
      some (decimalText neg int₁ frac₁) := by
    obtain ⟨stopped, hstopped, hraise⟩ := Option.map_eq_some_iff.mp hcarry
    rw [roundToFixed_dropped hint, roundKept_keptText hscan, hstopped, Option.map_some, hraise, ← hlen₁,
      dropPoint_keptText]
  constructor
  · rintro ⟨int', frac', hrun', -, hlen, hdigit, hval⟩
    have hsame := decimalText_inj hdigit₁ hdigit (hlen₁.trans hlen.symm)
      (Option.some.inj (hrun.symm.trans hrun'))
    rw [hvalue, ← hsame, hval₁] at hval
    by_contra hdown
    rw [if_neg hdown] at hval
    omega
  · intro hup
    exact ⟨int₁, frac₁, hrun, hne₁, hlen₁, hdigit₁, by rw [hvalue, if_pos hup, hval₁]⟩

end Dropped

/-- **Rounding to fraction digits** gives the nearest decimal exactly for these. -/
theorem toFixedLaw_iff (hne : int ≠ []) (hint : ∀ d ∈ int, d < 10) (hfrac : ∀ d ∈ frac, d < 10) (fixed : ℕ) :
    ToFixedLaw neg int frac fixed ↔ ToFixedHolds neg int frac fixed := by
  rcases Nat.lt_or_ge fixed frac.length with hlt | hle
  swap
  · exact iff_of_true (toFixedLaw_of_le hne hint hfrac hle) (Or.inl hle)
  obtain ⟨kept, d, rest, rfl, rfl⟩ : ∃ kept d rest, frac = kept ++ d :: rest ∧ kept.length = fixed := by
    refine ⟨frac.take fixed, frac[fixed], frac.drop (fixed + 1), ?_, ?_⟩
    · rw [← List.drop_eq_getElem_cons hlt, List.take_append_drop]
    · rw [List.length_take]
      omega
  rw [List.forall_mem_append, List.forall_mem_cons] at hfrac
  obtain ⟨hkept, hd, hrest⟩ := hfrac
  have hdropped : (kept ++ d :: rest)[kept.length]? = some d := by simp
  rw [ToFixedHolds, or_iff_right (by simp), hdropped, List.take_left]
  cases hscan : scanCarries ((d :: rest).map digitChar) with
  | false =>
    have hdown : ¬ 5 ≤ d := by
      intro hup
      rw [List.map_cons, scanCarries_cons hd, if_neg (by omega), decide_eq_true hup] at hscan
      cases hscan
    rw [toFixedLaw_of_scan_false hne hint hkept hd hrest hscan]
    constructor
    · rintro rfl
      exact Or.inr ⟨rfl, hscan⟩
    · rintro (⟨⟨e, he, hup⟩, -⟩ | ⟨hnil, -⟩)
      · exact absurd (Option.some.inj he ▸ hup) hdown
      · exact List.eq_nil_of_length_eq_zero hnil
  | true =>
    have hdown : ¬ (kept.length = 0 ∧ scanCarries ((kept ++ d :: rest).map digitChar) = false) := by
      rintro ⟨hnil, hfalse⟩
      rw [List.eq_nil_of_length_eq_zero hnil, List.nil_append, hscan] at hfalse
      cases hfalse
    rw [or_iff_left hdown]
    by_cases hsign : neg = true ∧ ∀ e ∈ int ++ kept, e = 9
    · obtain ⟨rfl, hall⟩ := hsign
      exact iff_of_false (not_toFixedLaw_of_nines hint hall hscan) fun h => h.2 ⟨rfl, hall⟩
    · rw [toFixedLaw_of_scan_true hne hint hkept hd hrest hscan hsign, and_iff_left hsign]
      constructor
      · exact fun hup => ⟨d, rfl, hup⟩
      · rintro ⟨e, he, hup⟩
        exact Option.some.inj he ▸ hup

/-- `9.95` to one fraction digit, with a carry through the point. -/
theorem toFixedLaw_995 : ToFixedLaw false [9] [9, 5] 1 :=
  (toFixedLaw_iff (by decide) (by decide) (by decide) 1).mpr (Or.inr (Or.inl ⟨⟨5, rfl, le_rfl⟩, by decide⟩))

end Fixed

/-- `(-9.99).toFixed(1)` is `.0.0`, and `(1.24).toFixed(1)` is `1.3`. -/
theorem roundToFixed_minusNines :
    roundToFixed ['-', '9', '.', '9', '9'] 1 = some ['.', '0', '.', '0'] ∧
      roundToFixed ['1', '.', '2', '4'] 1 = some ['1', '.', '3'] ∧ ¬ ToFixedLaw false [1] [2, 4] 1 := by
  refine ⟨by decide, by decide, ?_⟩
  rintro ⟨int', frac', hrun, hne, hlen, hdigit, hval⟩
  have hone : roundToFixed (decimalText false [1] [2, 4]) 1 = some (decimalText false [1] [3]) := by decide
  have hsame := @decimalText_inj false [1] [3] int' frac' (by decide) hdigit hlen.symm (Option.some.inj (hone.symm.trans hrun))
  rw [← hsame] at hval
  exact absurd hval (by decide)

end Starlight
