import Starlight.Vm.StringPositions

/-!
# The iterator of strings

The iterator reads `charCodeAt`, which counts in UTF-16, and elements, which are characters, at one
position, and advances that position by the length of what it found, which is in bytes. It visits the
characters in order just when the three counts agree up to the last character.
-/

namespace Starlight

/-- `___StringIterator`. The index is a number, `none` for a NaN. -/
structure StringIterator where
  fieldIndex : Option ℤ
  iterated : JsString

/-- `string[position]`: nothing where it is `undefined`, as it is at a key that is no index. -/
def stringElement (string : List Char) (position : Option ℤ) : Option (List Char) :=
  position.bind fun p =>
    if 0 ≤ p ∧ p < utf8Length string then string[p.toNat]?.map fun x => [x] else none

def Answer.outside (code : Answer) (low high : ℕ) : Bool :=
  match code with
  | .number u => u < low || high < u
  | _ => false

/-- A value that may be `undefined`. -/
def Answer.ofElement : Option (List Char) → Answer
  | some t => .text t
  | none => .undefined

def Answer.plus : Option (List Char) → Option (List Char) → Answer
  | some a, some b => .text (a ++ b)
  | some a, none => .text (a ++ "undefined".toList)
  | none, some b => .text ("undefined".toList ++ b)
  | none, none => .nan

/-- `value.length`, and `none` where a number has no such property. -/
def Answer.lengthProperty : Answer → Option ℤ
  | .text t => some (IntType.i32.cast (utf8Length t))
  | _ => none

namespace StringIterator

/-- The constructor. -/
def new (string : JsString) : StringIterator := ⟨some 0, string⟩

def charCodeAt (it : StringIterator) (position : Option ℤ) : Answer :=
  stringCharCodeAt it.iterated.string (position.elim 0 toI32)

/-- The value that `next` finds at a position before the end. -/
def valueAt (it : StringIterator) (position : Option ℤ) (length : ℤ) : Answer :=
  let string := it.iterated.string
  let next := position.map (· + 1)
  let first := it.charCodeAt position
  if first.outside 0xD800 0xDBFF ∨ next = some length then .ofElement (stringElement string position)
  else
    let second := it.charCodeAt next
    if second.outside 0xDC00 0xDFFF then .ofElement (stringElement string position)
    else .plus (stringElement string position) (stringElement string next)

/-- `next`: the value and whether it is done, or the text of a `TypeError`. -/
def next (it : StringIterator) : Except (List Char) (Answer × Bool) × StringIterator :=
  let position := it.fieldIndex
  if position = some (-1) then (.ok (.undefined, true), it)
  else
    let length := IntType.u32.cast it.iterated.lengthProperty
    if position.any (length ≤ ·) then (.ok (.undefined, true), { it with fieldIndex := some (-1) })
    else match it.valueAt position length with
      | .undefined => (.error "undefined does not have properties ('length')".toList, it)
      | value => (.ok (value, false),
          { it with fieldIndex := position.bind fun p => value.lengthProperty.map (p + ·) })

def after (it : StringIterator) : ℕ → StringIterator
  | 0 => it
  | n + 1 => (it.after n).next.2

end StringIterator

/-- The calls give the characters in order, and are done from then on. -/
def IteratorLaw (s : JsString) : Prop := ∀ n, ((StringIterator.new s).after n).next.1 =
  match s.string[n]? with
  | some c => .ok (.text [c], false)
  | none => .ok (.undefined, true)

/-- Every character but the last is ASCII, the last is one unit of UTF-16, and the length is not
negative. -/
structure IterationExact (s : JsString) : Prop where
  len_lt : s.len < 2 ^ 31
  ascii : IsAscii s.string.dropLast
  unit : ∀ c ∈ s.string.getLast?, c.toNat < 0x10000

namespace StringIterator

section

variable {it it' : StringIterator} {s : JsString} {u v : List Char} {c : Char} {p : ℤ}

/-! ### One call -/

theorem next_of_done (h : it.fieldIndex = some (-1)) : it.next = (.ok (.undefined, true), it) := if_pos h

theorem length_eq (s : JsString) : IntType.u32.cast s.lengthProperty = s.len := by
  have hfits : s.len < 2 ^ 32 := s.fits
  unfold JsString.lengthProperty IntType.cast
  simp only [IntType.signed, IntType.bits, if_true, Bool.false_eq_true, if_false]
  have hmod : (s.len : ℤ).bmod (2 ^ 32) % 2 ^ 32 = s.len % 2 ^ 32 := Int.bmod_emod
  omega

theorem next_of_len_le (hp : it.fieldIndex = some p) (hle : (it.iterated.len : ℤ) ≤ p) :
    it.next = (.ok (.undefined, true), { it with fieldIndex := some (-1) }) := by
  have hany : it.fieldIndex.any (IntType.u32.cast it.iterated.lengthProperty ≤ ·) := by
    rw [hp, length_eq]
    exact decide_eq_true hle
  have hne : it.fieldIndex ≠ some (-1) := by
    rw [hp]
    intro h
    have := Option.some.inj h
    omega
  unfold next
  dsimp only
  rw [if_neg hne, if_pos hany]

theorem next_of_lt (hp : it.fieldIndex = some p) (h0 : 0 ≤ p) (hlt : p < it.iterated.len) :
    it.next = match it.valueAt (some p) it.iterated.len with
      | .undefined => (.error "undefined does not have properties ('length')".toList, it)
      | value => (.ok (value, false), { it with fieldIndex := value.lengthProperty.map (p + ·) }) := by
  have hany : ¬ it.fieldIndex.any (IntType.u32.cast it.iterated.lengthProperty ≤ ·) := by
    rw [hp, length_eq, Option.any_some, decide_eq_true_eq]
    omega
  have hne : it.fieldIndex ≠ some (-1) := by
    rw [hp]
    intro h
    have := Option.some.inj h
    omega
  unfold next
  dsimp only
  rw [if_neg hne, if_neg hany, hp, length_eq]
  rfl

theorem next_of_text (hp : it.fieldIndex = some p) (h0 : 0 ≤ p) (hlt : p < it.iterated.len)
    (hvalue : it.valueAt (some p) it.iterated.len = .text [c]) :
    it.next = (.ok (.text [c], false), { it with fieldIndex := some (p + c.utf8Size) }) := by
  have hsize := c.utf8Size_le_four
  have hlength : IntType.i32.cast (utf8Length [c]) = c.utf8Size := by
    rw [utf8Length_cons, utf8Length_nil, Nat.add_zero]
    exact i32_cast_of_range (by omega) (by omega)
  rw [next_of_lt hp h0 hlt, hvalue]
  dsimp only
  rw [Answer.lengthProperty, hlength, Option.map_some]

theorem valueAt_of_next (hp : it.fieldIndex = some p) (h0 : 0 ≤ p) (hlt : p < it.iterated.len)
    (h : it.next.1 = .ok (.text [c], false)) : it.valueAt (some p) it.iterated.len = .text [c] := by
  rw [next_of_lt hp h0 hlt] at h
  split at h
  · cases h
  · exact congrArg Prod.fst (Except.ok.inj h)

theorem iterated_next (it : StringIterator) : it.next.2.iterated = it.iterated := by
  unfold next
  dsimp only
  split
  · rfl
  split
  · rfl
  split <;> rfl

theorem iterated_after (it : StringIterator) (n : ℕ) : (it.after n).iterated = it.iterated := by
  induction n with
  | zero => rfl
  | succ n ih => rw [after, iterated_next, ih]

theorem next_done {value : Answer} (h : it.next.1 = .ok (value, true)) (n : ℕ) :
    (it.next.2.after n).next.1 = .ok (.undefined, true) := by
  have hdone : it.next.2.fieldIndex = some (-1) := by
    revert h
    unfold next
    dsimp only
    split
    · next hp => exact fun _ => hp
    split
    · exact fun _ => rfl
    split <;> exact fun h => nomatch h
  have hafter : ∀ n, it.next.2.after n = it.next.2 := fun n => by
    induction n with
    | zero => rfl
    | succ n ih => rw [after, ih, next_of_done hdone]
  rw [hafter, next_of_done hdone]

/-! ### The value of a call -/

theorem eq_singleton_of_stringElement {string t : List Char} {position : Option ℤ}
    (h : stringElement string position = some t) : ∃ c, t = [c] := by
  obtain ⟨p, -, hp⟩ := Option.bind_eq_some_iff.mp h
  split at hp
  · obtain ⟨c, -, rfl⟩ := Option.map_eq_some_iff.mp hp
    exact ⟨c, rfl⟩
  · cases hp

theorem plus_ne {string : List Char} {position position' : Option ℤ} :
    Answer.plus (stringElement string position) (stringElement string position') ≠ .text [c] := by
  cases ha : stringElement string position with
  | none =>
    cases hb : stringElement string position' with
    | none => exact nofun
    | some b =>
      intro h
      have hlen := congrArg List.length (Answer.text.inj h)
      rw [List.length_append, show "undefined".toList.length = 9 from rfl, List.length_singleton] at hlen
      omega
  | some a =>
    obtain ⟨x, rfl⟩ := eq_singleton_of_stringElement ha
    cases hb : stringElement string position' with
    | none =>
      intro h
      exact absurd (congrArg List.length (Answer.text.inj h)) (by simp)
    | some b =>
      obtain ⟨y, rfl⟩ := eq_singleton_of_stringElement hb
      intro h
      exact absurd (congrArg List.length (Answer.text.inj h)) (by simp)

theorem ofElement_eq_text_iff {e : Option (List Char)} : Answer.ofElement e = .text u ↔ e = some u := by
  cases e with
  | none => exact iff_of_false nofun nofun
  | some t => rw [Answer.ofElement, Answer.text.injEq, Option.some_inj]

theorem of_valueAt {length : ℤ} (h : it.valueAt (some p) length = .text [c]) :
    stringElement it.iterated.string (some p) = some [c] ∧
      ((it.charCodeAt (some p)).outside 0xD800 0xDBFF ∨ p + 1 = length ∨
        (it.charCodeAt (some (p + 1))).outside 0xDC00 0xDFFF) := by
  unfold valueAt at h
  dsimp only at h
  split at h
  · next hfirst =>
    exact ⟨ofElement_eq_text_iff.mp h, hfirst.imp_right fun h => .inl (Option.some.inj h)⟩
  split at h
  · next hsecond => exact ⟨ofElement_eq_text_iff.mp h, .inr (.inr hsecond)⟩
  · exact absurd h plus_ne

theorem stringElement_eq_some_iff {string : List Char} :
    stringElement string (some p) = some [c] ↔
      (0 ≤ p ∧ p < utf8Length string) ∧ string[p.toNat]? = some c := by
  rw [stringElement, Option.bind_some]
  split
  · next h =>
    rw [and_iff_right h, Option.map_eq_some_iff]
    constructor
    · rintro ⟨d, hd, hdc⟩
      rw [hd, (List.cons.inj hdc).1]
    · exact fun h => ⟨c, h, rfl⟩
  · next h => exact iff_of_false nofun fun h' => h h'.1

/-! ### The whole -/

theorem take_succ_of_getElem? {k : ℕ} (hk : s.string[k]? = some c) :
    utf8Length (s.string.take (k + 1)) = utf8Length (s.string.take k) + c.utf8Size := by
  rw [List.take_add_one, hk, utf8Length_append]
  rfl

theorem utf8Length_take_lt {k : ℕ} (hk : k < s.string.length) : utf8Length (s.string.take k) < s.len := by
  have hsplit := congrArg utf8Length (List.take_append_drop k s.string)
  rw [utf8Length_append] at hsplit
  have hdrop : 0 < (s.string.drop k).length := by
    rw [List.length_drop]
    omega
  have hpos := utf8Length_pos (List.ne_nil_of_length_pos hdrop)
  unfold JsString.len
  omega

theorem fieldIndex_of_law (h : IteratorLaw s) {k : ℕ} (hk : k ≤ s.string.length) :
    ((new s).after k).fieldIndex = some (utf8Length (s.string.take k) : ℤ) := by
  induction k with
  | zero => rfl
  | succ k ih =>
    have hp := ih (Nat.le_of_succ_le hk)
    have hlt := utf8Length_take_lt hk
    have hiter := iterated_after (new s) k
    have hget := List.getElem?_eq_getElem hk
    have hcall := h k
    rw [hget] at hcall
    have hp0 := Int.natCast_nonneg (utf8Length (s.string.take k))
    have hp1 : (utf8Length (s.string.take k) : ℤ) < ((new s).after k).iterated.len := by
      rw [hiter]
      exact Int.ofNat_lt.mpr hlt
    rw [after, next_of_text hp hp0 hp1 (valueAt_of_next hp hp0 hp1 hcall), take_succ_of_getElem? hget]
    rfl

theorem element_of_law (h : IteratorLaw s) {k : ℕ} (hk : s.string[k]? = some c) :
    s.string[utf8Length (s.string.take k)]? = some c ∧
      (((new s).charCodeAt (some (utf8Length (s.string.take k)))).outside 0xD800 0xDBFF ∨
        utf8Length (s.string.take k) + 1 = s.len ∨
        ((new s).charCodeAt (some (utf8Length (s.string.take k) + 1))).outside 0xDC00 0xDFFF) := by
  have hlt := (List.getElem?_eq_some_iff.mp hk).1
  have hp := fieldIndex_of_law h hlt.le
  have hiter := iterated_after (new s) k
  have hcall := h k
  rw [hk] at hcall
  have hp1 : (utf8Length (s.string.take k) : ℤ) < ((new s).after k).iterated.len := by
    rw [hiter]
    exact Int.ofNat_lt.mpr (utf8Length_take_lt hlt)
  have hvalue := of_valueAt (valueAt_of_next hp (Int.natCast_nonneg _) hp1 hcall)
  rw [charCodeAt, charCodeAt, hiter, stringElement_eq_some_iff] at hvalue
  refine ⟨hvalue.1.2, hvalue.2.imp_right fun hor => hor.imp_left fun heq => ?_⟩
  exact Int.ofNat_inj.mp heq

theorem charCodeAt_of_not (h : ¬ IsPosition s p) : (new s).charCodeAt (some p) = .nan :=
  stringCharCodeAt_of_not h

theorem charCodeAt_append {units units' : List ℕ} {n code : ℕ}
    (hs : utf16 s.string = units ++ code :: units') (hn : units.length = n) (hlt : s.len < 2 ^ 31)
    (hlen : n < s.len) :
    (new s).charCodeAt (some n) = .number code := by
  have hat : (utf16 s.string)[(n : ℤ).toNat]? = some code := by
    rw [hs, Int.toNat_natCast, ← hn, List.getElem?_append_right le_rfl, Nat.sub_self]
    rfl
  change stringCharCodeAt s.string (toI32 n) = _
  rw [stringCharCodeAt_of_isPosition (isPosition_iff.mpr ⟨hlt, by omega⟩), hat]

theorem exact_of_law (h : IteratorLaw s) : IterationExact s := by
  rcases List.eq_nil_or_concat' s.string with hnil | ⟨init, c, hs⟩
  · refine ⟨?_, ?_, ?_⟩
    · rw [JsString.len, hnil]
      decide
    · rw [hnil]
      exact fun c hc => absurd hc List.not_mem_nil
    · rw [hnil]
      rintro _ ⟨⟩
  have hlast : s.string[init.length]? = some c := by rw [hs, List.getElem?_concat_length]
  have hinit : s.string.take init.length = init := by rw [hs, List.take_left]
  obtain ⟨hget, hunits⟩ := element_of_law h hlast
  rw [hinit] at hget hunits
  -- the last read is inside the string only when every character before it is one byte
  have hbytes : utf8Length init = init.length := by
    have hlt := (List.getElem?_eq_some_iff.mp hget).1
    have hle := length_le_utf8Length init
    rw [hs, List.length_append, List.length_singleton] at hlt
    omega
  have hascii := utf8Length_eq_length_iff.mp hbytes
  have hlt : s.len < 2 ^ 31 := by
    by_contra hge
    have hcode : ∀ p, (new s).charCodeAt (some p) = .nan := fun p =>
      charCodeAt_of_not fun hp => hge (isPosition_iff.mp hp).1
    have hpos : 0 < s.string.length := by
      rw [hs, List.length_append, List.length_singleton]
      exact Nat.succ_pos _
    obtain ⟨-, hfirst⟩ := element_of_law h (List.getElem?_eq_getElem hpos)
    rw [hcode, hcode, List.take_zero, utf8Length_nil] at hfirst
    rcases hfirst with hfirst | hfirst | hfirst
    · cases hfirst
    · omega
    · cases hfirst
  refine ⟨hlt, by rwa [hs, List.dropLast_concat], fun d hd => ?_⟩
  rw [hs, List.getLast?_concat] at hd
  obtain rfl := Option.some.inj hd
  by_contra hge
  have hsize : c.utf8Size = 4 := by
    rw [utf8Size_eq, if_neg (by omega), if_neg (by omega), if_neg (by omega)]
  have hlen : s.len = init.length + 4 := by
    rw [JsString.len, hs, utf8Length_append, hbytes, utf8Length_cons, utf8Length_nil, hsize]
  have hcode := charToNat_lt c
  -- the last read is in front of a pair of surrogates
  have hpair : utf16 s.string = utf16 init ++ utf16Char c := by
    rw [hs, utf16_append, utf16_cons, utf16_nil, List.append_nil]
  rw [utf16Char_of_ge (Nat.not_lt.mp hge)] at hpair
  have hunits_init : (utf16 init).length = utf8Length init := length_utf16_eq_utf8Length_iff.mpr hascii
  have hlead := charCodeAt_append hpair hunits_init hlt (by omega)
  have htrail := @charCodeAt_append s _ [] (utf8Length init + 1) _ (by rw [hpair, ← List.append_cons])
    (by rw [List.length_append, hunits_init, List.length_singleton]) hlt (by omega)
  rw [Nat.cast_add, Nat.cast_one] at htrail
  rw [hlead, htrail] at hunits
  simp only [Answer.outside, Bool.or_eq_true, decide_eq_true_eq] at hunits
  omega

/-! ### The other direction -/

theorem char_of_exact (h : IterationExact s) {k : ℕ} (hk : s.string[k]? = some c) :
    IsAscii (s.string.take k) ∧ c.toNat < 0x10000 := by
  obtain ⟨hlt, -⟩ := List.getElem?_eq_some_iff.mp hk
  rcases List.eq_nil_or_concat' s.string with hnil | ⟨init, d, hs⟩
  · rw [hnil] at hlt
    exact absurd hlt (Nat.not_lt_zero k)
  have hascii := h.ascii
  have hunit := h.unit d
  rw [hs, List.dropLast_concat] at hascii
  rw [hs, List.getLast?_concat] at hunit
  rw [hs, List.length_append, List.length_singleton] at hlt
  rw [hs] at hk ⊢
  refine ⟨fun x hx => ?_, ?_⟩
  · rw [List.take_append_of_le_length (by omega)] at hx
    exact hascii x (List.mem_of_mem_take hx)
  · rcases Nat.lt_or_ge k init.length with hinit | hinit
    · rw [List.getElem?_append_left hinit] at hk
      have hone := hascii c (List.mem_of_getElem? hk)
      rw [utf8Size_eq] at hone
      by_contra hge
      rw [if_neg (by omega), if_neg (by omega), if_neg (by omega)] at hone
      omega
    · obtain rfl : k = init.length := by omega
      rw [List.getElem?_concat_length] at hk
      obtain rfl := Option.some.inj hk
      exact hunit rfl

theorem valueAt_of_exact (h : IterationExact s) {k : ℕ} (hk : s.string[k]? = some c)
    (hiter : it.iterated = s) (length : ℤ) : it.valueAt (some k) length = .text [c] := by
  obtain ⟨hascii, hunit⟩ := char_of_exact h hk
  obtain ⟨hlt, hget⟩ := List.getElem?_eq_some_iff.mp hk
  have hsplit : s.string = s.string.take k ++ c :: s.string.drop (k + 1) := by
    rw [← hget, ← List.drop_eq_getElem_cons hlt, List.take_append_drop]
  have hutf16 : utf16 s.string = utf16 (s.string.take k) ++ c.toNat :: utf16 (s.string.drop (k + 1)) := by
    conv_lhs => rw [hsplit, utf16_append, utf16_cons, utf16Char_of_lt hunit]
    rfl
  have hlen : k < s.len := hlt.trans_le s.length_le_len
  have hcode : it.charCodeAt (some k) = .number c.toNat := by
    rw [charCodeAt, hiter]
    refine charCodeAt_append hutf16 ?_ h.len_lt hlen
    rw [length_utf16_of_isAscii hascii, List.length_take, min_eq_left hlt.le]
  have houtside : (it.charCodeAt (some k)).outside 0xD800 0xDBFF = true := by
    have hnot := not_isSurrogate_toNat c
    unfold IsSurrogate at hnot
    rw [hcode]
    simp only [Answer.outside, Bool.or_eq_true, decide_eq_true_eq]
    omega
  have helement : stringElement it.iterated.string (some k) = some [c] := by
    rw [stringElement_eq_some_iff, hiter, Int.toNat_natCast]
    exact ⟨⟨Int.natCast_nonneg k, Int.ofNat_lt.mpr hlen⟩, hk⟩
  unfold valueAt
  dsimp only
  rw [if_pos (.inl houtside), helement]
  rfl

theorem next_of_exact (h : IterationExact s) {k : ℕ} (hk : s.string[k]? = some c) (hiter : it.iterated = s)
    (hp : it.fieldIndex = some (utf8Length (s.string.take k) : ℤ)) : it.next = (.ok (.text [c], false),
      { it with fieldIndex := some (utf8Length (s.string.take (k + 1)) : ℤ) }) := by
  have hlt := (List.getElem?_eq_some_iff.mp hk).1
  have hbytes : utf8Length (s.string.take k) = k := by
    rw [utf8Length_eq_length_iff.mpr (char_of_exact h hk).1, List.length_take, min_eq_left hlt.le]
  have hvalue := valueAt_of_exact h hk hiter it.iterated.len
  rw [take_succ_of_getElem? hk, hbytes]
  rw [hbytes] at hp
  exact next_of_text hp (Int.natCast_nonneg k)
    (by rw [hiter]; exact Int.ofNat_lt.mpr (hlt.trans_le s.length_le_len)) hvalue

theorem fieldIndex_of_exact (h : IterationExact s) {k : ℕ} (hk : k ≤ s.string.length) :
    ((new s).after k).fieldIndex = some (utf8Length (s.string.take k) : ℤ) := by
  induction k with
  | zero => rfl
  | succ k ih =>
    have hp := ih (Nat.le_of_succ_le hk)
    rw [after, next_of_exact h (List.getElem?_eq_getElem hk) (iterated_after _ _) hp]

theorem law_of_exact (h : IterationExact s) : IteratorLaw s := by
  intro n
  cases hn : s.string[n]? with
  | some c =>
    have hlt := (List.getElem?_eq_some_iff.mp hn).1
    rw [next_of_exact h hn (iterated_after _ _) (fieldIndex_of_exact h hlt.le)]
  | none =>
    have hle := List.getElem?_eq_none_iff.mp hn
    obtain ⟨m, rfl⟩ := Nat.exists_eq_add_of_le hle
    clear hn hle
    induction m with
    | zero =>
      have hp := fieldIndex_of_exact h le_rfl
      rw [List.take_length] at hp
      rw [Nat.add_zero, next_of_len_le hp (by rw [iterated_after]; exact le_rfl)]
    | succ m ih =>
      have hdone := next_done ih 0
      exact hdone

end

end StringIterator

/-- **The iterator of a string.** -/
theorem iteratorLaw_iff (s : JsString) : IteratorLaw s ↔ IterationExact s :=
  ⟨StringIterator.exact_of_law, StringIterator.law_of_exact⟩

/-- The second call for `"éa"` reads `string[2]`, which is `undefined`. -/
theorem not_iteratorLaw : ¬ IteratorLaw ⟨['é', 'a'], by decide⟩ := by
  intro h
  have hascii := (StringIterator.exact_of_law h).ascii
  exact absurd (hascii 'é' List.mem_cons_self) (by decide)

end Starlight
