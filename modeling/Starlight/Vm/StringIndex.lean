import Starlight.Vm.OwnKeys

/-!
# Indexing strings

A string value answers `length` and the indices below its length itself, and sends every other lookup to
the prototype of strings. The operations that need an object (`hasOwnProperty`, the descriptors, the
names) wrap it in a fresh string object first, which answers the same keys by code of its own. The length
is counted in bytes throughout and the elements are taken by position among the characters, so that all of
this fits together for the texts in which each character is one byte.
-/

namespace Starlight

open JsObject World Exec

variable {w w' : World} {o i : ℕ} {text : String}

/-- `JsValue::get_slot` of a string value, up to the prototype: what the string answers itself. The base
that it notes in the slot is the string, which is no object. -/
def stringOwn (text : String) (name : Symbol) : Vm (Option JsValue) :=
  if name = Symbol.length then pure (some (JsValue.newU32 text.utf8ByteSize))
  else match name with
    | .index i =>
      if i < text.utf8ByteSize then
        match text.toList[i]? with
        | some ch => do return some (← Vm.newString (String.singleton ch))
        | none => pure (some .undefined)
      else pure none
    | _ => pure none

def stringGetSlot (cell : ℕ) (text : String) (proto : ℕ) (name : Symbol) (slot : Slot) :
    Vm JsValue := do
  match ← stringOwn text name with
  | some v => return v
  | none =>
    let (found, slot) ← getPropertySlot proto name slot
    if found then slot.stored.get (.string cell text) else return .undefined

/-- The names that `NativeIterator::new` collects for a string. -/
def stringNames (text : String) : List Symbol := (List.range text.utf8ByteSize).map Symbol.index

def hasOwnProperty (o : ℕ) (name : Symbol) : Vm Bool := do
  let (found, _) ← getOwnPropertySlot o name Slot.new
  return found

def structureNames (w : World) (s : ℕ) : TargetTable := (w.shapes.allocateTableIfNeeded s).2.tableOf s

/-- A string object to which nothing was added. -/
structure FreshString (w : World) (o : ℕ) (text : String) : Prop where
  class_ : (w.objects o).class_ = .string text
  indexed : (w.objects o).indexed = .new
  named : ∀ i, .index i ∉ structureNames w (w.objects o).structure_

/-! ### What indexing should do -/

/-- The code returns the character as a string. -/
def Yields (x : Vm JsValue) (w : World) (ch : Char) : Prop :=
  ∃ cell w', x w = .ok (.string cell (String.singleton ch)) w'

/-- The code returns the number. -/
def Reports (x : Vm JsValue) (w : World) (n : ℕ) : Prop :=
  ∃ v w', x w = .ok v w' ∧ v.denote = .number (F64.ofInt n)

/-- Every way to look up an index finds the same string of one unit. -/
def InRange (w : World) (o cell proto : ℕ) (strict : ℕ → Bool) (text : String) (i : ℕ) : Prop :=
  ∃ ch : Char, (String.singleton ch).utf8ByteSize = 1 ∧
    Yields (getSlot o (.index i) strict Slot.new) w ch ∧
    Yields (stringGetSlot cell text proto (.index i) Slot.new) w ch ∧
    (∃ w', hasOwnProperty o (.index i) w = .ok true w') ∧
    ∃ c w', getOwnProperty o (.index i) w = .ok (some (.dataDescriptor
      (.string c (String.singleton ch)) stringIndexed.toExternal)) w'

/-- No way to look up an index finds a character. -/
structure OutOfRange (w : World) (o : ℕ) (text : String) (i : ℕ) : Prop where
  lookup : ∀ slot, getOwnIndexedPropertySlot o i slot w = .ok (false, slot) w
  primitive : stringOwn text (.index i) w = .ok none w
  hasOwn : hasOwnProperty o (.index i) w = .ok false w
  described : getOwnProperty o (.index i) w = .ok none w

/-- The object and the string report one length, and the indices below it are those that are found and
listed. -/
def IndexingConsistent (w : World) (o cell proto : ℕ) (strict : ℕ → Bool) (text : String) : Prop :=
  ∃ n, Reports (getSlot o Symbol.length strict Slot.new) w n ∧
    Reports (stringGetSlot cell text proto Symbol.length Slot.new) w n ∧
    (∀ i, i < 2 ^ 32 → if i < n then InRange w o cell proto strict text i else OutOfRange w o text i) ∧
    (∀ all, ∃ names w', getOwnPropertyNames o all w = .ok names w' ∧
      ∀ i, i < 2 ^ 32 → (.index i ∈ names ↔ i < n)) ∧
    ∀ i, i < 2 ^ 32 → (.index i ∈ stringNames text ↔ i < n)

/-! ### Characters and bytes -/

theorem utf8ByteSize_ofList (l : List Char) :
    (String.ofList l).utf8ByteSize = (l.map Char.utf8Size).sum := by
  induction l with
  | nil => simp
  | cons c l ih =>
    rw [String.ofList_cons, String.utf8ByteSize_append, ih, String.utf8ByteSize_singleton]
    simp

theorem length_le_utf8ByteSize (text : String) : text.toList.length ≤ text.utf8ByteSize := by
  have hsize : text.utf8ByteSize = (text.toList.map Char.utf8Size).sum := by
    rw [← utf8ByteSize_ofList, String.ofList_toList]
  rw [hsize, ← List.length_map Char.utf8Size]
  refine List.length_le_sum_of_one_le _ fun n hn => ?_
  obtain ⟨c, -, rfl⟩ := List.mem_map.mp hn
  exact Char.utf8Size_pos c

/-- Every character of the text is one byte. -/
def Ascii (text : String) : Prop := ∀ c ∈ text.toList, c.val ≤ 127

theorem Ascii.utf8ByteSize (h : Ascii text) : text.utf8ByteSize = text.toList.length := by
  have hones : text.toList.map Char.utf8Size = List.replicate text.toList.length 1 := by
    rw [List.eq_replicate_iff]
    refine ⟨List.length_map _, fun n hn => ?_⟩
    obtain ⟨c, hc, rfl⟩ := List.mem_map.mp hn
    exact Char.utf8Size_eq_one_iff.mpr (h c hc)
  rw [← String.ofList_toList (s := text), utf8ByteSize_ofList, String.ofList_toList, hones]
  simp

/-! ### Lookups -/

theorem getOwnIndexedPropertySlot_of_char (hc : (w.objects o).class_ = .string text)
    (hi : i < text.utf8ByteSize) {ch : Char} (hch : text.toList[i]? = some ch) (slot : Slot) :
    ∃ c w', getOwnIndexedPropertySlot o i slot w =
      .ok (true, slot.set (.string c (String.singleton ch)) stringIndexed) w' ∧
      w'.objects = w.objects := by
  unfold getOwnIndexedPropertySlot
  rw [Vm.object_bind, hc]
  dsimp only
  rw [if_pos hi, hch]
  exact ⟨_, _, rfl, rfl⟩

theorem inRange_of_char (hc : (w.objects o).class_ = .string text) (hi : i < text.utf8ByteSize)
    {ch : Char} (hch : text.toList[i]? = some ch) (hunit : ch.val ≤ 127) (cell proto : ℕ)
    (strict : ℕ → Bool) : InRange w o cell proto strict text i := by
  obtain ⟨c, w', hown, hobj⟩ := getOwnIndexedPropertySlot_of_char hc hi hch Slot.new
  refine ⟨ch, ?_, ⟨c, w', ?_⟩, ?_, ⟨w', Exec.bind_of_ok hown _⟩, ⟨c, w', Exec.bind_of_ok hown _⟩⟩
  · rw [String.utf8ByteSize_singleton]
    exact Char.utf8Size_eq_one_iff.mpr hunit
  · have hlook : getPropertySlot o (.index i) Slot.new w =
        .ok (true, Slot.new.set (.string c (String.singleton ch)) stringIndexed) w' :=
      Exec.bind_of_ok hown _
    have hvalue : slotValue o true (Slot.new.set (.string c (String.singleton ch)) stringIndexed) w' =
        .ok (.string c (String.singleton ch)) w' := rfl
    unfold getSlot
    rw [bind_of_ok hlook]
    dsimp only
    rw [bind_of_ok hvalue, Vm.object_bind, hobj, hc]
    rfl
  · have hown : stringOwn text (.index i) w = .ok (some (.string w.nextString (String.singleton ch)))
        { w with nextString := w.nextString + 1 } := by
      unfold stringOwn
      rw [if_neg (by simp [Symbol.length])]
      dsimp only
      rw [if_pos hi, hch]
      rfl
    exact ⟨_, _, Exec.bind_of_ok hown _⟩

theorem outOfRange_of_le (hf : FreshString w o text) (hi : text.utf8ByteSize ≤ i) :
    OutOfRange w o text i := by
  have hout : ¬ (w.objects o).InText i := by
    rintro ⟨text', hc, hlt⟩
    rw [hf.class_] at hc
    cases hc
    omega
  have hlook : ∀ slot, getOwnIndexedPropertySlot o i slot w = .ok (false, slot) w := by
    intro slot
    rw [getOwnIndexedPropertySlot_of_not_inText hout, getOwnIndexedPropertySlotMethod_eq, hf.indexed]
    rfl
  refine ⟨hlook, ?_, Exec.bind_of_ok (hlook _) _, Exec.bind_of_ok (hlook _) _⟩
  unfold stringOwn
  rw [if_neg (by simp [Symbol.length])]
  dsimp only
  rw [if_neg (by omega)]
  rfl

theorem char_of_yields (hi : i < text.utf8ByteSize) {cell proto : ℕ} {ch : Char}
    (h : Yields (stringGetSlot cell text proto (.index i) Slot.new) w ch) :
    text.toList[i]? = some ch := by
  obtain ⟨c, w', hrun⟩ := h
  obtain ⟨own, w₁, hown, hrun⟩ := bind_eq_ok hrun
  unfold stringOwn at hown
  rw [if_neg (by simp [Symbol.length])] at hown
  dsimp only at hown
  rw [if_pos hi] at hown
  cases hch : text.toList[i]? with
  | none =>
    rw [hch] at hown
    cases hown
    cases hrun
  | some ch' =>
    rw [hch] at hown
    cases hown
    have hval : String.singleton ch' = String.singleton ch := by
      injection hrun with hv
      injection hv
    rw [(String.singleton_inj.mp hval)]

/-! ### The reported lengths -/

theorem reports_object_iff (hc : (w.objects o).class_ = .string text) (strict : ℕ → Bool) (n : ℕ) :
    Reports (getSlot o Symbol.length strict Slot.new) w n ↔ text.utf8ByteSize = n := by
  have hrun : getSlot o Symbol.length strict Slot.new w = .ok (JsValue.newF64 text.utf8ByteSize) w := by
    have hown : getOwnNonIndexedPropertySlot o Symbol.length Slot.new w =
        .ok (true, Slot.new.set (JsValue.newF64 text.utf8ByteSize) stringLength) w := by
      unfold getOwnNonIndexedPropertySlot
      rw [Vm.object_bind, hc]
      dsimp only
      rw [if_pos rfl]
      rfl
    have hlook : getPropertySlot o Symbol.length Slot.new w =
        .ok (true, Slot.new.set (JsValue.newF64 text.utf8ByteSize) stringLength) w :=
      Exec.bind_of_ok hown _
    have hvalue : slotValue o true (Slot.new.set (JsValue.newF64 text.utf8ByteSize) stringLength) w =
        .ok (JsValue.newF64 text.utf8ByteSize) w := rfl
    unfold getSlot
    rw [bind_of_ok hlook]
    dsimp only
    rw [bind_of_ok hvalue, Vm.object_bind, hc]
    rfl
  unfold Reports
  rw [hrun]
  constructor
  · rintro ⟨v, w', heq, hden⟩
    cases heq
    simpa [JsValue.denote, JsValue.newF64, F64.ofInt] using hden
  · rintro rfl
    exact ⟨_, _, rfl, rfl⟩

theorem reports_primitive_iff (hlen : text.utf8ByteSize < 2 ^ 32) (cell proto : ℕ) :
    Reports (stringGetSlot cell text proto Symbol.length Slot.new) w text.utf8ByteSize ↔
      text.utf8ByteSize < 2 ^ 31 := by
  have hrun : stringGetSlot cell text proto Symbol.length Slot.new w =
      .ok (JsValue.newU32 text.utf8ByteSize) w := rfl
  unfold Reports
  rw [hrun]
  constructor
  · rintro ⟨v, w', heq, hden⟩
    cases heq
    by_contra hge
    have hnat : (BitVec.ofNat 32 text.utf8ByteSize).toNat = text.utf8ByteSize := by
      rw [BitVec.toNat_ofNat, Nat.mod_eq_of_lt hlen]
    have hneg : (BitVec.ofNat 32 text.utf8ByteSize).toInt < 0 := by
      rw [BitVec.toInt_eq_toNat_cond, hnat, if_neg (by omega)]
      omega
    have heq : (BitVec.ofNat 32 text.utf8ByteSize).toInt = (text.utf8ByteSize : ℤ) := by
      simp only [JsValue.denote, JsValue.newU32, F64.ofInt, JsValue.Denotation.number.injEq,
        F64.fin.injEq] at hden
      exact_mod_cast hden
    omega
  · intro hlt
    exact ⟨_, _, rfl, JsValue.denote_newU32 hlt⟩

/-! ### The names -/

theorem index_mem_stringNames : .index i ∈ stringNames text ↔ i < text.utf8ByteSize := by
  simp [stringNames]

theorem getOwnPropertyNames_fresh (hf : FreshString w o text) (hl : w.hashOrder.Lawful) (all : Bool) :
    ∃ names w', getOwnPropertyNames o all w = .ok names w' ∧
      ∀ i, .index i ∈ names ↔ i < text.utf8ByteSize := by
  unfold getOwnPropertyNames
  rw [Vm.object_bind, Exec.gets_bind]
  unfold Vm.shapes
  rw [Exec.update_bind, Exec.gets_bind]
  refine ⟨_, _, rfl, fun i => ?_⟩
  have hnamed := hf.named i
  unfold structureNames at hnamed
  rw [hf.class_, hf.indexed]
  simp only [List.mem_append]
  constructor
  · rintro (((h | h) | h) | h)
    · rcases h with h | h
      · cases all <;> simp [Symbol.length] at h
      · simpa using h
    · simp [IndexedElements.new] at h
    · simp [IndexedElements.new] at h
    · split at h
      · exact absurd ((hl.mem_names _ _).mp (List.mem_of_mem_filter h)) hnamed
      · cases h
  · intro hi
    exact .inl (.inl (.inl (.inr (by simpa using hi))))

/-! ### The whole -/

theorem IndexingConsistent.ascii {cell proto : ℕ} {strict : ℕ → Bool}
    (h : IndexingConsistent w o cell proto strict text) (hc : (w.objects o).class_ = .string text)
    (hlen : text.utf8ByteSize < 2 ^ 32) : Ascii text ∧ text.utf8ByteSize < 2 ^ 31 := by
  obtain ⟨n, hobj, hprim, hindex, -, -⟩ := h
  obtain rfl := (reports_object_iff hc strict n).mp hobj
  refine ⟨fun c hc => ?_, (reports_primitive_iff hlen cell proto).mp hprim⟩
  have hchar : ∀ i, i < text.utf8ByteSize → ∃ ch : Char, ch.val ≤ 127 ∧ text.toList[i]? = some ch := by
    intro i hi
    have hin := hindex i (by omega)
    rw [if_pos hi] at hin
    obtain ⟨ch, hunit, -, hyields, -⟩ := hin
    rw [String.utf8ByteSize_singleton] at hunit
    exact ⟨ch, Char.utf8Size_eq_one_iff.mp hunit, char_of_yields hi hyields⟩
  obtain ⟨i, hi⟩ := List.mem_iff_getElem?.mp hc
  have hlt : i < text.utf8ByteSize := by
    obtain ⟨hlt, -⟩ := List.getElem?_eq_some_iff.mp hi
    exact lt_of_lt_of_le hlt (length_le_utf8ByteSize text)
  obtain ⟨ch, hval, hch⟩ := hchar i hlt
  rw [hi] at hch
  cases hch
  exact hval

theorem Ascii.indexingConsistent (hascii : Ascii text) (hlt : text.utf8ByteSize < 2 ^ 31)
    (hl : w.hashOrder.Lawful) (hf : FreshString w o text) (cell proto : ℕ) (strict : ℕ → Bool) :
    IndexingConsistent w o cell proto strict text := by
  refine ⟨text.utf8ByteSize, (reports_object_iff hf.class_ strict _).mpr rfl,
    (reports_primitive_iff (by omega) cell proto).mpr hlt, fun i _ => ?_, fun all => ?_,
    fun i _ => index_mem_stringNames⟩
  · split
    · next hi =>
      have hi' : i < text.toList.length := hascii.utf8ByteSize ▸ hi
      exact inRange_of_char hf.class_ hi (List.getElem?_eq_getElem hi')
        (hascii _ (List.getElem_mem hi')) cell proto strict
    · next hi => exact outOfRange_of_le hf (by omega)
  · obtain ⟨names, w', hrun, hmem⟩ := getOwnPropertyNames_fresh hf hl all
    exact ⟨names, w', hrun, fun i _ => hmem i⟩

/-- **Indexing a string** is consistent just when every character is one byte and the length is a signed
number of 32 bits. -/
theorem string_index_exact (hl : w.hashOrder.Lawful) (hf : FreshString w o text)
    (hlen : text.utf8ByteSize < 2 ^ 32) (cell proto : ℕ) (strict : ℕ → Bool) :
    IndexingConsistent w o cell proto strict text ↔ Ascii text ∧ text.utf8ByteSize < 2 ^ 31 :=
  ⟨fun h => h.ascii hf.class_ hlen, fun ⟨hascii, hlt⟩ => hascii.indexingConsistent hlt hl hf cell proto strict⟩

theorem freshString_loneWorld (text : String) : FreshString (loneWorld (.string text)) 0 text :=
  ⟨rfl, rfl, fun _ hi => Finmap.notMem_empty hi⟩

theorem string_index_exact_loneWorld :
    IndexingConsistent (loneWorld (.string "abc")) 0 0 0 (fun _ => false) "abc" ↔
      Ascii "abc" ∧ "abc".utf8ByteSize < 2 ^ 31 :=
  string_index_exact lawful_someOrder (freshString_loneWorld "abc") (by decide) 0 0 fun _ => false

/-- A character of two bytes has a second position and no second character. -/
theorem not_string_index_exact :
    ¬ ∀ w o text, w.hashOrder.Lawful → FreshString w o text → text.utf8ByteSize < 2 ^ 32 →
      ∀ cell proto strict, IndexingConsistent w o cell proto strict text := by
  intro h
  have hcons := h _ 0 "é" lawful_someOrder (freshString_loneWorld "é") (by decide) 0 0 fun _ => false
  obtain ⟨hascii, -⟩ := hcons.ascii rfl (by decide)
  exact absurd (hascii 'é' (by decide)) (by decide)

end Starlight
