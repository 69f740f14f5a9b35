import Starlight.Lib.HashTable
import Starlight.Vm.Boxed

/-!
# The keys of `Map` and `Set`

`JsMap` is a hash table whose keys are compared by `same_value_zero` and hashed by kind: an int32 by its
four bytes, a double by the eight bytes of its bits, a string by its text, everything else by its word.
The zeros are hashed as the int32 `0`, and the NaNs alike.

The comparison is SameValueZero. A number other than zero that is once an int32 and once a double is hashed
in two ways, though; whether its entry is found then depends on the layout of the table.
-/

namespace Starlight

namespace JsValue

def sameValueZero (lhs rhs : JsValue) : Bool := sameValue lhs rhs

def SameValueZero (v w : JsValue) : Prop :=
  v.denote = w.denote ∨ v.isZero = true ∧ w.isZero = true

theorem isZero_congr {v w : JsValue} (h : v.denote = w.denote) : v.isZero = w.isZero := by
  rw [isZero, isZero, h]

theorem SameValueZero.equivalence : Equivalence SameValueZero where
  refl _ := .inl rfl
  symm h := h.imp Eq.symm And.symm
  trans {u v w} := by
    rintro (h | ⟨hu, hv⟩) (h' | ⟨hv', hw⟩)
    · exact .inl (h.trans h')
    · exact .inr ⟨(isZero_congr h).trans hv', hw⟩
    · exact .inr ⟨hu, (isZero_congr h').symm.trans hv⟩
    · exact .inr ⟨hu, hw⟩

theorem sameValue_number {v w : JsValue} (hv : v.isNumber = true) (hw : w.isNumber = true) :
    sameValue v w = (v.getNumber.eq w.getNumber || v.getNumber.isNan && w.getNumber.isNan) := by
  unfold sameValue
  rw [if_pos hv, hw, Bool.not_true, if_neg Bool.false_ne_true]
  cases v.getNumber.eq w.getNumber <;> rfl

theorem denote_number {v : JsValue} (hv : v.isNumber = true) : v.denote = .number v.getNumber := by
  cases v <;> first | rfl | cases hv

theorem number_of_denote {v : JsValue} {d : F64} (h : v.denote = .number d) :
    v.isNumber = true ∧ v.getNumber = d := by
  cases v <;> cases h <;> exact ⟨rfl, rfl⟩

theorem sameValue_of_denote_eq {v w : JsValue} (h : v.denote = w.denote) : sameValue v w = true := by
  cases hv : v.isNumber with
  | true =>
    obtain ⟨hw, hnum⟩ := number_of_denote (h.symm.trans (denote_number hv))
    rw [sameValue_number hv hw, hnum]
    cases v.getNumber <;> simp [F64.eq, F64.isNan]
  | false =>
    cases v with
    | int32 i => cases hv
    | double d => cases hv
    | string c s =>
      cases w <;> cases h
      simp [sameValue, isNumber, isObject]
    | _ =>
      cases w <;> cases h
      exact sameValue_self _

theorem isZero_iff {v : JsValue} :
    v.isZero = true ↔ v.denote = .number .negZero ∨ v.denote = .number (.fin 0) := by
  rw [isZero, Bool.or_eq_true, decide_eq_true_iff, decide_eq_true_iff]

theorem sameValueZero_iff {v w : JsValue} : sameValueZero v w = true ↔ SameValueZero v w := by
  constructor
  · intro h
    by_cases hz : v.isZero = true ∧ w.isZero = true
    · exact .inr hz
    · exact .inl (denote_eq_of_sameValue h hz)
  · rintro (h | ⟨hv, hw⟩)
    · exact sameValue_of_denote_eq h
    · have hnum : ∀ u : JsValue, u.isZero = true →
          u.isNumber = true ∧ (u.getNumber = .negZero ∨ u.getNumber = .fin 0) := by
        intro u hu
        rcases isZero_iff.mp hu with h | h
        · exact ⟨(number_of_denote h).1, .inl (number_of_denote h).2⟩
        · exact ⟨(number_of_denote h).1, .inr (number_of_denote h).2⟩
      obtain ⟨hvn, hv⟩ := hnum v hv
      obtain ⟨hwn, hw⟩ := hnum w hw
      rw [sameValueZero, sameValue_number hvn hwn]
      rcases hv with hv | hv <;> rcases hw with hw | hw <;> rw [hv, hw] <;> rfl

/-! ### Hashes -/

/-- The lowest bytes of a word, as a hasher gets them. -/
def leBytes (n : ℕ) {w : ℕ} (x : BitVec w) : List UInt8 :=
  (List.range n).map fun i => ⟨x.extractLsb' (8 * i) 8⟩

def hashBytes (a : CellAddresses) : JsValue → List UInt8
  | int32 i => leBytes 4 i
  | double d =>
    if d.isNan then leBytes 8 Boxed.pureNan
    else if d.isZero then leBytes 4 0#32
    else leBytes 8 d.toBits
  | string _ s => s.toUTF8.data.toList ++ [0xff]
  | v => leBytes 8 (v.boxed a).asInt64

/-- The values are one number other than zero, once as an int32 and once as a double. -/
def MixedEncoding (v w : JsValue) : Prop :=
  ∃ i : BitVec 32, i ≠ 0 ∧ (v = int32 i ∧ w = double (F64.ofInt i.toInt) ∨
    v = double (F64.ofInt i.toInt) ∧ w = int32 i)

theorem MixedEncoding.symm {v w : JsValue} : MixedEncoding v w → MixedEncoding w v :=
  fun ⟨i, hi, h⟩ => ⟨i, hi, h.symm.imp And.symm And.symm⟩

theorem length_leBytes (n : ℕ) {w : ℕ} (x : BitVec w) : (leBytes n x).length = n := by
  rw [leBytes, List.length_map, List.length_range]

section

variable {a : CellAddresses} {i : BitVec 32} {d : F64}

theorem hashBytes_int32_eq_double (h : (F64.ofInt i.toInt).eq d = true) :
    (int32 i).hashBytes a = (double d).hashBytes a ↔ i = 0 := by
  have hnan : d.isNan = false := by
    cases d <;> first | rfl | cases h
  have hzero : d.isZero = true ↔ i = 0 := by
    have hcast : ((i.toInt : ℤ) : ℚ) = 0 ↔ i = 0 := by
      rw [Int.cast_eq_zero, ← BitVec.toInt_zero (w := 32), BitVec.toInt_inj]
      exact Iff.rfl
    cases d with
    | negZero => exact iff_of_true rfl (hcast.mp (of_decide_eq_true h))
    | fin q =>
      obtain rfl := F64.fin.inj (of_decide_eq_true h)
      exact decide_eq_true_iff.trans hcast
    | _ => cases h
  -- four bytes for an int32, and eight for a double that is not zero
  change leBytes 4 i = (if d.isNan then _ else if d.isZero then _ else _) ↔ _
  rw [hnan, if_neg Bool.false_ne_true]
  by_cases hi : i = 0
  · rw [if_pos (hzero.mpr hi), hi]
    exact iff_of_true rfl rfl
  · rw [if_neg (mt hzero.mp hi)]
    refine iff_of_false (fun hb => ?_) hi
    have hlen := congrArg List.length hb
    rw [length_leBytes, length_leBytes] at hlen
    cases hlen

theorem mixedEncoding_int32_double (h : (F64.ofInt i.toInt).eq d = true) :
    MixedEncoding (int32 i) (double d) ↔ i ≠ 0 := by
  constructor
  · rintro ⟨j, hj, ⟨hij, -⟩ | ⟨hij, -⟩⟩
    · rwa [int32.inj hij]
    · cases hij
  · intro hi
    refine ⟨i, hi, .inl ⟨rfl, ?_⟩⟩
    cases d with
    | negZero =>
      have hzero : ((i.toInt : ℤ) : ℚ) = 0 := of_decide_eq_true h
      rw [Int.cast_eq_zero, ← BitVec.toInt_zero (w := 32), BitVec.toInt_inj] at hzero
      exact absurd hzero hi
    | fin q => exact congrArg double (of_decide_eq_true h).symm
    | _ => cases h

theorem hashBytes_double_of_eq {d' : F64} (h : d.eq d' = true) :
    (double d).hashBytes a = (double d').hashBytes a := by
  have hcases : d = d' ∨ d.isNan = false ∧ d'.isNan = false ∧ d.isZero = true ∧ d'.isZero = true := by
    cases d with
    | nan => cases h
    | negZero =>
      cases d' with
      | negZero => exact .inl rfl
      | fin q => exact .inr ⟨rfl, rfl, rfl, h⟩
      | _ => cases h
    | fin q =>
      cases d' with
      | negZero => exact .inr ⟨rfl, rfl, h, rfl⟩
      | fin q' => exact .inl (of_decide_eq_true h)
      | _ => cases h
    | _ => cases d' <;> first | exact .inl rfl | cases h
  rcases hcases with rfl | ⟨hn, hn', hz, hz'⟩
  · rfl
  · simp only [hashBytes, hn, hn', hz, hz', if_true, if_false, Bool.false_eq_true]

end

theorem not_mixedEncoding_of_eq {v w : JsValue} (h : (∀ i, v ≠ int32 i) ∧ (∀ i, w ≠ int32 i)) :
    ¬ MixedEncoding v w := by
  rintro ⟨i, -, ⟨hv, -⟩ | ⟨-, hw⟩⟩
  · exact h.1 i hv
  · exact h.2 i hw

/-- **Hashes of equal keys.** They are equal, but for the two encodings of a number other than zero. -/
theorem hashBytes_eq_iff (a : CellAddresses) {v w : JsValue} (h : sameValueZero v w = true) :
    v.hashBytes a = w.hashBytes a ↔ ¬ MixedEncoding v w := by
  cases hv : v.isNumber with
  | true =>
    have hw : w.isNumber = true := by
      by_contra hw
      simp [sameValueZero, sameValue, hv, hw] at h
    rw [sameValueZero, sameValue_number hv hw, Bool.or_eq_true, Bool.and_eq_true] at h
    cases v with
    | int32 i =>
      have h : (F64.ofInt i.toInt).eq w.getNumber = true := h.resolve_right fun hn => Bool.false_ne_true hn.1
      cases w with
      | int32 j =>
        have hij : i = j := by
          have hcast : ((i.toInt : ℤ) : ℚ) = j.toInt := F64.fin.inj (of_decide_eq_true h)
          exact BitVec.toInt_inj.mp (Int.cast_injective hcast)
        refine iff_of_true (by rw [hij]) ?_
        rintro ⟨k, -, ⟨-, hd⟩ | ⟨hd, -⟩⟩ <;> cases hd
      | double d =>
        have h : (F64.ofInt i.toInt).eq d = true := h
        rw [hashBytes_int32_eq_double h, mixedEncoding_int32_double h, not_not]
      | _ => cases hw
    | double d =>
      cases w with
      | int32 j =>
        have h : (F64.ofInt j.toInt).eq d = true := by
          rw [F64.eq_comm]
          exact h.resolve_right fun hn => Bool.false_ne_true hn.2
        rw [eq_comm, hashBytes_int32_eq_double h]
        refine not_iff_not.mp ?_
        rw [not_not, ← ne_eq, ← mixedEncoding_int32_double h]
        exact ⟨MixedEncoding.symm, MixedEncoding.symm⟩
      | double d' =>
        refine iff_of_true ?_ (not_mixedEncoding_of_eq ⟨by rintro _ ⟨⟩, by rintro _ ⟨⟩⟩)
        have h : d.eq d' = true ∨ d.isNan = true ∧ d'.isNan = true := h
        rcases h with h | ⟨hn, hn'⟩
        · exact hashBytes_double_of_eq h
        · rw [hashBytes, hashBytes, if_pos hn, if_pos hn']
      | _ => cases hw
    | _ => cases hv
  | false =>
    have hw : w.isNumber = false := by
      by_contra hw
      rw [sameValueZero, sameValue_comm] at h
      simp [sameValue, hv, hw] at h
    have hmixed : ¬ MixedEncoding v w := by
      refine not_mixedEncoding_of_eq ⟨?_, ?_⟩ <;> rintro i rfl
      · cases hv
      · cases hw
    refine iff_of_true ?_ hmixed
    -- values that are no numbers are equal only if they are one value, or two cells of one text
    have hden : v.denote = w.denote := by
      refine (sameValueZero_iff.mp h).resolve_right fun hz => ?_
      rcases isZero_iff.mp hz.1 with hd | hd <;> rw [(number_of_denote hd).1] at hv <;> cases hv
    cases v <;> cases w <;> first | (cases hden <;> rfl) | cases hv

end JsValue

structure HashValueZero where
  val : JsValue
deriving DecidableEq

namespace HashValueZero

instance : BEq HashValueZero := ⟨fun k k' => k.val.sameValueZero k'.val⟩

theorem beq_iff {k k' : HashValueZero} : (k == k') = true ↔ JsValue.SameValueZero k.val k'.val :=
  JsValue.sameValueZero_iff

instance : EquivBEq HashValueZero where
  rfl := beq_iff.mpr (JsValue.SameValueZero.equivalence.refl _)
  symm h := beq_iff.mpr (JsValue.SameValueZero.equivalence.symm (beq_iff.mp h))
  trans h h' := beq_iff.mpr (JsValue.SameValueZero.equivalence.trans (beq_iff.mp h) (beq_iff.mp h'))

def hash (hasher : List UInt8 → ℕ) (a : CellAddresses) (k : HashValueZero) : ℕ :=
  hasher (k.val.hashBytes a)

end HashValueZero

/-! ### Maps -/

abbrev MapInternal := List (HashValueZero × JsValue)

structure JsMap where
  storage : MapInternal

inductive MapCall where
  | has (key : JsValue)
  | get (key : JsValue)
  | set (key val : JsValue)
  | clear
  | delete (key : JsValue)

/-- What a call returns. -/
inductive MapReply where
  | flag (b : Bool)
  | value (v : JsValue)
  | old (v : Option JsValue)
  | none
deriving DecidableEq

namespace JsMap

variable {hasher : List UInt8 → ℕ} {a : CellAddresses}

def empty : JsMap := ⟨[]⟩

section

variable (m : JsMap) (s : Search HashValueZero JsValue (HashValueZero.hash hasher a)) (key val : JsValue)

def has : Bool := s.containsKey m.storage ⟨key⟩

def get : JsValue := (s.get m.storage ⟨key⟩).getD .undefined

def set : Option JsValue × JsMap := (s.insert m.storage ⟨key⟩ val).map id JsMap.mk

def clear : JsMap → JsMap := fun _ => ⟨[]⟩

def delete : Option JsValue × JsMap := (s.remove m.storage ⟨key⟩).map id JsMap.mk

/-- A call, with the walk that the table takes for it. -/
def call : MapCall → MapReply × JsMap
  | .has key => (.flag (m.has s key), m)
  | .get key => (.value (m.get s key), m)
  | .set key val => (m.set s key val).map .old id
  | .clear => (.none, m.clear)
  | .delete key => (m.delete s key).map .old id

end

def run (m : JsMap) :
    List (Search HashValueZero JsValue (HashValueZero.hash hasher a) × MapCall) → List MapReply × JsMap
  | [] => ([], m)
  | (s, c) :: calls =>
    let (reply, m) := m.call s c
    (run m calls).map (reply :: ·) id

end JsMap

def KeyMap.call (m : KeyMap HashValueZero JsValue) : MapCall → MapReply × KeyMap HashValueZero JsValue
  | .has key => (.flag (m.find ⟨key⟩).isSome, m)
  | .get key => (.value ((m.find ⟨key⟩).getD .undefined), m)
  | .set key val => (.old (m.find ⟨key⟩), m.set ⟨key⟩ val)
  | .clear => (.none, .empty)
  | .delete key => (.old (m.find ⟨key⟩), m.delete ⟨key⟩)

def KeyMap.run (m : KeyMap HashValueZero JsValue) :
    List MapCall → List MapReply × KeyMap HashValueZero JsValue
  | [] => ([], m)
  | c :: calls =>
    let (reply, m) := m.call c
    (run m calls).map (reply :: ·) id

def MapCall.key : MapCall → Option JsValue
  | has key | get key | set key _ | delete key => some key
  | clear => none

/-- The keys of the entries are different, and are among those that a program uses. -/
structure MapInternal.Formed (K : JsValue → Prop) (storage : MapInternal) : Prop where
  distinct : DistinctKeys storage
  used : ∀ e ∈ storage, K e.1.val

section

variable {hasher : List UInt8 → ℕ} {a : CellAddresses} {K : JsValue → Prop}
  {s : Search HashValueZero JsValue (HashValueZero.hash hasher a)} {m : JsMap}

theorem call_spec (hkeys : ∀ v w, K v → K w → ¬ v.MixedEncoding w)
    (hm : MapInternal.Formed K m.storage) (c : MapCall) (hc : ∀ key ∈ c.key, K key) :
    MapInternal.Formed K (m.call s c).2.storage ∧
      (contents m.storage).call c = ((m.call s c).1, contents (m.call s c).2.storage) := by
  have hhash : ∀ key, K key → ∀ e ∈ m.storage, ((⟨key⟩ : HashValueZero) == e.1) = true →
      e.1.hash hasher a = HashValueZero.hash hasher a ⟨key⟩ := by
    intro key hkey e he heq
    have hbytes := (JsValue.hashBytes_eq_iff a heq).mpr (hkeys key e.1.val hkey (hm.used e he))
    exact congrArg hasher hbytes.symm
  cases c with
  | has key =>
    have hkey := hhash key (hc key rfl)
    refine ⟨hm, ?_⟩
    rw [KeyMap.call, ← Search.containsKey_eq (s := s) hm.distinct hkey]
    rfl
  | get key =>
    have hkey := hhash key (hc key rfl)
    refine ⟨hm, ?_⟩
    rw [KeyMap.call, ← Search.get_eq (s := s) hm.distinct hkey]
    rfl
  | set key val =>
    have hkey := hhash key (hc key rfl)
    obtain ⟨hold, hnew⟩ := Search.insert_eq (s := s) hm.distinct hkey val
    refine ⟨⟨Search.distinctKeys_insert hm.distinct hkey val, fun e he => ?_⟩, ?_⟩
    · rcases Search.key_mem_insert he with h | ⟨e', he', h⟩
      · rw [h]
        exact hc key rfl
      · rw [← h]
        exact hm.used e' he'
    · rw [KeyMap.call, ← hold, ← hnew]
      rfl
  | clear =>
    refine ⟨?_, rfl⟩
    exact ⟨List.Pairwise.nil, fun e he => absurd he List.not_mem_nil⟩
  | delete key =>
    have hkey := hhash key (hc key rfl)
    obtain ⟨hold, hnew⟩ := Search.remove_eq (s := s) hm.distinct hkey
    refine ⟨⟨Search.distinctKeys_remove hm.distinct, fun e he => hm.used e (Search.mem_remove he)⟩, ?_⟩
    rw [KeyMap.call, ← hold, ← hnew]
    rfl

theorem run_spec (hkeys : ∀ v w, K v → K w → ¬ v.MixedEncoding w)
    (calls : List (Search HashValueZero JsValue (HashValueZero.hash hasher a) × MapCall))
    (hm : MapInternal.Formed K m.storage) (hc : ∀ c ∈ calls, ∀ key ∈ c.2.key, K key) :
    (contents m.storage).run (calls.map Prod.snd) = ((m.run calls).1, contents (m.run calls).2.storage) := by
  induction calls generalizing m with
  | nil => rfl
  | cons c calls ih =>
    obtain ⟨hm', hcall⟩ := call_spec (s := c.1) hkeys hm c.2 (hc c (.head _))
    have ih := ih hm' fun c' hc' => hc c' (.tail _ hc')
    rw [List.map_cons, KeyMap.run, hcall]
    change Prod.map _ _ (KeyMap.run _ _) = _
    rw [ih]
    rfl

theorem lost_of_hash_ne {v w : JsValue} (hhash : hasher (v.hashBytes a) ≠ hasher (w.hashBytes a))
    (x : JsValue) :
    (JsMap.empty.run [(Search.exact (HashValueZero.hash hasher a), .set v x),
      (Search.exact (HashValueZero.hash hasher a), .get w)]).1 = [.old none, .value .undefined] := by
  have hfind : (Search.exact (HashValueZero.hash hasher a)).find [(⟨v⟩, x)] ⟨w⟩ = none := by
    refine Search.find_exact_eq_none fun e he => ?_
    rw [List.mem_singleton.mp he]
    exact hhash
  have hget : JsMap.get ⟨[(⟨v⟩, x)]⟩ (Search.exact (HashValueZero.hash hasher a)) w = .undefined := by
    rw [JsMap.get, Search.get, hfind]
    rfl
  change [MapReply.old none, .value (JsMap.get ⟨[(⟨v⟩, x)]⟩ _ w)] = _
  rw [hget]

end

theorem run_of_not_mixedEncoding {hasher : List UInt8 → ℕ} {a : CellAddresses}
    (calls : List (Search HashValueZero JsValue (HashValueZero.hash hasher a) × MapCall))
    (hcalls : ∀ c ∈ calls, ∀ c' ∈ calls, ∀ v ∈ c.2.key, ∀ w ∈ c'.2.key, ¬ v.MixedEncoding w) :
    (KeyMap.empty.run (calls.map Prod.snd)).1 = (JsMap.empty.run calls).1 ∧
      (KeyMap.empty.run (calls.map Prod.snd)).2 = contents (JsMap.empty.run calls).2.storage := by
  have hrun := run_spec (K := fun v => ∃ c ∈ calls, v ∈ c.2.key) (m := JsMap.empty)
    (fun v w ⟨c, hc, hv⟩ ⟨c', hc', hw⟩ => hcalls c hc c' hc' v hv w hw) calls
    ⟨List.Pairwise.nil, fun e he => absurd he List.not_mem_nil⟩ fun c hc v hv => ⟨c, hc, hv⟩
  have hempty : contents JsMap.empty.storage = KeyMap.empty := rfl
  rw [← hempty, hrun]
  exact ⟨rfl, rfl⟩

theorem JsValue.MixedEncoding.sameValueZero {v w : JsValue} (h : v.MixedEncoding w) :
    JsValue.sameValueZero v w = true := by
  refine JsValue.sameValueZero_iff.mpr (.inl ?_)
  obtain ⟨i, -, ⟨rfl, rfl⟩ | ⟨rfl, rfl⟩⟩ := h <;> rfl

/-- **Maps and sets.** Keys are compared by SameValueZero, an equivalence. Equal keys have equal hashes
unless they are a number other than zero in two encodings, and a sequence of calls that uses no number so
gets the replies of a finite map modulo SameValueZero, whatever the seed and the layout of the table. The
two encodings of a number do lose an entry for some seed and layout. -/
theorem js_map_same_value_zero (a : CellAddresses) :
    Equivalence JsValue.SameValueZero ∧
    (∀ v w, JsValue.sameValueZero v w = true ↔ JsValue.SameValueZero v w) ∧
    (∀ v w, JsValue.sameValueZero v w = true →
      (v.hashBytes a = w.hashBytes a ↔ ¬ v.MixedEncoding w)) ∧
    (∀ hasher (calls : List (Search HashValueZero JsValue (HashValueZero.hash hasher a) × MapCall)),
      (∀ c ∈ calls, ∀ c' ∈ calls, ∀ v ∈ c.2.key, ∀ w ∈ c'.2.key, ¬ v.MixedEncoding w) →
      (KeyMap.empty.run (calls.map Prod.snd)).1 = (JsMap.empty.run calls).1 ∧
        (KeyMap.empty.run (calls.map Prod.snd)).2 = contents (JsMap.empty.run calls).2.storage) ∧
    ∀ v w x : JsValue, v.MixedEncoding w → x ≠ .undefined →
      ∃ hasher, ∃ s s' : Search HashValueZero JsValue (HashValueZero.hash hasher a),
        (KeyMap.empty.run [.set v x, .get w]).1 ≠ (JsMap.empty.run [(s, .set v x), (s', .get w)]).1 := by
  refine ⟨JsValue.SameValueZero.equivalence, fun _ _ => JsValue.sameValueZero_iff,
    fun _ _ h => JsValue.hashBytes_eq_iff a h, fun hasher calls hcalls => ?_,
    fun v w x hmixed hx => ?_⟩
  · exact run_of_not_mixedEncoding calls hcalls
  have hbytes : w.hashBytes a ≠ v.hashBytes a := fun h =>
    (JsValue.hashBytes_eq_iff a hmixed.sameValueZero).mp h.symm hmixed
  -- a seed that tells the two encodings apart, and a table that looks at equal hashes only
  refine ⟨fun bytes => if bytes = v.hashBytes a then 0 else 1, .exact _, .exact _, ?_⟩
  rw [lost_of_hash_ne (by rw [if_pos rfl, if_neg hbytes]; decide)]
  intro h
  have hvw : ((⟨v⟩ : HashValueZero) == ⟨w⟩) = true := hmixed.sameValueZero
  have hfound : (if ((⟨v⟩ : HashValueZero) == ⟨w⟩) = true then some x else none).getD .undefined =
      .undefined :=
    MapReply.value.inj (List.cons.inj (List.cons.inj h).2).1
  rw [if_pos hvw] at hfound
  exact hx hfound

/-- `5` as an int32 and as a double are one key and are hashed in two ways: what is stored under the one
may not be found under the other. -/
theorem js_map_loses_five :
    JsValue.sameValueZero (.int32 5) (.double (.fin 5)) = true ∧
    ∀ a : CellAddresses,
      (JsValue.int32 5).hashBytes a ≠ (JsValue.double (.fin 5)).hashBytes a ∧
      (JsMap.empty.run [(Search.exact (HashValueZero.hash List.length a), .set (.int32 5) .null),
        (Search.exact (HashValueZero.hash List.length a), .get (.double (.fin 5)))]).1 =
          [.old none, .value .undefined] ∧
      (KeyMap.empty.run [.set (.int32 5) .null, .get (.double (.fin 5))]).1 =
          [.old none, .value .null] := by
  have hmixed : (JsValue.int32 5).MixedEncoding (.double (.fin 5)) := by
    refine ⟨5, by decide, .inl ⟨rfl, ?_⟩⟩
    decide
  have hsame : JsValue.sameValueZero (.int32 5) (.double (.fin 5)) = true := by decide
  refine ⟨hsame, fun a => ⟨fun h => (JsValue.hashBytes_eq_iff a hsame).mp h hmixed, ?_, ?_⟩⟩
  · refine lost_of_hash_ne ?_ .null
    change (JsValue.leBytes 4 _).length ≠ (JsValue.leBytes 8 _).length
    rw [JsValue.length_leBytes, JsValue.length_leBytes]
    decide
  · decide

end Starlight
