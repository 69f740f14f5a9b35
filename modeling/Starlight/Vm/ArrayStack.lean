import Starlight.Vm.ArrayAppend
import Starlight.Vm.ArrayShift

/-!
# `push` and `pop`

`array_push` assigns the values and then the length without asking whether an assignment was refused, so an
array that takes no new elements may be left half changed, and its caller is told of success. The length
`4294967295` is reached by assigning the last element only; what asks for it otherwise, or for one more,
throws when the elements have been assigned. `array_pop` passes the new length as an int32.
-/

namespace Starlight

open JsObject World Exec IndexedElements

variable {w w' w₂ : World} {o k N : ℕ} {args : List JsValue} {v : JsValue} {ix ix' : IndexedElements}

/-- The array has the length and the elements that it had. -/
structure AsBefore (w w' : World) (o : ℕ) : Prop where
  length : (w'.objects o).indexed.length = (w.objects o).indexed.length
  stored : (w'.objects o).indexed.stored = (w.objects o).indexed.stored

/-- The values have come after the elements, which are as before. -/
structure Extended (w w' : World) (o : ℕ) (args : List JsValue) : Prop where
  length : (w'.objects o).indexed.length = (w.objects o).indexed.length + args.length
  kept : ∀ i, i < (w.objects o).indexed.length →
    (w'.objects o).indexed.stored i = (w.objects o).indexed.stored i
  added : ∀ i v, args[i]? = some v → ∃ u,
    (w'.objects o).indexed.stored ((w.objects o).indexed.length + i) = some ⟨u, objectData⟩ ∧
      v.sameValue u = true

/-- `push` throws and changes nothing, or it puts the values on top. It throws where there are values and
the array takes no new elements. -/
def Pushes (w : World) (o : ℕ) (args : List JsValue) : Prop :=
  (∃ e w', (arrayPush args).run o w = .error (.throw e) w' ∧ AsBefore w w' o) ∨
    ((args = [] ∨ TakesElements w o) ∧ ∃ w',
      (arrayPush args).run o w = .ok (.newF64 ((w.objects o).indexed.length + args.length : ℕ)) w' ∧
        Extended w w' o args)

/-- There are no values; or the length would exceed its limit; or each value is written, and the last index
is reached; or no value raises the length, and the new length is refused with an exception. -/
def FitsPush (w : World) (o : ℕ) (args : List JsValue) : Prop :=
  let n := (w.objects o).indexed.length
  args = [] ∨ 2 ^ 32 < n + args.length ∨
    (TakesElements w o ∧ n + args.length < 2 ^ 32 ∧ (∀ i, i < args.length → Writes w o (n + i)) ∧
      (n + args.length = 2 ^ 32 - 1 → Raises w o (n + args.length - 1))) ∨
    ((w.objects o).indexed.writable = true ∧ 2 ^ 32 - 1 ≤ n + args.length ∧
      ∀ i, i < args.length → ¬ Raises w o (n + i))

/-! ### The loop -/

theorem lengthOf_newF64 (hn : N < 2 ^ 32) : lengthOf (.newF64 N) = some N := by
  have hnum : (JsValue.newF64 N).getNumber = F64.ofInt N := rfl
  have heq : (F64.ofInt N).eq (F64.ofInt N) = true := by simp [F64.eq, F64.ofInt]
  rw [lengthOf, hnum, toU32_ofInt hn, if_pos heq]

theorem OwnArray.pushFrom (h : OwnArray w o) (hargs : ∀ v ∈ args, v ≠ .empty)
    (hk : (w.objects o).indexed.length ≤ k) (hmax : k + args.length ≤ 2 ^ 32) :
    ∃ ix', (Starlight.pushFrom k args).run o w =
        (Starlight.pushFrom (k + args.length) []).run o (w.withElements o ix') ∧
      OwnArray (w.withElements o ix') o ∧ Pushed w o k args ix' := by
  induction args generalizing w k with
  | nil =>
    refine ⟨(w.objects o).indexed, ?_, ?_, pushed_nil hk⟩
    · rw [withElements_self]
      rfl
    · rwa [withElements_self]
  | cons v args ih =>
    rw [List.length_cons] at hmax
    obtain ⟨ix, hput, h₁, hbehind⟩ := h.put_behind hk (hargs v List.mem_cons_self)
    obtain ⟨hraised, hstay⟩ := hbehind.length hk
    have hk₁ : ((w.withElements o ix).objects o).indexed.length ≤ k + 1 := by
      rw [indexed_withElements_self]
      by_cases hr : Raises w o k
      · rw [hraised hr]
      · rw [hstay hr]
        omega
    obtain ⟨ix', hrun, h', hpushed⟩ :=
      ih h₁ (fun u hu => hargs u (List.mem_cons_of_mem _ hu)) hk₁ (by omega)
    rw [withElements_withElements] at hrun h'
    refine ⟨ix', ?_, h', hpushed.cons h hk hbehind⟩
    have hexec : (ObjectOp.put (.index (k % 2 ^ 32)) v false).exec o w = .ok () (w.withElements o ix) := by
      rw [Nat.mod_eq_of_lt (show k < 2 ^ 32 by omega)]
      exact hput
    rw [List.length_cons, show k + (args.length + 1) = k + 1 + args.length by omega]
    exact (bind_of_ok hexec _).trans hrun

/-! ### The new length -/

theorem afterLength_assign (hw : ix.writable = true) : afterLength ix (assignDesc v) = ix := by
  change { ix with writable := true } = ix
  rw [← hw]

section PutLength

variable (hc : (w.objects o).class_ = .array) (hw : (w.objects o).indexed.writable = true)

include hc hw

theorem put_length_same (hN : N < 2 ^ 32) (hlen : N = (w.objects o).indexed.length) (throwable : Bool) :
    JsObject.put o Symbol.length (.newF64 N) throwable w = .ok () w := by
  have hdef := defineOwnProperty_length_eq hc (asksLength_assignDesc hN) hw hlen throwable
  rw [afterLength_assign hw, withElements_self] at hdef
  rw [put_length_array hc hw, bind_of_ok hdef]
  rfl

theorem put_length_raise (hN : N < 2 ^ 32 - 1) (hlen : (w.objects o).indexed.length < N)
    (throwable : Bool) :
    JsObject.put o Symbol.length (.newF64 N) throwable w =
      .ok () (w.withElements o ((w.objects o).indexed.setLength N)) := by
  have hset := setLength_of_le hlen.le (by omega) throwable
  have hdef := defineOwnProperty_length_ok hc (asksLength_assignDesc (by omega)) hw hlen.ne' hset hw
  rw [afterLength_assign (show ((w.objects o).indexed.setLength N).writable = true from hw)] at hdef
  rw [put_length_array hc hw, bind_of_ok hdef]
  rfl

theorem put_length_last (hlen : (w.objects o).indexed.length ≠ 2 ^ 32 - 1) (throwable : Bool) :
    JsObject.put o Symbol.length (.newF64 (2 ^ 32 - 1 : ℕ)) throwable w =
      .error (.throw (.rangeError "Out of memory for array values")) w := by
  have hset : JsObject.setLength o (2 ^ 32 - 1) throwable w =
      .error (.throw (.rangeError "Out of memory for array values")) w := by
    rw [JsObject.setLength, if_pos (by norm_num)]
    rfl
  have hdef := defineOwnProperty_length_error hc (asksLength_assignDesc (by norm_num)) hw hlen.symm hset
  rw [put_length_array hc hw, bind_apply, hdef]

theorem put_length_exceeded (throwable : Bool) :
    JsObject.put o Symbol.length (.newF64 (2 ^ 32 : ℕ)) throwable w =
      .error (.throw (.typeError "invalid array length")) w :=
  put_length_invalid hc hw (d := F64.ofInt (2 ^ 32 : ℕ)) rfl (by decide) throwable

end PutLength

/-! ### `push` -/

/-- What is left to do when the values have been assigned. -/
def assignsLength (o N : ℕ) : Vm JsValue := do
  JsObject.put o Symbol.length (.newF64 N) false
  return .newF64 N

theorem OwnArray.push (h : OwnArray w o) (hlen : (w.objects o).indexed.length < 2 ^ 32)
    (hargs : ∀ v ∈ args, v ≠ .empty) (hmax : (w.objects o).indexed.length + args.length ≤ 2 ^ 32) :
    ∃ ix', (arrayPush args).run o w =
        assignsLength o ((w.objects o).indexed.length + args.length) (w.withElements o ix') ∧
      OwnArray (w.withElements o ix') o ∧ Pushed w o (w.objects o).indexed.length args ix' := by
  obtain ⟨ix', hrun, h', hpushed⟩ := h.pushFrom hargs le_rfl hmax
  refine ⟨ix', ?_, h', hpushed⟩
  rw [arrayPush, Script.run, bind_of_ok (getSlot_length h.class_eq _), lengthOf_newF64 hlen]
  dsimp only
  rw [if_pos (show _ ≤ 0x100000000 from hmax)]
  exact hrun

theorem push_exceeded (h : OwnArray w o) (hlen : (w.objects o).indexed.length < 2 ^ 32)
    (hmax : 2 ^ 32 < (w.objects o).indexed.length + args.length) :
    (arrayPush args).run o w = .error (.throw (.rangeError "array size exceeded")) w := by
  rw [arrayPush, Script.run, bind_of_ok (getSlot_length h.class_eq _), lengthOf_newF64 hlen]
  dsimp only
  rw [if_neg (show ¬ _ ≤ 0x100000000 from Nat.not_le.mpr hmax)]
  rfl

namespace Pushed

variable (h : OwnArray w o) (hp : Pushed w o (w.objects o).indexed.length args ix')

include h hp

theorem stored_lt (hs : ix.Sound) (he : ix.entry = ix'.entry)
    (hle : (w.objects o).indexed.length ≤ ix.length) {i : ℕ} (hi : i < (w.objects o).indexed.length) :
    ix.stored i = (w.objects o).indexed.stored i := by
  rw [hs.stored_eq_entry, (h.own.sound o).stored_eq_entry, if_pos (by omega), if_pos hi, he]
  exact hp.kept i fun j _ _ => by omega

omit h in
theorem added_iff (happ : TakesElements w o) (hs : ix.Sound) (he : ix.entry = ix'.entry) {i : ℕ}
    (hlt : (w.objects o).indexed.length + i < ix.length) (hi : args[i]? = some v) :
    (∃ u, ix.stored ((w.objects o).indexed.length + i) = some ⟨u, objectData⟩ ∧ v.sameValue u = true) ↔
      Writes w o ((w.objects o).indexed.length + i) := by
  rw [hs.stored_eq_entry, if_pos hlt, he]
  refine ⟨?_, hp.written i v hi⟩
  rintro ⟨u, hu, -⟩
  by_contra hn
  -- nothing was written, so the element was left there, and it is configurable
  rw [hp.kept _ fun j _ hj hij => hn (by rwa [hij])] at hu
  refine hn (.inr ⟨happ, fun s hs' => ?_⟩)
  rw [hu] at hs'
  cases hs'
  rfl

theorem pushes_of_throw {e : JsError}
    (hrun : (arrayPush args).run o w = .error (.throw e) (w.withElements o ix'))
    (h' : OwnArray (w.withElements o ix') o) :
    Pushes w o args ↔ ∀ i, i < args.length → ¬ Raises w o ((w.objects o).indexed.length + i) := by
  have hix := indexed_withElements_self w o ix'
  constructor
  · rintro (⟨e', w', hrun', hun⟩ | ⟨-, w', hrun', -⟩) i hi hr
    · obtain rfl := (Result.error.inj (hrun.symm.trans hrun')).2
      have := hun.length
      rw [hix] at this
      have := hp.reaches i hi hr
      omega
    · rw [hrun] at hrun'
      cases hrun'
  · intro hn
    have hlen := hp.length_eq hn
    have hs := h'.own.sound o
    rw [hix] at hs
    refine .inl ⟨e, _, hrun, by rw [hix, hlen], ?_⟩
    funext i
    rw [hix]
    by_cases hi : i < (w.objects o).indexed.length
    · exact hp.stored_lt h hs rfl hlen.ge hi
    · rw [hs.stored_eq_none (by omega), h.stored_of_le (by omega)]

theorem pushes_of_ok (hrun : (arrayPush args).run o w =
      .ok (.newF64 ((w.objects o).indexed.length + args.length : ℕ)) w')
    (hs : (w'.objects o).indexed.Sound) (he : (w'.objects o).indexed.entry = ix'.entry)
    (hlen : (w'.objects o).indexed.length = (w.objects o).indexed.length + args.length) :
    Pushes w o args ↔ args = [] ∨ (TakesElements w o ∧
      ∀ i, i < args.length → Writes w o ((w.objects o).indexed.length + i)) := by
  have hkept : ∀ i, i < (w.objects o).indexed.length →
      (w'.objects o).indexed.stored i = (w.objects o).indexed.stored i := fun i hi =>
    hp.stored_lt h hs he (by omega) hi
  constructor
  · rintro (⟨e, w'', hrun', -⟩ | ⟨hargs | happ, w'', hrun', hext⟩)
    · rw [hrun] at hrun'
      cases hrun'
    · exact .inl hargs
    · obtain rfl := (Result.ok.inj (hrun.symm.trans hrun')).2
      refine .inr ⟨happ, fun i hi => ?_⟩
      have hget := List.getElem?_eq_getElem hi
      exact (hp.added_iff happ hs he (by omega) hget).mp (hext.added i _ hget)
  · rintro (rfl | ⟨happ, hw⟩)
    · exact .inr ⟨.inl rfl, w', hrun, hlen, hkept, fun i v hi => nomatch hi⟩
    · refine .inr ⟨.inr happ, w', hrun, hlen, hkept, fun i v hi => ?_⟩
      have hlt := (List.getElem?_eq_some_iff.mp hi).1
      exact (hp.added_iff happ hs he (by omega) hi).mpr (hw i hlt)

end Pushed

theorem push_ends (hrun : (arrayPush args).run o w = assignsLength o N w')
    (hput : JsObject.put o Symbol.length (.newF64 N) false w' = .ok () w₂) :
    (arrayPush args).run o w = .ok (.newF64 N) w₂ :=
  hrun.trans (bind_of_ok hput _)

theorem push_throws {e : Fault} (hrun : (arrayPush args).run o w = assignsLength o N w')
    (hput : JsObject.put o Symbol.length (.newF64 N) false w' = .error e w₂) :
    (arrayPush args).run o w = .error e w₂ := by
  rw [hrun, assignsLength, bind_apply, hput]

theorem OwnArray.push_locked (h : OwnArray w o) (hlen : (w.objects o).indexed.length < 2 ^ 32)
    (hargs : ∀ v ∈ args, v ≠ .empty) (hmax : (w.objects o).indexed.length + args.length ≤ 2 ^ 32)
    (hw : (w.objects o).indexed.writable = false) :
    ∃ ix', (arrayPush args).run o w =
        .ok (.newF64 ((w.objects o).indexed.length + args.length : ℕ)) (w.withElements o ix') ∧
      OwnArray (w.withElements o ix') o ∧ Pushed w o (w.objects o).indexed.length args ix' := by
  obtain ⟨ix', hrun, h', hp⟩ := h.push hlen hargs hmax
  have hput := (put_length_locked h'.class_eq (by rw [indexed_withElements_self, hp.writable, hw])
    (.newF64 ((w.objects o).indexed.length + args.length : ℕ))).1
  exact ⟨ix', push_ends hrun hput, h', hp⟩

theorem OwnArray.pushes_locked (h : OwnArray w o) (hlen : (w.objects o).indexed.length < 2 ^ 32)
    (hargs : ∀ v ∈ args, v ≠ .empty) (hmax : (w.objects o).indexed.length + args.length ≤ 2 ^ 32)
    (hw : (w.objects o).indexed.writable = false) : Pushes w o args ↔ args = [] := by
  obtain ⟨ix', hrun, h', hp⟩ := h.push_locked hlen hargs hmax hw
  have hix := indexed_withElements_self w o ix'
  constructor
  · rintro (⟨e, w', hrun', -⟩ | ⟨hc | ⟨-, hc⟩, -⟩)
    · rw [hrun] at hrun'
      cases hrun'
    · exact hc
    · rw [hw] at hc
      cases hc
  · rintro rfl
    have hle := hp.le
    have hle' := hp.length_le
    exact (hp.pushes_of_ok h hrun (h'.own.sound o) (by rw [hix])
      (by rw [hix]; exact le_antisymm hle' hle)).mpr (.inl rfl)

theorem OwnArray.push_writable (h : OwnArray w o) (hlen : (w.objects o).indexed.length < 2 ^ 32)
    (hargs : ∀ v ∈ args, v ≠ .empty) (hmax : (w.objects o).indexed.length + args.length ≤ 2 ^ 32)
    (hw : (w.objects o).indexed.writable = true) :
    ∃ ix', OwnArray (w.withElements o ix') o ∧ Pushed w o (w.objects o).indexed.length args ix' ∧
      let N := (w.objects o).indexed.length + args.length
      if N = 2 ^ 32 ∨ (N = 2 ^ 32 - 1 ∧ ix'.length ≠ N) then
        ∃ e, (arrayPush args).run o w = .error (.throw e) (w.withElements o ix')
      else ∃ ix, (arrayPush args).run o w = .ok (.newF64 N) (w.withElements o ix) ∧
        OwnArray (w.withElements o ix) o ∧ ix.entry = ix'.entry ∧ ix.length = N ∧ ix.writable = true := by
  obtain ⟨ix', hrun, h', hp⟩ := h.push hlen hargs hmax
  refine ⟨ix', h', hp, ?_⟩
  have hix := indexed_withElements_self w o ix'
  have hle := hp.length_le
  have hw' : ((w.withElements o ix').objects o).indexed.writable = true := by rw [hix, hp.writable, hw]
  dsimp only
  generalize (w.objects o).indexed.length + args.length = N at *
  split
  · next hN =>
    rcases hN with rfl | ⟨rfl, hne⟩
    · exact ⟨_, push_throws hrun (put_length_exceeded h'.class_eq hw' false)⟩
    · exact ⟨_, push_throws hrun (put_length_last h'.class_eq hw' (by rwa [hix]) false)⟩
  · next hN =>
    by_cases hsame : ix'.length = N
    · have hput := put_length_same (N := N) h'.class_eq hw' (by omega) (by rw [hix, hsame]) false
      rw [hix] at hw'
      exact ⟨ix', push_ends hrun hput, h', rfl, hsame, hw'⟩
    · have hput := put_length_raise (N := N) h'.class_eq hw' (by omega) (by rw [hix]; omega) false
      have h'' := h'.withElements (h'.own.rewrites_self hput)
      rw [hix] at hw'
      rw [hix, withElements_withElements] at hput h''
      exact ⟨ix'.setLength N, push_ends hrun hput, h'', rfl, rfl, hw'⟩

theorem OwnArray.pushes_writable (h : OwnArray w o) (hlen : (w.objects o).indexed.length < 2 ^ 32)
    (hargs : ∀ v ∈ args, v ≠ .empty) (hmax : (w.objects o).indexed.length + args.length ≤ 2 ^ 32)
    (hw : (w.objects o).indexed.writable = true) : Pushes w o args ↔ FitsPush w o args := by
  obtain ⟨ix', h', hp, hrun⟩ := h.push_writable hlen hargs hmax hw
  have hle := hp.le
  have hle' := hp.length_le
  have hnil : args = [] ↔ args.length = 0 := List.length_eq_zero_iff.symm
  unfold FitsPush
  dsimp only at hrun ⊢
  split at hrun
  · next hN =>
    -- the assignment of the length throws, and the last index is not reached
    obtain ⟨e, hrun⟩ := hrun
    rw [hp.pushes_of_throw h hrun h']
    constructor
    · exact fun hn => .inr (.inr (.inr ⟨hw, by omega, hn⟩))
    · rintro (hc | hc | ⟨-, hlt, -, hlast⟩ | ⟨-, -, hn⟩)
      · rw [hnil] at hc
        omega
      · omega
      · have hr := hlast (by omega)
        have hpos : 0 < args.length := by omega
        have := hp.reaches (args.length - 1) (by omega)
          (by rwa [← Nat.add_sub_assoc (show 1 ≤ args.length from hpos)])
        omega
      · exact hn
  · next hN =>
    obtain ⟨ix, hrun, h'', he, hlen', -⟩ := hrun
    have hix := indexed_withElements_self w o ix
    rw [hp.pushes_of_ok h hrun (h''.own.sound o) (by rw [hix, he]) (by rw [hix, hlen'])]
    constructor
    · rintro (hc | ⟨happ, hwrites⟩)
      · exact .inl hc
      · by_cases ha : args = []
        · exact .inl ha
        · rw [hnil] at ha
          refine .inr (.inr (.inl ⟨happ, by omega, hwrites, fun hlast => ?_⟩))
          obtain ⟨i, -, hi, hr⟩ := hp.reached (by omega)
          rwa [show (w.objects o).indexed.length + args.length - 1 =
            (w.objects o).indexed.length + i by omega]
    · rintro (hc | hc | ⟨happ, -, hwrites, -⟩ | ⟨-, hN', hn⟩)
      · exact .inl hc
      · omega
      · exact .inr ⟨happ, hwrites⟩
      · have := hp.length_eq hn
        exact .inl (hnil.mpr (by omega))

/-- **`push` is the operation of a stack** exactly where `FitsPush` says so. -/
theorem OwnArray.pushes_iff (h : OwnArray w o) (hlen : (w.objects o).indexed.length < 2 ^ 32)
    (hargs : ∀ v ∈ args, v ≠ .empty) : Pushes w o args ↔ FitsPush w o args := by
  by_cases hmax : 2 ^ 32 < (w.objects o).indexed.length + args.length
  · exact iff_of_true (.inl ⟨_, w, push_exceeded h hlen hmax, rfl, rfl⟩) (.inr (.inl hmax))
  have hmax' := Nat.le_of_not_lt hmax
  cases hw : (w.objects o).indexed.writable with
  | false =>
    rw [h.pushes_locked hlen hargs hmax' hw]
    unfold FitsPush TakesElements
    rw [hw]
    simp only [Bool.false_eq_true, and_false, false_and, or_false]
    exact ⟨.inl, fun hc => hc.resolve_right hmax⟩
  | true => exact h.pushes_writable hlen hargs hmax' hw

/-! ### `pop` -/

/-- An array whose elements are data properties, those that were left behind the length included. -/
structure DataArray (w : World) (o : ℕ) : Prop extends OwnArray w o where
  u32 : (w.objects o).indexed.length < 2 ^ 32
  data : ∀ i s, (w.objects o).indexed.entry i = some s → s.attributes.accessor = false

/-- The last element may not be taken away. -/
def Locked (w : World) (o : ℕ) : Prop :=
  (w.objects o).indexed.writable = false ∨
    Fixed (w.objects o).indexed.stored ((w.objects o).indexed.length - 1)

theorem writable_of_not_locked (hl : ¬ Locked w o) : (w.objects o).indexed.writable = true := by
  cases hw : (w.objects o).indexed.writable with
  | false => exact absurd (.inl hw) hl
  | true => rfl

/-- `pop` throws where the last element may not be taken away; elsewhere it returns that element and leaves
the others. -/
def Pops (w : World) (o : ℕ) : Prop :=
  let ix := (w.objects o).indexed
  (Locked w o → ∃ e w', arrayPop.run o w = .error (.throw e) w') ∧
    (¬ Locked w o → ∃ w',
      arrayPop.run o w = .ok ((ix.stored (ix.length - 1)).elim .undefined StoredSlot.value) w' ∧
      (w'.objects o).indexed.length = ix.length - 1 ∧
      (w'.objects o).indexed.stored = below ix.stored (ix.length - 1))

/-- What is left to do when the last element has been read. -/
def dropsLast (o m : ℕ) (element : JsValue) : Vm JsValue := do
  let _ ← JsObject.delete o (.index m) true
  JsObject.put o Symbol.length (.newU32 m) true
  return element

theorem dropsLast_of_put {b : Bool} {m : ℕ}
    (hdel : JsObject.delete o (.index m) true w = .ok b w') (v : JsValue) :
    dropsLast o m v w = (JsObject.put o Symbol.length (.newU32 m) true >>= fun _ => pure v) w' :=
  bind_of_ok hdel _

namespace DataArray

variable (h : DataArray w o) {m : ℕ}

include h

theorem data_stored {i : ℕ} {s : StoredSlot} (hs : (w.objects o).indexed.stored i = some s) :
    s.attributes.accessor = false := by
  rw [(h.own.sound o).stored_eq_entry] at hs
  split at hs
  · exact h.data i s hs
  · cases hs

theorem pop_zero (hlen : (w.objects o).indexed.length = 0) : arrayPop.run o w =
    (JsObject.put o Symbol.length (.newF64 (0 : ℕ)) true >>= fun _ => pure .undefined) w := by
  rw [arrayPop, Script.run, bind_of_ok (getSlot_length h.class_eq _), hlen, lengthOf_newF64 (by norm_num)]
  rfl

theorem pop_succ (hlen : (w.objects o).indexed.length = m + 1) : arrayPop.run o w =
    dropsLast o m (((w.objects o).indexed.stored m).elim .undefined StoredSlot.value) w := by
  have hu := h.u32
  rw [hlen] at hu
  rw [arrayPop, Script.run, bind_of_ok (getSlot_length h.class_eq _), hlen, lengthOf_newF64 hu]
  dsimp only
  rw [Script.run, bind_of_ok (h.own.getSlot_eq (fun s hs => h.data_stored hs) _)]
  rw [dropsLast, bind_apply]
  change ((JsObject.delete o (.index m) true >>= fun _ => pure ()) >>= fun _ => _ : Vm JsValue) w = _
  rw [bind_apply, bind_apply]
  cases JsObject.delete o (.index m) true w <;> rfl

theorem delete_last (hn : (w.objects o).indexed.length = m + 1)
    (hf : ¬ Fixed (w.objects o).indexed.stored m) :
    ∃ w₁, JsObject.delete o (.index m) true w = .ok true w₁ ∧ OwnElements w₁ o ∧ (w₁.objects o).class_ = .array ∧
      (w₁.objects o).indexed.writable = (w.objects o).indexed.writable ∧
      (w₁.objects o).indexed.length = m + 1 ∧
      (w₁.objects o).indexed.stored = below (w.objects o).indexed.stored m := by
  obtain ⟨w₁, hdel, hr⟩ := h.own.delete hf true
  refine ⟨w₁, hdel, hr.ownElements h.own, hr.class_eq.trans h.class_eq, ?_, ?_, ?_⟩
  · rw [hr.indexed, writable_remove]
  · rw [hr.indexed, length_remove, hn]
  · rw [hr.indexed, (h.own.sound o).stored_remove]
    funext i
    rw [Function.update_apply, below]
    by_cases him : i = m
    · rw [if_pos him, if_neg (by omega)]
    · rw [if_neg him]
      split
      · rfl
      · exact (h.own.sound o).stored_eq_none (by omega)

theorem pop_throws (hl : Locked w o) : ∃ e w', arrayPop.run o w = .error (.throw e) w' := by
  cases hn : (w.objects o).indexed.length with
  | zero =>
    have hw : (w.objects o).indexed.writable = false := by
      refine hl.resolve_right ?_
      rintro ⟨s, hs, -⟩
      have := (h.own.sound o).lt_of_stored hs
      omega
    refine ⟨.typeError "put failed", w, ?_⟩
    rw [h.pop_zero hn, bind_apply, (put_length_locked h.class_eq hw _).2]
  | succ m =>
    have hl' : (w.objects o).indexed.writable = false ∨ Fixed (w.objects o).indexed.stored m := by
      rw [Locked, hn] at hl
      exact hl
    rw [h.pop_succ hn]
    by_cases hf : Fixed (w.objects o).indexed.stored m
    · refine ⟨.typeError "trying to delete non-configurable property", w, ?_⟩
      rw [dropsLast, bind_apply, h.own.delete_fixed hf]
      rfl
    · obtain ⟨w₁, hdel, -, hc, hw, -⟩ := h.delete_last hn hf
      rw [hl'.resolve_right hf] at hw
      refine ⟨.typeError "put failed", w₁, ?_⟩
      rw [dropsLast_of_put hdel, bind_apply, (put_length_locked hc hw _).2]

theorem pop_ends (hl : ¬ Locked w o) (hn : (w.objects o).indexed.length ≤ 2 ^ 31) :
    ∃ w', arrayPop.run o w = .ok (((w.objects o).indexed.stored ((w.objects o).indexed.length - 1)).elim
      .undefined StoredSlot.value) w' ∧
      (w'.objects o).indexed.length = (w.objects o).indexed.length - 1 ∧
      (w'.objects o).indexed.stored =
        below (w.objects o).indexed.stored ((w.objects o).indexed.length - 1) := by
  have hw := writable_of_not_locked hl
  have hf : ¬ Fixed (w.objects o).indexed.stored ((w.objects o).indexed.length - 1) := fun hf =>
    hl (.inr hf)
  have hnone : ∀ i, (w.objects o).indexed.length ≤ i → (w.objects o).indexed.stored i = none :=
    fun i hi => (h.own.sound o).stored_eq_none hi
  cases hlen : (w.objects o).indexed.length with
  | zero =>
    have hput := put_length_same (N := 0) h.class_eq hw (by norm_num) hlen.symm true
    rw [hlen] at hnone
    refine ⟨w, ?_, hlen, ?_⟩
    · rw [h.pop_zero hlen, bind_of_ok hput, hnone _ (Nat.zero_le _)]
      rfl
    · funext i
      rw [hnone i (Nat.zero_le i), below, if_neg (by omega)]
  | succ m =>
    rw [hlen, Nat.add_sub_cancel] at hf
    obtain ⟨w₁, hdel, hown, hc, hw₁, hlen₁, hst₁⟩ := h.delete_last hlen hf
    have hlast : (w₁.objects o).indexed.stored m = none := by
      rw [hst₁, below, if_neg (lt_irrefl m)]
    obtain ⟨w', ix, hput, hr, hlen', -, hst'⟩ := hown.put_length_cut hc (hw₁.trans hw) hlen₁ (by omega)
      hlast (isNumber_newU32 (show m < 2 ^ 31 by omega)) true
    refine ⟨w', ?_, ?_, ?_⟩
    · rw [h.pop_succ hlen, dropsLast_of_put hdel, bind_of_ok hput]
      rfl
    · rw [hr.indexed, hlen', Nat.add_sub_cancel]
    · rw [hr.indexed, hst', hst₁, Nat.add_sub_cancel]

theorem pop_large (hl : ¬ Locked w o) (hn : 2 ^ 31 < (w.objects o).indexed.length) :
    ∃ e w', arrayPop.run o w = .error (.throw e) w' := by
  have hw := writable_of_not_locked hl
  have hu := h.u32
  obtain ⟨m, hlen⟩ := Nat.exists_eq_succ_of_ne_zero (show (w.objects o).indexed.length ≠ 0 by omega)
  have hf : ¬ Fixed (w.objects o).indexed.stored m := fun hf => hl (.inr (by rwa [hlen]))
  obtain ⟨w₁, hdel, -, hc, hw₁, -⟩ := h.delete_last hlen hf
  have hneg : (BitVec.ofNat 32 m).toInt < 0 := by
    rw [toInt_ofNat (by omega) (by omega)]
    omega
  refine ⟨.typeError "invalid array length", w₁, ?_⟩
  rw [h.pop_succ hlen, dropsLast_of_put hdel, bind_apply, JsValue.newU32,
    put_length_negative hc (hw₁.trans hw) hneg]

/-- **`pop` is the operation of a stack** except where the new length is no int32. -/
theorem pops_iff : Pops w o ↔ (w.objects o).indexed.length ≤ 2 ^ 31 ∨ Locked w o := by
  by_cases hl : Locked w o
  · exact iff_of_true ⟨fun _ => h.pop_throws hl, fun hn => absurd hl hn⟩ (.inr hl)
  by_cases hn : (w.objects o).indexed.length ≤ 2 ^ 31
  · exact iff_of_true ⟨fun hc => absurd hc hl, fun _ => h.pop_ends hl hn⟩ (.inl hn)
  refine iff_of_false (fun hp => ?_) (not_or.mpr ⟨hn, hl⟩)
  obtain ⟨w', hrun, -⟩ := hp.2 hl
  obtain ⟨e, w'', hthrow⟩ := h.pop_large hl (Nat.lt_of_not_le hn)
  rw [hthrow] at hrun
  cases hrun

end DataArray

/-! ### `push` and then `pop` -/

/-- If `push(v)` ends so does the `pop()` after it, and the array is as it was. -/
def Restores (w : World) (o : ℕ) (v : JsValue) : Prop :=
  ∀ r w₁, (arrayPush [v]).run o w = .ok r w₁ → ∃ r' w₂, arrayPop.run o w₁ = .ok r' w₂ ∧ AsBefore w w₂ o

/-- The new length may be assigned, the length is small enough for `pop`, and what was left behind it may be
deleted; or `push` throws because of the new length. -/
def FitsPop (w : World) (o : ℕ) : Prop :=
  let n := (w.objects o).indexed.length
  (w.objects o).indexed.writable = true ∧
    ((n < 2 ^ 31 ∧ ∀ s, (w.objects o).indexed.entry n = some s → s.attributes.configurable = true) ∨
      n + 1 = 2 ^ 32 ∨ (n + 1 = 2 ^ 32 - 1 ∧ ¬ Raises w o n))

theorem OwnArray.configurable_of_writes (h : OwnArray w o) (hk : (w.objects o).indexed.length ≤ k)
    (hw : Writes w o k) {s : StoredSlot} (hs : (w.objects o).indexed.entry k = some s) :
    s.attributes.configurable = true := by
  rcases hw with hcan | ⟨-, hconf⟩
  · obtain ⟨-, hdense⟩ := canPutDense_dense hcan
    obtain ⟨hd, hmax⟩ := hdense rfl
    rw [(h.own.sound o).entry_of_le hk, (h.own.sound o).map hd k hmax] at hs
    cases hs
  · exact hconf s hs

namespace Pushed

theorem dataArray (h : DataArray w o) (hp : Pushed w o k args ix')
    (h' : OwnArray (w.withElements o ix) o) (he : ix.entry = ix'.entry) (hlen : ix.length < 2 ^ 32) :
    DataArray (w.withElements o ix) o where
  toOwnArray := h'
  u32 := by rwa [indexed_withElements_self]
  data j s hs := by
    rw [indexed_withElements_self, he] at hs
    by_cases hj : ∃ i, i < args.length ∧ Writes w o (k + i) ∧ j = k + i
    · obtain ⟨i, hi, hw, rfl⟩ := hj
      obtain ⟨u, hu, -⟩ := hp.written i _ (List.getElem?_eq_getElem hi) hw
      rw [hu] at hs
      cases hs
      rfl
    · rw [hp.kept j fun i hi hw hji => hj ⟨i, hi, hw, hji⟩] at hs
      exact h.data j s hs

variable (h : OwnArray w o) (hk : (w.objects o).indexed.length ≤ k) (hp : Pushed w o k [v] ix')

include h hk hp

theorem configurable_iff : (∀ s, ix'.entry k = some s → s.attributes.configurable = true) ↔
    ∀ s, (w.objects o).indexed.entry k = some s → s.attributes.configurable = true := by
  by_cases hw : Writes w o k
  · refine iff_of_true (fun s hs => ?_) fun s hs => h.configurable_of_writes hk hw hs
    obtain ⟨u, hu, -⟩ := hp.written 0 v rfl hw
    rw [Nat.add_zero, hs] at hu
    cases hu
    rfl
  · rw [hp.kept k fun i hi hw' hki => ?_]
    obtain rfl : i = 0 := by omega
    exact hw hw'

end Pushed

theorem OwnArray.fixed_iff (h : OwnArray w o) (hlen : (w.objects o).indexed.length = k + 1) :
    Fixed (w.objects o).indexed.stored k ↔
      ¬ ∀ s, (w.objects o).indexed.entry k = some s → s.attributes.configurable = true := by
  rw [Fixed, (h.own.sound o).stored_eq_entry, if_pos (by omega)]
  simp

namespace DataArray

variable (h : DataArray w o)

include h

theorem restores_locked (hw : (w.objects o).indexed.writable = false) (hv : v ≠ .empty) :
    ¬ Restores w o v := by
  intro hres
  have hu := h.u32
  obtain ⟨ix', hrun, h', hp⟩ := h.push_locked h.u32 (show ∀ u ∈ [v], u ≠ .empty by simpa using hv) hu hw
  have hix := indexed_withElements_self w o ix'
  have hlt : ix'.length < 2 ^ 32 := by
    by_cases hr : (w.objects o).indexed.length < ix'.length
    · obtain ⟨i, hi, hlen, hraise⟩ := hp.reached hr
      rcases hraise with hcan | ⟨⟨-, hc⟩, -⟩
      · have hmax := ((canPutDense_dense hcan).2 rfl).2
        rw [hlen]
        exact lt_of_le_of_lt hmax (by decide)
      · rw [hw] at hc
        cases hc
    · omega
  obtain ⟨r', w₂, hpop, -⟩ := hres _ _ hrun
  have hlocked : Locked (w.withElements o ix') o := .inl (by rw [hix, hp.writable, hw])
  obtain ⟨e, w', hthrow⟩ := (hp.dataArray h h' rfl hlt).pop_throws hlocked
  rw [hthrow] at hpop
  cases hpop

/-- **`pop` undoes `push`** exactly where `FitsPop` says so. -/
theorem restores_iff (hv : v ≠ .empty) : Restores w o v ↔ FitsPop w o := by
  have hu := h.u32
  unfold FitsPop
  dsimp only
  cases hw : (w.objects o).indexed.writable with
  | false => exact iff_of_false (h.restores_locked hw hv) fun hc => nomatch hc.1
  | true =>
    obtain ⟨ix', h', hp, hrun⟩ := h.push_writable h.u32 (show ∀ u ∈ [v], u ≠ .empty by simpa using hv) hu hw
    have hle := hp.length_le
    rw [List.length_singleton] at hle hrun
    dsimp only at hrun
    split at hrun
    · next hN =>
      obtain ⟨e, hrun⟩ := hrun
      refine iff_of_true (fun r w₁ hok => ?_) ⟨rfl, .inr (hN.imp_right fun hN => ⟨hN.1, fun hr => ?_⟩)⟩
      · rw [hrun] at hok
        cases hok
      · have := hp.reaches 0 (by simp) hr
        omega
    · next hN =>
      obtain ⟨ix, hrun, h'', he, hlen, hw'⟩ := hrun
      have hix := indexed_withElements_self w o ix
      have hdata := hp.dataArray h h'' he (by omega)
      have hfixed := h''.fixed_iff (show _ = (w.objects o).indexed.length + 1 by rw [hix, hlen])
      rw [hix, he, hp.configurable_iff h.toOwnArray le_rfl] at hfixed
      have hlocked : Locked (w.withElements o ix) o ↔ ¬ ∀ s, (w.objects o).indexed.entry
          (w.objects o).indexed.length = some s → s.attributes.configurable = true := by
        rw [Locked, hix, hw', hlen, Nat.add_sub_cancel, ← hfixed]
        simp
      have hfails : ∀ {e w'}, arrayPop.run o (w.withElements o ix) = .error e w' → ¬ Restores w o v := by
        intro e w' hthrow hres
        obtain ⟨r', w₂, hpop, -⟩ := hres _ _ hrun
        rw [hthrow] at hpop
        cases hpop
      -- here `push` ends, so that the length is one that it can reach
      have hreach : (w.objects o).indexed.length + 1 = 2 ^ 32 - 1 →
          Raises w o (w.objects o).indexed.length := by
        intro hlast
        obtain ⟨i, hi, -, hr⟩ := hp.reached (by omega)
        obtain rfl : i = 0 := by simpa using hi
        exact hr
      constructor
      · intro hres
        have hnot : ¬ Locked (w.withElements o ix) o := fun hl => by
          obtain ⟨e, w', hthrow⟩ := hdata.pop_throws hl
          exact hfails hthrow hres
        refine ⟨rfl, .inl ⟨?_, not_not.mp (mt hlocked.mpr hnot)⟩⟩
        by_contra hlarge
        obtain ⟨e, w', hthrow⟩ := hdata.pop_large hnot (by rw [hix, hlen]; omega)
        exact hfails hthrow hres
      · rintro ⟨-, ⟨hsmall, hconf⟩ | hc | ⟨hc, hn⟩⟩ r w₁ hok
        · obtain rfl := (Result.ok.inj (hrun.symm.trans hok)).2
          have hnot : ¬ Locked (w.withElements o ix) o := fun hl => hlocked.mp hl hconf
          obtain ⟨w₂, hpop, hlen₂, hst₂⟩ := hdata.pop_ends hnot (by rw [hix, hlen]; omega)
          rw [hix, hlen, Nat.add_sub_cancel] at hlen₂ hst₂
          refine ⟨_, w₂, hpop, hlen₂, ?_⟩
          have hs := h''.own.sound o
          rw [hix] at hs
          rw [hst₂]
          funext i
          unfold below
          split
          · next hi => exact hp.stored_lt h.toOwnArray hs he (by omega) hi
          · next hi => rw [h.stored_of_le (Nat.le_of_not_lt hi)]
        · omega
        · exact absurd (hreach hc) hn

end DataArray

/-- An array as the engine makes it. -/
def stackWorld : World :=
  ((World.init ⟨fun _ => [], fun _ => []⟩).after (.newStructure none true)).after (.newObject 0 .array)

theorem reachable_stackWorld : Reachable (fun w op => op.KeepsSlots w) stackWorld := by
  have h₀ : Reachable (fun w op => op.KeepsSlots w) (World.init ⟨fun _ => [], fun _ => []⟩) :=
    ⟨_, .refl⟩
  have h₁ := h₀.step (.newStructure none true) (fun _ hp => by cases hp) trivial rfl
  exact h₁.step (.newObject 0 .array) (show 0 < 1 by decide) (show _ = true from rfl) rfl

theorem dataArray_stackWorld : DataArray stackWorld 0 where
  own := ⟨reachable_stackWorld.layout_inv, show 0 < 1 by decide, reachable_stackWorld.soundElements, rfl,
    fun p hp => nomatch hp⟩
  class_eq := rfl
  indexed := rfl
  u32 := show 0 < 2 ^ 32 by decide
  data _ _ hs := nomatch hs

/-- The array with a read-only length. -/
def lockedStackWorld : World := stackWorld.after (.on 0 (.define Symbol.length lockedDesc true))

theorem reachable_lockedStackWorld : Reachable (fun w op => op.KeepsSlots w) lockedStackWorld :=
  reachable_stackWorld.step (.on 0 (.define Symbol.length lockedDesc true)) (show 0 < 1 by decide)
    (fun h => h.1) rfl

theorem dataArray_lockedStackWorld : DataArray lockedStackWorld 0 where
  own := ⟨reachable_lockedStackWorld.layout_inv, show 0 < 1 by decide,
    reachable_lockedStackWorld.soundElements, rfl, fun p hp => nomatch hp⟩
  class_eq := rfl
  indexed := rfl
  u32 := show 0 < 2 ^ 32 by decide
  data _ _ hs := nomatch hs

end Starlight
