import Starlight.Vm.OwnKeysKept

/-!
# Own keys are enumerated exactly

In every heap that a run reaches, `get_own_property_names` lists the keys that `get_own_property` finds,
each of them once, just when nothing is stored twice and nothing is stored where the lookup does not
look.
-/

namespace Starlight

open JsObject World Exec IndexedElements

variable {P : Policy} {w w' w₁ w₂ : World} {o : ℕ} {name : Symbol}

/-! ### Loops over the own keys -/

/-- A loop over keys finds each of them with `get_own_property`, as long as it goes on. Its body is given
by what it may do to the heap. -/
def Unwraps (o : ℕ) (body : Symbol → PropertyDescriptor → World → World → Prop) :
    List Symbol → World → Prop
  | [], _ => True
  | n :: names, w => ∃ d w₁, getOwnProperty o n w = .ok (some d) w₁ ∧
      ∀ w₂, body n d w₁ w₂ → Unwraps o body names w₂

/-- The body of `isFrozen` and `isSealed` only looks at the descriptor. -/
def testBody (_ : Symbol) (_ : PropertyDescriptor) (w w' : World) : Prop := w' = w

/-- The body of `freeze` and `seal`. -/
def redefineBody (o : ℕ) (f : PropertyDescriptor → PropertyDescriptor) (n : Symbol)
    (d : PropertyDescriptor) (w w' : World) : Prop :=
  ∃ b, defineOwnProperty o n (f d) true w = .ok b w'

def copyBody (target : ℕ) (n : Symbol) (d : PropertyDescriptor) (w w' : World) : Prop :=
  ∃ b, Vm.expectOk (defineOwnProperty target n d false) w = .ok b w'

/-- What is known throughout a loop. -/
structure Sane (w : World) (o : ℕ) : Prop where
  inv : w.Inv layoutPolicy
  lt : o < w.nextObject
  sound : w.SoundElements

theorem World.Read.sane (hr : Read layoutPolicy w w') (h : Sane w o) : Sane w' o :=
  ⟨hr.inv, hr.nextObject ▸ h.lt, h.sound.of_objects hr.objects⟩

/-- **The step lemma of a loop** gives the loop. -/
theorem unwraps_of_step {body : Symbol → PropertyDescriptor → World → World → Prop}
    {J : World → Prop} (hsane : ∀ w, J w → Sane w o)
    (hstep : ∀ w n d w₁ w₂, J w → Present w o n → getOwnProperty o n w = .ok (some d) w₁ →
      Read layoutPolicy w w₁ → body n d w₁ w₂ → J w₂ ∧ KeepsOwn w₁ w₂ o)
    (names : List Symbol) {w : World} (h : J w) (hp : ∀ n ∈ names, Present w o n) :
    Unwraps o body names w := by
  induction names generalizing w with
  | nil => trivial
  | cons n names ih =>
    have hs := hsane w h
    have hpn := hp n List.mem_cons_self
    obtain ⟨d, w₁, hr, hrun⟩ := getOwnProperty_of_present hs.inv hs.lt hpn
    refine ⟨d, w₁, hrun, fun w₂ hbody => ?_⟩
    obtain ⟨hj, hk⟩ := hstep w n d w₁ w₂ h hpn hrun hr hbody
    exact ih hj fun m hm => hk.present ((hr.keepsOwn hs.inv hs.lt).present
      (hp m (List.mem_cons_of_mem n hm)))

theorem unwraps_test (h : Sane w o) {names : List Symbol} (hp : ∀ n ∈ names, Present w o n) :
    Unwraps o testBody names w := by
  refine unwraps_of_step (J := fun w => Sane w o) (fun _ h => h) ?_ names h hp
  rintro w n d w₁ w₂ h - - hr rfl
  exact ⟨hr.sane h, .refl _ o⟩

/-! ### Redefining what was read -/

theorem value_of_getOwnProperty {i : ℕ} (hstr : ¬ isString (w.objects o).class_)
    {d : PropertyDescriptor} (hrun : getOwnProperty o (.index i) w = .ok (some d) w') :
    ∃ s, (w.objects o).indexed.stored i = some s ∧ (s.attributes.data = true → d.fst = s.value) := by
  have hmethod : getOwnPropertySlot o (.index i) Slot.new w =
      getOwnIndexedPropertySlotMethod o i Slot.new w := by
    change getOwnIndexedPropertySlot o i Slot.new w = _
    unfold getOwnIndexedPropertySlot
    rw [Vm.object_bind]
    cases hc : (w.objects o).class_ with
    | string v => rw [hc] at hstr; exact absurd trivial hstr
    | _ => rfl
  rw [getOwnIndexedPropertySlotMethod_eq] at hmethod
  unfold getOwnProperty at hrun
  rw [Exec.bind_of_ok hmethod] at hrun
  cases hs : (w.objects o).indexed.stored i with
  | none =>
    rw [hs] at hrun
    cases hrun
  | some s =>
    rw [hs] at hrun
    refine ⟨s, rfl, fun hd => ?_⟩
    dsimp only at hrun
    rw [if_pos rfl] at hrun
    obtain ⟨d', w₂, hdesc, hret⟩ := bind_eq_ok hrun
    cases hret
    unfold StoredSlot.toDescriptor at hdesc
    rw [if_pos (show (Slot.new.set1 s.value s.attributes (some o)).stored.attributes.data = true from hd)]
      at hdesc
    cases hdesc
    rfl

theorem writesDense_of_getOwnProperty (hsound : w.SoundElements)
    (hstr : ¬ isString (w.objects o).class_) {i : ℕ} {d : PropertyDescriptor}
    (hrun : getOwnProperty o (.index i) w = .ok (some d) w') (hobj : w₁.objects = w.objects)
    {f : PropertyDescriptor → PropertyDescriptor} (hf : KeepsValue f) : WritesDense w₁ o i (f d) := by
  intro hd hi
  rw [hobj] at hd
  obtain ⟨s, hs, hval⟩ := value_of_getOwnProperty hstr hrun
  rw [(hsound o).stored_vector hd hi] at hs
  split at hs
  · cases hs
  · next hne =>
    cases hs
    rw [hf.fst, hval rfl]
    exact .inr fun hc => hne (isEmpty_iff.mpr hc)

theorem length_of_getOwnProperty (hc : (w.objects o).class_ = .array) {d : PropertyDescriptor}
    (hrun : getOwnProperty o Symbol.length w = .ok (some d) w') :
    d.fst = JsValue.newF64 (w.objects o).indexed.length := by
  unfold getOwnProperty at hrun
  rw [Exec.bind_of_ok (getOwnPropertySlot_length hc Slot.new)] at hrun
  dsimp only at hrun
  rw [if_pos rfl] at hrun
  cases hw : (w.objects o).indexed.writable <;> rw [hw] at hrun <;> cases hrun <;> rfl

theorem keepsOwn_redefine (h : Sane w o) (hstr : ¬ isString (w.objects o).class_)
    {f : PropertyDescriptor → PropertyDescriptor} (hf : KeepsValue f) {n : Symbol}
    (hp : Present w o n) {d : PropertyDescriptor} (hrun : getOwnProperty o n w = .ok (some d) w₁)
    (hr : Read layoutPolicy w w₁) (hdef : redefineBody o f n d w₁ w₂) :
    (Sane w₂ o ∧ ¬ isString (w₂.objects o).class_) ∧ KeepsOwn w₁ w₂ o := by
  obtain ⟨b, hdef⟩ := hdef
  have h₁ := hr.sane h
  have hp₁ := (hr.keepsOwn h.inv h.lt).present hp
  have hstr₁ : ¬ isString (w₁.objects o).class_ := by rwa [hr.objects]
  have hredefines : Redefines layoutPolicy w o n d :=
    ((Result.Sat.of_ok (reads_getOwnProperty h.inv h.lt n) hrun).2 d rfl).1
  have hguard : Guards layoutPolicy False o w₁ _ _ := guards_defineOwnProperty h₁.inv h₁.lt true trivial
    (hredefines.defineOk hf hstr (by rw [hr.objects])) False.elim
  have ht := (Result.Sat.of_ok hguard hdef).1.toTouch
  have hsound : w₂.SoundElements := by
    have := keeps_defineOwnProperty o n (f d) true w₁ h₁.sound
    rwa [hdef] at this
  refine ⟨⟨⟨ht.inv, ht.nextObject ▸ h₁.lt, hsound⟩, by rwa [ht.class_eq]⟩, ?_⟩
  obtain ⟨⟨b', slot⟩, w₃, hslot, hret⟩ := bind_eq_ok hdef
  cases hret
  have hnamed (hname : ∀ i, n ≠ .index i)
      (hslot : defineOwnNonIndexedPropertySlot o n (f d) Slot.new true w₁ = .ok (b, slot) w₂) :
      KeepsOwn w₁ w₂ o := by
    refine keepsOwn_named h₁.inv h₁.lt hname hstr₁ (fun hc hn => ?_) hp₁ hslot
    subst hn
    rw [hf.fst, hr.objects]
    exact length_of_getOwnProperty (by rwa [← hr.objects]) hrun
  cases n with
  | index i =>
    exact keepsOwn_index h₁.inv h₁.lt h₁.sound hstr₁
      (writesDense_of_getOwnProperty h.sound hstr hrun hr.objects hf) hslot
  | key t | priv t => exact hnamed (by simp) hslot

theorem unwraps_redefine (h : Sane w o) (hstr : ¬ isString (w.objects o).class_)
    {f : PropertyDescriptor → PropertyDescriptor} (hf : KeepsValue f) {names : List Symbol}
    (hp : ∀ n ∈ names, Present w o n) : Unwraps o (redefineBody o f) names w :=
  unwraps_of_step (J := fun w => Sane w o ∧ ¬ isString (w.objects o).class_) (fun _ h => h.1)
    (fun _ _ _ _ _ h hp hrun hr hbody => keepsOwn_redefine h.1 h.2 hf hp hrun hr hbody) names
    ⟨h, hstr⟩ hp

/-! ### Copying -/

/-- What is known throughout the loop of `copy`. -/
structure Copying (w : World) (source target : ℕ) : Prop extends Sane w source where
  target_lt : target < w.nextObject
  target_ne : source ≠ target
  class_eq : (w.objects target).class_ = (w.objects source).class_
  plain : ¬ isString (w.objects source).class_

theorem unwraps_copy {source target : ℕ} (h : Copying w source target) {names : List Symbol}
    (hp : ∀ n ∈ names, Present w source n) : Unwraps source (copyBody target) names w := by
  refine unwraps_of_step (J := fun w => Copying w source target) (fun _ h => h.toSane) ?_ names h hp
  rintro w n d w₁ w₂ h hp hrun hr ⟨b, hdef⟩
  have h₁ := hr.sane h.toSane
  have ht₁ : target < w₁.nextObject := hr.nextObject ▸ h.target_lt
  have hredefines : Redefines layoutPolicy w source n d :=
    ((Result.Sat.of_ok (reads_getOwnProperty h.inv h.lt n) hrun).2 d rfl).1
  have hok : DefineOk layoutPolicy w₁ target n d :=
    hredefines.defineOk (f := id) ⟨fun _ => rfl, fun _ => rfl, fun _ => rfl, fun _ => rfl⟩ h.plain
      (by rw [hr.objects]; exact h.class_eq)
  have hguard : Guards layoutPolicy False target w₁ _ _ :=
    guards_defineOwnProperty h₁.inv ht₁ false trivial hok False.elim
  have ht := (Result.Sat.of_ok hguard.touches.expectOk hdef).1
  have hsame := ht.frame source h₁.lt h.target_ne
  have hsound : w₂.SoundElements := by
    have := keeps_expectOk (keeps_defineOwnProperty target n d false) w₁ h₁.sound
    rwa [hdef] at this
  refine ⟨⟨⟨ht.inv, ht.nextObject ▸ h₁.lt, hsound⟩, ht.nextObject ▸ ht₁, h.target_ne, ?_, ?_⟩,
    .of_eq (by rw [hsame.object]) (storedOwn_congr hsame.table hsame.object)⟩
  · rw [ht.class_eq, ht.class_eq, hr.objects]
    exact h.class_eq
  · rw [ht.class_eq, hr.objects]
    exact h.plain

/-! ### Exactness -/

/-- `get_own_property_names` lists the own keys of object `o` exactly, and the loops over them find every
key. -/
structure ExactNames (w : World) (o : ℕ) : Prop where
  all : ∃ names w', getOwnPropertyNames o true w = .ok names w' ∧ names.Nodup ∧
    (∀ n, n ∈ names ↔ Owns w o n) ∧
    (∀ n ∈ names, ∃ d w'', getOwnProperty o n w' = .ok (some d) w'') ∧
    Unwraps o testBody names w' ∧
    ((Op.on o .freeze).KeepsSlots w → Unwraps o (redefineBody o frozen) names w') ∧
    ((Op.on o .seal_).KeepsSlots w → Unwraps o (redefineBody o sealed) names w')
  enumerable : ∃ names w', getOwnPropertyNames o false w = .ok names w' ∧ names.Nodup ∧
    ∀ n, n ∈ names ↔ OwnsEnumerable w o n
  copy : (Op.copy o).KeepsSlots w → ∀ target w₁ names w₂,
    JsObject.new (w.objects o).structure_ (w.objects o).class_ w = .ok target w₁ →
    getOwnPropertyNames o true w₁ = .ok names w₂ → Unwraps o (copyBody target) names w₂

theorem present_of_mem (h : Sane w o) (hl : w.hashOrder.Lawful) (hf : NamesFit w o) {all : Bool}
    {n : Symbol} (hn : n ∈ ownNames w o all) : Present w o n := by
  refine ⟨hf.not_pastText n, ?_⟩
  rcases (mem_ownNames h.inv h.lt h.sound hl hf all n).mp hn with ⟨hs, -⟩ | ⟨s, hs, -⟩
  · exact .inl hs
  · refine .inr ⟨s, hs, ?_⟩
    have hnamed (hname : ∀ i, n ≠ .index i) : Filled s := by
      rw [storedOwn_of_not_index hname] at hs
      exact hf.filled n s hs
    cases n with
    | index i => exact (h.sound o).filled hs
    | key t | priv t => exact hnamed (by simp)

theorem NamesFit.congr (hf : NamesFit w o) (htable : w'.table o = w.table o)
    (hobj : w'.objects o = w.objects o) : NamesFit w' o := by
  constructor
  · rw [hobj]; exact hf.text
  · rw [hobj]; exact hf.covered
  · rw [hobj]; exact hf.within
  · rw [hobj, htable]; exact hf.named
  · rw [hobj, htable]; exact hf.filled

theorem NamesFit.exact (h : Sane w o) (hl : w.hashOrder.Lawful) (hf : NamesFit w o) :
    ExactNames w o := by
  have hnodup := nodup_ownNames h.inv h.lt h.sound hl hf
  constructor
  case all =>
    obtain ⟨w', hr, hrun⟩ := getOwnPropertyNames_eq h.inv h.lt true
    have hsane := hr.sane h
    have hp : ∀ n ∈ ownNames w o true, Present w' o n := fun n hn =>
      (hr.keepsOwn h.inv h.lt).present (present_of_mem h hl hf hn)
    refine ⟨_, w', hrun, hnodup true, fun n => ?_, fun n hn => ?_, unwraps_test hsane hp, ?_, ?_⟩
    · rw [mem_ownNames h.inv h.lt h.sound hl hf, owns_iff h.inv h.lt]
      simp only [hf.not_pastText n, not_false_iff, true_and, true_or, and_true, Bool.true_or,
        Option.isSome_iff_exists]
    · obtain ⟨d, w'', -, hget⟩ := getOwnProperty_of_present hsane.inv hsane.lt (hp n hn)
      exact ⟨d, w'', hget⟩
    · exact fun hk => unwraps_redefine hsane (by rw [hr.objects]; exact hk) keepsValue_frozen hp
    · exact fun hk => unwraps_redefine hsane (by rw [hr.objects]; exact hk) keepsValue_sealed hp
  case enumerable =>
    obtain ⟨w', hr, hrun⟩ := getOwnPropertyNames_eq h.inv h.lt false
    refine ⟨_, w', hrun, hnodup false, fun n => ?_⟩
    rw [mem_ownNames h.inv h.lt h.sound hl hf, ownsEnumerable_iff h.inv h.lt]
    simp only [hf.not_pastText n, not_false_iff, true_and, Bool.false_eq_true, false_or,
      Bool.false_or]
    refine or_congr_right ⟨fun ⟨s, hs, he⟩ => ⟨hf.not_special h.sound hs, s, hs, he⟩, fun hs => hs.2⟩
  case copy =>
    rintro ⟨hshared, hstr⟩ target w₁ names w₂ hnew hnames
    obtain ⟨hg, htarget, hnext, hclass⟩ := Result.Sat.of_ok (grows_newObject (P := layoutPolicy) h.inv
      trivial (h.inv.live h.lt).1 hshared False.elim) hnew
    have hsame := hg.frame o h.lt
    have hsane₁ : Sane w₁ o := by
      refine ⟨hg.inv, lt_of_lt_of_le h.lt hg.nextObject_le, ?_⟩
      have := keeps_new (w.objects o).structure_ (w.objects o).class_ w h.sound
      rwa [hnew] at this
    have horder : w₁.hashOrder = w.hashOrder := by
      cases hnew
      rfl
    have hf₁ : NamesFit w₁ o := hf.congr hsame.table hsame.object
    obtain ⟨w₃, hr, hrun⟩ := getOwnPropertyNames_eq hsane₁.inv hsane₁.lt true
    cases hrun.symm.trans hnames
    have hp : ∀ n ∈ ownNames w₁ o true, Present w₂ o n := fun n hn =>
      (hr.keepsOwn hsane₁.inv hsane₁.lt).present (present_of_mem hsane₁ (horder ▸ hl) hf₁ hn)
    refine unwraps_copy ⟨hr.sane hsane₁, ?_, ?_, ?_, ?_⟩ hp
    · rw [hr.nextObject]
      omega
    · have := h.lt
      omega
    · rw [hr.objects, hclass, hsame.object]
    · rw [hr.objects, hsame.object]
      exact hstr

theorem disjoint_of_nodup {α : Type} {s d m t : List α} (h : (s ++ d ++ m ++ t).Nodup) {a : α} :
    (a ∈ s → a ∉ d ∧ a ∉ m ∧ a ∉ t) ∧ (a ∈ d → a ∉ t) ∧ (a ∈ m → a ∉ t) := by
  simp only [List.nodup_append, List.mem_append] at h
  obtain ⟨⟨⟨-, -, hsd⟩, -, hm⟩, -, ht⟩ := h
  exact ⟨fun hs => ⟨fun hd => hsd a hs a hd rfl, fun hm' => hm a (.inl hs) a hm' rfl,
    fun ht' => ht a (.inl (.inl hs)) a ht' rfl⟩, fun hd ht' => ht a (.inl (.inr hd)) a ht' rfl,
    fun hm' ht' => ht a (.inr hm') a ht' rfl⟩

theorem ExactNames.fit (h : Sane w o) (hl : w.hashOrder.Lawful) (he : ExactNames w o) :
    NamesFit w o := by
  obtain ⟨names, w', hrun, hnodup, hmem, hget, -⟩ := he.all
  obtain ⟨w'', hr, hrun'⟩ := getOwnPropertyNames_eq h.inv h.lt true
  cases hrun.symm.trans hrun'
  have hparts := fun n => disjoint_of_nodup (a := n) hnodup
  have hlist : ∀ n, n ∈ ownNames w o true ↔ n ∈ specialNames (w.objects o) true ∨
      n ∈ denseNames (w.objects o).indexed ∨ n ∈ sparseNames w.hashOrder (w.objects o).indexed true ∨
        n ∈ tableNames w.hashOrder (w.table o) true := fun n => by
    unfold ownNames
    simp only [List.mem_append, or_assoc]
  have howns : ∀ n, n ∈ ownNames w o true → ¬ (w.objects o).PastText n ∧
      ((w.objects o).Special n ∨ (storedOwn w o n).isSome) := fun n hn =>
    (owns_iff h.inv h.lt n).mp ((hmem n).mp hn)
  have hspecial : ∀ {n}, (w.objects o).Special n → n ∈ specialNames (w.objects o) true := fun hs =>
    mem_specialNames.mpr ⟨hs, .inl rfl⟩
  have hdense : ∀ {i}, (w.objects o).indexed.vector.getD i .empty ≠ .empty →
      Symbol.index i ∈ denseNames (w.objects o).indexed := fun {i} hne =>
    mem_denseNames.mpr ⟨i, rfl, ((h.sound o).vector i hne).1, hne⟩
  have hsparse : ∀ {i s}, (w.objects o).indexed.sparse i = some s →
      Symbol.index i ∈ sparseNames w.hashOrder (w.objects o).indexed true := fun {i s} hs =>
    (mem_sparseNames hl).mpr ⟨i, s, rfl, hs, rfl⟩
  have htable : ∀ {n}, n ∈ w.table o → n ∈ tableNames w.hashOrder (w.table o) true := fun hn => by
    obtain ⟨e, hn⟩ := Finmap.mem_iff.mp hn
    exact (mem_tableNames hl).mpr ⟨e, hn, rfl⟩
  have hcovered : ∀ i, (w.objects o).InText i →
      (w.objects o).indexed.vector.getD i .empty = .empty ∧
        (w.objects o).indexed.sparse i = none := by
    intro i hi
    obtain ⟨hd, hm, -⟩ := (hparts (.index i)).1 (hspecial hi)
    refine ⟨?_, ?_⟩
    · by_contra hne
      exact hd (hdense hne)
    · cases hs : (w.objects o).indexed.sparse i with
      | none => rfl
      | some s => exact absurd (hsparse hs) hm
  have hwithin : ∀ i s, (w.objects o).indexed.sparse i = some s →
      i < (w.objects o).indexed.length := by
    intro i s hs
    rcases (howns _ ((hlist _).mpr (.inr (.inr (.inl (hsparse hs)))))).2 with hsp | hst
    · rw [(hcovered i hsp).2] at hs
      cases hs
    · obtain ⟨s', hs'⟩ := Option.isSome_iff_exists.mp hst
      exact (h.sound o).lt_of_stored hs'
  have hnamed : ∀ n, n ∈ w.table o → (∀ i, n ≠ .index i) ∧ ¬ (w.objects o).Special n := by
    intro n hn
    have hsp : ¬ (w.objects o).Special n := fun hs => ((hparts n).1 (hspecial hs)).2.2 (htable hn)
    refine ⟨?_, hsp⟩
    rintro i rfl
    -- an index in the table is not found, or it is listed a second time
    have hst := ((howns _ ((hlist _).mpr (.inr (.inr (.inr (htable hn)))))).2).resolve_left hsp
    obtain ⟨s, hs⟩ := Option.isSome_iff_exists.mp hst
    rcases ((h.sound o).stored_eq_some_iff hwithin).mp hs with ⟨hne, -⟩ | hs
    · exact (hparts _).2.1 (hdense hne) (htable hn)
    · exact (hparts _).2.2 (hsparse hs) (htable hn)
  refine ⟨?_, hcovered, hwithin, hnamed, ?_⟩
  · intro text hc
    by_contra hlt
    have hlt : text.toList.length < text.utf8ByteSize := by omega
    exact (howns _ ((hlist (.index text.toList.length)).mpr (.inl (hspecial ⟨text, hc, hlt⟩)))).1
      ⟨text, _, rfl, hc, hlt, le_rfl⟩
  · intro n s hs
    obtain ⟨e, hlook, -⟩ := Option.bind_eq_some_iff.mp hs
    obtain ⟨hname, hsp⟩ := hnamed n (Finmap.mem_of_lookup_eq_some hlook)
    have hin := (hlist n).mpr (.inr (.inr (.inr (htable (Finmap.mem_of_lookup_eq_some hlook)))))
    obtain ⟨d, w₃, hd⟩ := hget n hin
    have hp := present_of_getOwnProperty hr.inv (hr.nextObject ▸ h.lt) hd
    have hsp' : ¬ (w'.objects o).Special n := by rwa [hr.objects]
    obtain ⟨s', hs', hfill⟩ := hp.2.resolve_left hsp'
    rw [storedOwn_congr (hr.table h.inv h.lt) (by rw [hr.objects]), storedOwn_of_not_index hname, hs]
      at hs'
    cases hs'
    exact hfill

theorem Reachable.sane (h : Reachable (fun w op => op.KeepsSlots w) w) (ho : o < w.nextObject) :
    Sane w o :=
  ⟨h.layout_inv, ho, h.soundElements⟩

/-- Hash maps visited in some order, each entry once. -/
noncomputable def someOrder : HashOrder := ⟨fun t => t.keys.toList, fun m => m.keys.toList⟩

theorem lawful_someOrder : someOrder.Lawful where
  names_nodup t := t.keys.nodup_toList
  mem_names t n := by rw [someOrder, Finset.mem_toList, Finmap.mem_keys]
  indices_nodup m := m.keys.nodup_toList
  mem_indices m i := by rw [someOrder, Finset.mem_toList, Finmap.mem_keys]

/-- An object of a class, alone in its heap. -/
noncomputable def loneWorld (class_ : Class) : World :=
  ((World.init someOrder).after (.newStructure none false)).after (.newObject 0 class_)

theorem reachable_loneWorld (class_ : Class) :
    Reachable (fun w op => op.KeepsSlots w) (loneWorld class_) := by
  have h₀ : Reachable (fun w op => op.KeepsSlots w) (World.init someOrder) := ⟨_, .refl⟩
  have h₁ := h₀.step (.newStructure none false) (fun _ hp => by cases hp) trivial rfl
  exact h₁.step (.newObject 0 class_) (show 0 < 1 by decide) (show _ = true from rfl) rfl

end Starlight
