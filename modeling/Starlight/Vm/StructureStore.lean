import Starlight.Vm.StructureInvariant

/-!
# The cell updates of the structure store

Every structure operation is a short sequence of four kinds of update: a new cell (`alloc`), the
building of a table (`allocateTable`), a change to the fields of a cell that say nothing about its
properties, and an edit of the table of a held unique structure.
-/

namespace Starlight

namespace Shapes

variable {σ : Shapes} {L : ℕ → Prop}

/-! ### Reading updated cells -/

@[simp] theorem structures_modifyStructure_self (σ : Shapes) (s : ℕ) (f : Structure → Structure) :
    (σ.modifyStructure s f).structures s = f (σ.structures s) := by
  simp [modifyStructure]

theorem structures_modifyStructure_ne (σ : Shapes) {s r : ℕ} (h : r ≠ s)
    (f : Structure → Structure) : (σ.modifyStructure s f).structures r = σ.structures r := by
  simp [modifyStructure, h]

@[simp] theorem tables_modifyStructure (σ : Shapes) (s : ℕ) (f : Structure → Structure) :
    (σ.modifyStructure s f).tables = σ.tables := rfl

@[simp] theorem nextStructure_modifyStructure (σ : Shapes) (s : ℕ) (f : Structure → Structure) :
    (σ.modifyStructure s f).nextStructure = σ.nextStructure := rfl

@[simp] theorem alloc_fst (σ : Shapes) (st : Structure) : (σ.alloc st).1 = σ.nextStructure := rfl

@[simp] theorem structures_alloc_new (σ : Shapes) (st : Structure) :
    (σ.alloc st).2.structures σ.nextStructure = st := by
  simp [alloc]

theorem structures_alloc_of_lt (σ : Shapes) (st : Structure) {r : ℕ} (h : r < σ.nextStructure) :
    (σ.alloc st).2.structures r = σ.structures r := by
  simp [alloc, Nat.ne_of_lt h]

@[simp] theorem tables_alloc (σ : Shapes) (st : Structure) : (σ.alloc st).2.tables = σ.tables := rfl

@[simp] theorem nextStructure_alloc (σ : Shapes) (st : Structure) :
    (σ.alloc st).2.nextStructure = σ.nextStructure + 1 := rfl

theorem modifyStructure_alloc (σ : Shapes) (st : Structure) (f : Structure → Structure) :
    (σ.alloc st).2.modifyStructure σ.nextStructure f = (σ.alloc (f st)).2 := by
  simp [alloc, modifyStructure]

/-! ### New cells -/

/-- The property table that a cell with the contents `st` stands for. -/
def denote (σ : Shapes) (st : Structure) : TargetTable :=
  match st.table with
  | some t => σ.tables t
  | none =>
    match st.previous with
    | none => ∅
    | some p =>
      match st.added with
      | some it => (σ.view p).insert it.1 it.2
      | none => σ.view p

theorem view_eq_denote (h : σ.Acyclic) {s : ℕ} (hs : s < σ.nextStructure) :
    σ.view s = σ.denote (σ.structures s) := by
  unfold denote
  cases ht : (σ.structures s).table with
  | some t => exact view_of_table ht
  | none =>
    cases hp : (σ.structures s).previous with
    | none => exact view_root ht hp
    | some p => exact view_of_previous h hs ht hp

theorem acyclic_alloc (h : σ.Acyclic) {st : Structure}
    (hprev : ∀ p, st.previous = some p → p < σ.nextStructure) : (σ.alloc st).2.Acyclic := by
  intro s p hs hp
  rw [nextStructure_alloc] at hs
  rcases Nat.lt_succ_iff_lt_or_eq.mp hs with hs | rfl
  · rw [structures_alloc_of_lt _ _ hs] at hp; exact h hs hp
  · rw [structures_alloc_new] at hp; exact hprev p hp

theorem view_alloc_of_lt (h : σ.Acyclic) (st : Structure) {r : ℕ} (hr : r < σ.nextStructure) :
    (σ.alloc st).2.view r = σ.view r := by
  refine view_congr (fun r => r < σ.nextStructure) (fun r hr => ?_)
    (fun _ _ _ _ => by rw [tables_alloc]) (fun r p hr _ hp => ?_) hr
  · rw [structures_alloc_of_lt _ _ hr]; exact ⟨rfl, rfl, rfl⟩
  · have := h hr hp; omega

theorem view_alloc_new (h : σ.Acyclic) {st : Structure}
    (hprev : ∀ p, st.previous = some p → p < σ.nextStructure) :
    (σ.alloc st).2.view σ.nextStructure = σ.denote st := by
  rw [view_eq_denote (acyclic_alloc h hprev) (by simp), structures_alloc_new]
  unfold denote
  cases st.table with
  | some t => rfl
  | none =>
    cases hp : st.previous with
    | none => rfl
    | some p => simp only [view_alloc_of_lt h st (hprev p hp)]

/-- What the contents of a new cell must satisfy, when `L'` are the structures held afterwards. -/
structure NewCell (σ : Shapes) (L' : ℕ → Prop) (st : Structure) : Prop where
  prev_lt : ∀ p, st.previous = some p → p < σ.nextStructure
  table_lt : ∀ t, st.table = some t → t < σ.nextTable
  added_fresh : ∀ it, st.table = none → st.added = some it →
    ∃ p, st.previous = some p ∧ it.1 ∉ σ.view p
  anchored : ∀ p, st.table = none → st.previous = some p →
    σ.Shared p ∨ (¬ L' p ∧ (σ.structures p).table = none)
  excl : ∀ r t, σ.Live L' r → st.table = some t → (σ.structures r).table ≠ some t
  size : st.table = none → st.calculatedSize = tableLen (σ.denote st) + st.deleted.length
  layout : SlotLayout MapEntry.offset (σ.denote st) st.deleted
  typed : ∀ n e, (σ.denote st).lookup n = some e → e.attrs.Typed
  shared_deleted : st.transitions.enabled = true → st.deleted = []
  no_transition : ∀ n a, st.transitions.find n a = none
  not_flattened : st.transitions.unique = false

theorem shared_alloc_of_lt (st : Structure) {r : ℕ} (hr : r < σ.nextStructure) :
    (σ.alloc st).2.Shared r ↔ σ.Shared r := by
  rw [Shared, structures_alloc_of_lt _ _ hr, Shared]

theorem Inv.alloc (h : σ.Inv L) {L' : ℕ → Prop} {st : Structure}
    (hL : ∀ s, L' s → s = σ.nextStructure ∨ L s) (hst : σ.NewCell L' st) :
    (σ.alloc st).2.Inv L' := by
  have hac := acyclic_alloc h.acyclic hst.prev_lt
  have hv : ∀ {r}, r < σ.nextStructure → (σ.alloc st).2.view r = σ.view r :=
    view_alloc_of_lt h.acyclic st
  have hvn := view_alloc_new h.acyclic hst.prev_lt
  have old : ∀ {s}, s < σ.nextStructure → (σ.alloc st).2.Live L' s → σ.Live L s := by
    intro s hs hl
    refine ⟨hs, hl.2.imp (shared_alloc_of_lt st hs).mp fun hl => ?_⟩
    exact (hL s hl).resolve_left (by omega)
  have old' : ∀ {s}, s < σ.nextStructure → (σ.alloc st).2.Live L' s → σ.Live L' s :=
    fun hs hl => ⟨hs, hl.2.imp_left (shared_alloc_of_lt st hs).mp⟩
  have cases_lt : ∀ {s}, s < (σ.alloc st).2.nextStructure →
      s < σ.nextStructure ∨ s = σ.nextStructure := by
    intro s hs; rw [nextStructure_alloc] at hs; omega
  constructor
  case acyclic => exact hac
  case held_lt =>
    intro s hs
    rw [nextStructure_alloc]
    rcases hL s hs with rfl | hs
    · omega
    · have := h.held_lt hs; omega
  case table_lt =>
    intro s t hs ht
    rcases cases_lt hs with hs | rfl
    · rw [structures_alloc_of_lt _ _ hs] at ht; exact h.table_lt hs ht
    · rw [structures_alloc_new] at ht; exact hst.table_lt t ht
  case added_fresh =>
    intro s it hs ht ha
    rcases cases_lt hs with hs | rfl
    · rw [structures_alloc_of_lt _ _ hs] at ht ha ⊢
      obtain ⟨p, hp, hfresh⟩ := h.added_fresh hs ht ha
      have := h.acyclic hs hp
      exact ⟨p, hp, by rwa [hv (by omega)]⟩
    · rw [structures_alloc_new] at ht ha ⊢
      obtain ⟨p, hp, hfresh⟩ := hst.added_fresh it ht ha
      exact ⟨p, hp, by rwa [hv (hst.prev_lt p hp)]⟩
  case anchored =>
    intro s p hs ht hp
    rcases cases_lt hs with hs | rfl
    · rw [structures_alloc_of_lt _ _ hs] at ht hp
      have hlt := h.acyclic hs hp
      rw [shared_alloc_of_lt _ (by omega), structures_alloc_of_lt _ _ (by omega)]
      refine (h.anchored hs ht hp).imp_right fun ⟨hn, htp⟩ => ⟨fun hl => ?_, htp⟩
      rcases hL p hl with rfl | hl
      · omega
      · exact hn hl
    · rw [structures_alloc_new] at ht hp
      have hlt := hst.prev_lt p hp
      rw [shared_alloc_of_lt _ hlt, structures_alloc_of_lt _ _ hlt]
      exact hst.anchored p ht hp
  case excl =>
    intro r s t hr hs htr hts
    rcases cases_lt hr.1 with hrl | rfl <;> rcases cases_lt hs.1 with hsl | rfl
    · rw [structures_alloc_of_lt _ _ hrl] at htr
      rw [structures_alloc_of_lt _ _ hsl] at hts
      exact h.excl (old hrl hr) (old hsl hs) htr hts
    · rw [structures_alloc_of_lt _ _ hrl] at htr
      rw [structures_alloc_new] at hts
      exact absurd htr (hst.excl r t (old' hrl hr) hts)
    · rw [structures_alloc_of_lt _ _ hsl] at hts
      rw [structures_alloc_new] at htr
      exact absurd hts (hst.excl s t (old' hsl hs) htr)
    · rfl
  case size =>
    intro s hs ht
    rcases cases_lt hs.1 with hsl | rfl
    · rw [structures_alloc_of_lt _ _ hsl] at ht ⊢
      rw [hv hsl]; exact h.size (old hsl hs) ht
    · rw [structures_alloc_new] at ht ⊢
      rw [hvn]; exact hst.size ht
  case layout =>
    intro s hs
    rcases cases_lt hs.1 with hsl | rfl
    · rw [structures_alloc_of_lt _ _ hsl, hv hsl]; exact h.layout (old hsl hs)
    · rw [structures_alloc_new, hvn]; exact hst.layout
  case typed =>
    intro s n e hs he
    rcases cases_lt hs.1 with hsl | rfl
    · rw [hv hsl] at he; exact h.typed (old hsl hs) he
    · rw [hvn] at he; exact hst.typed n e he
  case shared_deleted =>
    intro s hs hsh
    rcases cases_lt hs with hsl | rfl
    · rw [shared_alloc_of_lt _ hsl] at hsh
      rw [structures_alloc_of_lt _ _ hsl]; exact h.shared_deleted hsl hsh
    · rw [structures_alloc_new]
      rw [Shared, structures_alloc_new] at hsh
      exact hst.shared_deleted hsh
  case transition =>
    intro s m n a hs hsh hf
    rcases cases_lt hs with hsl | rfl
    · rw [shared_alloc_of_lt _ hsl] at hsh
      rw [structures_alloc_of_lt _ _ hsl] at hf
      obtain ⟨hm, hmsh, hadd, hmv⟩ := h.transition hsl hsh hf
      rw [hv hsl, hv hm, shared_alloc_of_lt _ hm, structures_alloc_of_lt _ _ hm,
        structures_alloc_of_lt _ _ hsl]
      exact ⟨by rw [nextStructure_alloc]; omega, hmsh, hadd, hmv⟩
    · rw [structures_alloc_new, hst.no_transition] at hf; cases hf
  case not_flattened =>
    intro s hs
    rcases cases_lt hs with hsl | rfl
    · rw [structures_alloc_of_lt _ _ hsl]; exact h.not_flattened hsl
    · rw [structures_alloc_new]; exact hst.not_flattened

/-! ### Fields that say nothing about properties -/

/-- `f` keeps the fields of `st` from which its properties are read. -/
structure SameProperties (st st' : Structure) : Prop where
  table : st'.table = st.table
  previous : st'.previous = st.previous
  added : st'.added = st.added
  deleted : st'.deleted = st.deleted
  calculatedSize : st'.calculatedSize = st.calculatedSize
  enabled : st'.transitions.enabled = st.transitions.enabled
  unique : st'.transitions.unique = st.transitions.unique

theorem view_modifyStructure {s : ℕ} {f : Structure → Structure}
    (hf : SameProperties (σ.structures s) (f (σ.structures s))) (r : ℕ) :
    (σ.modifyStructure s f).view r = σ.view r := by
  refine view_congr (fun _ => True) (fun r _ => ?_) (fun _ _ _ _ => by rw [tables_modifyStructure])
    (fun _ _ _ _ _ => trivial) trivial
  by_cases hr : r = s
  · subst hr
    rw [structures_modifyStructure_self]
    exact ⟨hf.table, hf.previous, hf.added⟩
  · rw [structures_modifyStructure_ne _ hr]; exact ⟨rfl, rfl, rfl⟩

theorem shared_modifyStructure {s : ℕ} {f : Structure → Structure}
    (hf : SameProperties (σ.structures s) (f (σ.structures s))) (r : ℕ) :
    (σ.modifyStructure s f).Shared r ↔ σ.Shared r := by
  by_cases hr : r = s
  · subst hr; rw [Shared, structures_modifyStructure_self, hf.enabled, Shared]
  · rw [Shared, structures_modifyStructure_ne _ hr, Shared]

/-- Changing such fields keeps the invariant, provided the transitions of the changed cell still
lead to structures that add their property just past the end. -/
theorem Inv.modifyStructure (h : σ.Inv L) {s : ℕ} {f : Structure → Structure}
    (hf : SameProperties (σ.structures s) (f (σ.structures s)))
    (htr : ∀ {m n a}, σ.Shared s → (f (σ.structures s)).transitions.find n a = some m →
      m < σ.nextStructure ∧ σ.Shared m ∧
        (σ.structures m).added = some (n, ⟨tableLen (σ.view s), a⟩) ∧
        σ.view m = (σ.view s).insert n ⟨tableLen (σ.view s), a⟩ ∧
        (σ.structures m).prototype = (σ.structures s).prototype)
    (hpr : σ.Shared s → (f (σ.structures s)).prototype = (σ.structures s).prototype) :
    (σ.modifyStructure s f).Inv L := by
  have hv := view_modifyStructure hf
  have hsh := shared_modifyStructure hf
  have hlive : ∀ r, (σ.modifyStructure s f).Live L r ↔ σ.Live L r := by
    intro r; rw [Live, Live, hsh, nextStructure_modifyStructure]
  -- every field that the invariant reads is the same in all cells
  have cell : ∀ r, SameProperties (σ.structures r) ((σ.modifyStructure s f).structures r) := by
    intro r
    by_cases hr : r = s
    · subst hr; rw [structures_modifyStructure_self]; exact hf
    · rw [structures_modifyStructure_ne _ hr]; exact ⟨rfl, rfl, rfl, rfl, rfl, rfl, rfl⟩
  constructor
  case acyclic => intro r p hr hp; rw [(cell r).previous] at hp; exact h.acyclic hr hp
  case held_lt => exact h.held_lt
  case table_lt => intro r t hr ht; rw [(cell r).table] at ht; exact h.table_lt hr ht
  case added_fresh =>
    intro r it hr ht ha
    rw [(cell r).table] at ht
    rw [(cell r).added] at ha
    rw [(cell r).previous]
    obtain ⟨p, hp, hfresh⟩ := h.added_fresh hr ht ha
    exact ⟨p, hp, by rwa [hv]⟩
  case anchored =>
    intro r p hr ht hp
    rw [(cell r).table] at ht
    rw [(cell r).previous] at hp
    rw [hsh, (cell p).table]
    exact h.anchored hr ht hp
  case excl =>
    intro r r' t hr hr' ht ht'
    rw [(cell r).table] at ht
    rw [(cell r').table] at ht'
    exact h.excl ((hlive r).mp hr) ((hlive r').mp hr') ht ht'
  case size =>
    intro r hr ht
    rw [(cell r).table] at ht
    rw [(cell r).calculatedSize, (cell r).deleted, hv]
    exact h.size ((hlive r).mp hr) ht
  case layout => intro r hr; rw [hv, (cell r).deleted]; exact h.layout ((hlive r).mp hr)
  case typed => intro r n e hr he; rw [hv] at he; exact h.typed ((hlive r).mp hr) he
  case shared_deleted =>
    intro r hr hs
    rw [(cell r).deleted]; exact h.shared_deleted hr ((hsh r).mp hs)
  case transition =>
    intro r m n a hr hs hfind
    rw [hsh] at hs
    have proto : ∀ q, σ.Shared q →
        ((σ.modifyStructure s f).structures q).prototype = (σ.structures q).prototype := by
      intro q hq
      by_cases hqs : q = s
      · subst hqs; rw [structures_modifyStructure_self]; exact hpr hq
      · rw [structures_modifyStructure_ne _ hqs]
    have old : m < σ.nextStructure ∧ σ.Shared m ∧
        (σ.structures m).added = some (n, ⟨tableLen (σ.view r), a⟩) ∧
        σ.view m = (σ.view r).insert n ⟨tableLen (σ.view r), a⟩ ∧
        (σ.structures m).prototype = (σ.structures r).prototype := by
      by_cases hrs : r = s
      · subst hrs; rw [structures_modifyStructure_self] at hfind; exact htr hs hfind
      · rw [structures_modifyStructure_ne _ hrs] at hfind; exact h.transition hr hs hfind
    rw [nextStructure_modifyStructure, hsh, (cell m).added, hv, hv, proto r hs, proto m old.2.1]
    exact old
  case not_flattened => intro r hr; rw [(cell r).unique]; exact h.not_flattened hr

/-! ### Building a table -/

@[simp] theorem collect_none (σ : Shapes) (fuel : ℕ) (stack : List (Symbol × MapEntry)) :
    σ.collect fuel none stack = (stack, ∅) := by
  cases fuel <;> rfl

/-- Inserting what the loop of `allocate_table` collected, nearest property first, gives the view
of the structure it started from, extended by what was on the stack. -/
theorem Inv.foldl_collect (h : σ.Inv L) {p : ℕ} (hp : p < σ.nextStructure) {fuel : ℕ}
    (hf : p < fuel) {stack : List (Symbol × MapEntry)} (hfresh : ∀ it ∈ stack, it.1 ∉ σ.view p) :
    (σ.collect fuel (some p) stack).1.foldl (fun t it => t.insert it.1 it.2)
        (σ.collect fuel (some p) stack).2 =
      stack.foldl (fun t it => t.insert it.1 it.2) (σ.view p) := by
  induction fuel generalizing p stack with
  | zero => omega
  | succ fuel ih =>
    rw [collect]
    cases ht : (σ.structures p).table with
    | some t => simp only [view_of_table ht]
    | none =>
      cases hq : (σ.structures p).previous with
      | none =>
        have ha : (σ.structures p).added = none := by
          by_contra ha
          obtain ⟨it, ha⟩ := Option.ne_none_iff_exists'.mp ha
          obtain ⟨q, hq', -⟩ := h.added_fresh hp ht ha
          rw [hq] at hq'
          cases hq'
        simp [ha, view_root ht hq]
      | some q =>
        have hlt := h.acyclic hp hq
        have hview := view_of_previous h.acyclic hp ht hq
        cases ha : (σ.structures p).added with
        | none =>
          replace hview : σ.view p = σ.view q := by rw [hview, ha]
          simp only [Option.toList_none, List.append_nil]
          rw [ih (by omega) (by omega) fun it hit => hview ▸ hfresh it hit, hview]
        | some a =>
          rw [ha] at hview
          obtain ⟨q', hq', hnew⟩ := h.added_fresh hp ht ha
          obtain rfl : q = q' := by rw [hq] at hq'; exact Option.some.inj hq'
          simp only [hview, Finmap.mem_insert, not_or] at hfresh
          simp only [Option.toList_some]
          rw [ih (by omega) (by omega), List.foldl_append, List.foldl_cons, List.foldl_nil, hview,
            foldl_insert_comm]
          · intro hmem
            obtain ⟨it, hit, heq⟩ := List.mem_map.mp hmem
            exact (hfresh it hit).1 heq
          · intro it hit
            rcases List.mem_append.mp hit with hit | hit
            · exact (hfresh it hit).2
            · rw [List.mem_singleton.mp hit]; exact hnew

theorem Inv.allocateTable_eq (h : σ.Inv L) {s : ℕ} (hs : s < σ.nextStructure)
    (ht : (σ.structures s).table = none) :
    σ.allocateTable s = (σ.setNewTable s (σ.view s)).modifyStructure s
      fun st => { st with previous := none } := by
  unfold allocateTable
  dsimp only
  congr 2
  cases hp : (σ.structures s).previous with
  | none =>
    have ha : (σ.structures s).added = none := by
      by_contra ha
      obtain ⟨it, ha⟩ := Option.ne_none_iff_exists'.mp ha
      obtain ⟨q, hq', -⟩ := h.added_fresh hs ht ha
      rw [hp] at hq'
      cases hq'
    rw [collect_none, ha, view_root ht hp]
    rfl
  | some p =>
    have hlt := h.acyclic hs hp
    have hview := view_of_previous h.acyclic hs ht hp
    cases ha : (σ.structures s).added with
    | none =>
      rw [ha] at hview
      rw [Option.toList_none, h.foldl_collect (by omega) hlt (by simp), hview]
      rfl
    | some a =>
      rw [ha] at hview
      obtain ⟨p', hp', hnew⟩ := h.added_fresh hs ht ha
      obtain rfl : p = p' := by rw [hp] at hp'; exact Option.some.inj hp'
      rw [Option.toList_some, h.foldl_collect (by omega) hlt (by simpa using hnew), hview]
      rfl

/-- What building the table of `s` does: the view is put into a new cell, `s` points to it and
forgets its predecessor. -/
structure TableBuilt (σ σ' : Shapes) (s : ℕ) : Prop where
  self : σ'.structures s = { σ.structures s with table := some σ.nextTable, previous := none }
  other : ∀ r, r ≠ s → σ'.structures r = σ.structures r
  new_table : σ'.tables σ.nextTable = σ.view s
  old_table : ∀ t, t < σ.nextTable → σ'.tables t = σ.tables t
  next : σ'.nextStructure = σ.nextStructure
  nextTable : σ'.nextTable = σ.nextTable + 1

theorem Inv.tableBuilt (h : σ.Inv L) {s : ℕ} (hs : s < σ.nextStructure)
    (ht : (σ.structures s).table = none) : TableBuilt σ (σ.allocateTable s) s := by
  rw [h.allocateTable_eq hs ht]
  constructor
  case self => simp [setNewTable]
  case other => intro r hr; rw [structures_modifyStructure_ne _ hr]; simp [setNewTable, hr]
  case new_table => simp [setNewTable]
  case old_table => intro t htlt; simp [setNewTable, Nat.ne_of_lt htlt]
  case next => rfl
  case nextTable => rfl

namespace TableBuilt

variable {σ' : Shapes} {s : ℕ}

theorem shared (hb : TableBuilt σ σ' s) (r : ℕ) : σ'.Shared r ↔ σ.Shared r := by
  by_cases hr : r = s
  · subst hr; rw [Shared, hb.self, Shared]
  · rw [Shared, hb.other r hr, Shared]

theorem acyclic (hb : TableBuilt σ σ' s) (h : σ.Acyclic) : σ'.Acyclic := by
  intro r p hr hp
  rw [hb.next] at hr
  by_cases hrs : r = s
  · subst hrs; rw [hb.self] at hp; cases hp
  · rw [hb.other r hrs] at hp; exact h hr hp

theorem view (hb : TableBuilt σ σ' s) (h : σ.Inv L) {r : ℕ} (hr : r < σ.nextStructure) :
    σ'.view r = σ.view r := by
  have hac := hb.acyclic h.acyclic
  induction r using Nat.strong_induction_on with
  | _ r ih =>
    by_cases hrs : r = s
    · subst hrs
      rw [view_of_table (by rw [hb.self]), hb.new_table]
    · have hcell := hb.other r hrs
      have hr' : r < σ'.nextStructure := by rw [hb.next]; exact hr
      cases ht : (σ.structures r).table with
      | some t =>
        rw [view_of_table (hcell ▸ ht), view_of_table ht, hb.old_table t (h.table_lt hr ht)]
      | none =>
        cases hp : (σ.structures r).previous with
        | none => rw [view_root (hcell ▸ ht) (hcell ▸ hp), view_root ht hp]
        | some p =>
          have hlt := h.acyclic hr hp
          rw [view_of_previous hac hr' (hcell ▸ ht) (hcell ▸ hp),
            view_of_previous h.acyclic hr ht hp, hcell, ih p hlt (by omega)]

theorem inv (hb : TableBuilt σ σ' s) (h : σ.Inv L) (hs : σ.Live L s) : σ'.Inv L := by
  have hsh := hb.shared
  have hv : ∀ {r}, r < σ.nextStructure → σ'.view r = σ.view r := fun hr => hb.view h hr
  have hlive : ∀ {r}, σ'.Live L r → σ.Live L r := by
    rintro r ⟨hr, hl⟩; exact ⟨hb.next ▸ hr, hl.imp_left (hsh r).mp⟩
  constructor
  case acyclic => exact hb.acyclic h.acyclic
  case held_lt => intro r hr; rw [hb.next]; exact h.held_lt hr
  case table_lt =>
    intro r t hr ht
    rw [hb.next] at hr
    rw [hb.nextTable]
    by_cases hrs : r = s
    · subst hrs; rw [hb.self] at ht; cases ht; omega
    · rw [hb.other r hrs] at ht; have := h.table_lt hr ht; omega
  case added_fresh =>
    intro r it hr ht ha
    rw [hb.next] at hr
    by_cases hrs : r = s
    · subst hrs; rw [hb.self] at ht; cases ht
    · rw [hb.other r hrs] at ht ha ⊢
      obtain ⟨p, hp, hnew⟩ := h.added_fresh hr ht ha
      have := h.acyclic hr hp
      exact ⟨p, hp, by rwa [hv (by omega)]⟩
  case anchored =>
    intro r p hr ht hp
    rw [hb.next] at hr
    by_cases hrs : r = s
    · subst hrs; rw [hb.self] at ht; cases ht
    · rw [hb.other r hrs] at ht hp
      rw [hsh]
      by_cases hps : p = s
      · -- an abandoned predecessor is not live, so `s` can only be a shared one
        subst hps
        refine .inl ((h.anchored hr ht hp).elim id fun ⟨hn, _⟩ => ?_)
        exact hs.2.resolve_right hn
      · rw [hb.other p hps]; exact h.anchored hr ht hp
  case excl =>
    intro r r' t hr hr' ht ht'
    by_cases hrs : r = s <;> by_cases hrs' : r' = s
    · rw [hrs, hrs']
    · subst hrs
      rw [hb.self] at ht
      rw [hb.other r' hrs'] at ht'
      cases ht
      exact absurd (h.table_lt (hlive hr').1 ht') (lt_irrefl _)
    · subst hrs'
      rw [hb.self] at ht'
      rw [hb.other r hrs] at ht
      cases ht'
      exact absurd (h.table_lt (hlive hr).1 ht) (lt_irrefl _)
    · rw [hb.other r hrs] at ht
      rw [hb.other r' hrs'] at ht'
      exact h.excl (hlive hr) (hlive hr') ht ht'
  case size =>
    intro r hr ht
    have hr := hlive hr
    by_cases hrs : r = s
    · subst hrs; rw [hb.self] at ht; cases ht
    · rw [hb.other r hrs] at ht ⊢; rw [hv hr.1]; exact h.size hr ht
  case layout =>
    intro r hr
    have hr := hlive hr
    have hdel : (σ'.structures r).deleted = (σ.structures r).deleted := by
      by_cases hrs : r = s
      · subst hrs; rw [hb.self]
      · rw [hb.other r hrs]
    rw [hv hr.1, hdel]
    exact h.layout hr
  case typed => intro r n e hr he; rw [hv (hlive hr).1] at he; exact h.typed (hlive hr) he
  case shared_deleted =>
    intro r hr hrs
    rw [hb.next] at hr
    rw [hsh] at hrs
    by_cases hr' : r = s
    · subst hr'; rw [hb.self]; exact h.shared_deleted hr hrs
    · rw [hb.other r hr']; exact h.shared_deleted hr hrs
  case transition =>
    intro r m n a hr hrs hf
    rw [hb.next] at hr
    rw [hsh] at hrs
    have hcells : ∀ q, (σ'.structures q).transitions = (σ.structures q).transitions ∧
        (σ'.structures q).added = (σ.structures q).added ∧
        (σ'.structures q).prototype = (σ.structures q).prototype := by
      intro q
      by_cases hq : q = s
      · subst hq; rw [hb.self]; exact ⟨rfl, rfl, rfl⟩
      · rw [hb.other q hq]; exact ⟨rfl, rfl, rfl⟩
    rw [(hcells r).1] at hf
    obtain ⟨hm, hmsh, hadd, hmv⟩ := h.transition hr hrs hf
    rw [hb.next, hsh, (hcells m).2.1, (hcells m).2.2, (hcells r).2.2, hv hr, hv hm]
    exact ⟨hm, hmsh, hadd, hmv⟩
  case not_flattened =>
    intro r hr
    rw [hb.next] at hr
    by_cases hr' : r = s
    · subst hr'; rw [hb.self]; exact h.not_flattened hr
    · rw [hb.other r hr']; exact h.not_flattened hr

end TableBuilt

/-! ### Editing the table of a unique structure -/

def editUnique (σ : Shapes) (s t : ℕ) (table : TargetTable) (deleted : List ℕ) : Shapes :=
  { σ with
    structures := Function.update σ.structures s { σ.structures s with deleted := deleted }
    tables := Function.update σ.tables t table }

section Edit

variable {s t : ℕ} {table : TargetTable} {deleted : List ℕ}

@[simp] theorem structures_editUnique_self :
    (σ.editUnique s t table deleted).structures s =
      { σ.structures s with deleted := deleted } := by
  simp [editUnique]

theorem structures_editUnique_ne {r : ℕ} (h : r ≠ s) :
    (σ.editUnique s t table deleted).structures r = σ.structures r := by
  simp [editUnique, h]

theorem editUnique_fields (r : ℕ) :
    ∃ d, (σ.editUnique s t table deleted).structures r = { σ.structures r with deleted := d } := by
  by_cases hr : r = s
  · subst hr; exact ⟨deleted, structures_editUnique_self⟩
  · exact ⟨_, structures_editUnique_ne hr⟩

theorem view_editUnique_self (ht : (σ.structures s).table = some t) :
    (σ.editUnique s t table deleted).view s = table := by
  rw [view_of_table (by rw [structures_editUnique_self]; exact ht)]
  simp [editUnique]

/-- The edit of a held unique structure is seen by no other live structure. -/
theorem Inv.view_editUnique (h : σ.Inv L) (hL : L s) (hu : ¬ σ.Shared s)
    (ht : (σ.structures s).table = some t) {r : ℕ} (hr : σ.Tracked L r) (hrs : r ≠ s) :
    (σ.editUnique s t table deleted).view r = σ.view r := by
  refine view_congr (fun r => σ.Tracked L r ∧ r ≠ s) (fun r _ => ?_) (fun r t' hr ht' => ?_)
    (fun r p hr htr hp => ?_) ⟨hr, hrs⟩
  · obtain ⟨d, hd⟩ := @editUnique_fields σ s t table deleted r
    rw [hd]; exact ⟨rfl, rfl, rfl⟩
  · have hne : t' ≠ t := by
      rintro rfl
      refine hr.2 (h.excl ⟨hr.1.1, ?_⟩ (h.held hL) ht' ht)
      rcases hr.1.2 with hsh | hl | hn
      · exact .inl hsh
      · exact .inr hl
      · rw [hn] at ht'; cases ht'
    simp [editUnique, hne]
  · refine ⟨h.tracked_previous hr.1.1 htr hp, ?_⟩
    rintro rfl
    exact (h.anchored hr.1.1 htr hp).elim hu fun ⟨hn, _⟩ => hn hL

/-- Editing the table of a held unique structure keeps the invariant when the new table and free
list form a layout of typed properties. -/
theorem Inv.editUnique (h : σ.Inv L) (hL : L s) (hu : ¬ σ.Shared s)
    (ht : (σ.structures s).table = some t) (hlay : SlotLayout MapEntry.offset table deleted)
    (htyped : ∀ n e, table.lookup n = some e → e.attrs.Typed) :
    (σ.editUnique s t table deleted).Inv L := by
  have fields := @editUnique_fields σ s t table deleted
  have hsh : ∀ r, (σ.editUnique s t table deleted).Shared r ↔ σ.Shared r := by
    intro r; obtain ⟨d, hd⟩ := fields r; rw [Shared, hd, Shared]
  have hlive : ∀ {r}, (σ.editUnique s t table deleted).Live L r → σ.Live L r := by
    rintro r ⟨hr, hl⟩; exact ⟨hr, hl.imp_left (hsh r).mp⟩
  have hv : ∀ {r}, σ.Tracked L r → r ≠ s → (σ.editUnique s t table deleted).view r = σ.view r :=
    fun hr hrs => h.view_editUnique hL hu ht hr hrs
  have hvs := @view_editUnique_self σ s t table deleted ht
  have hvsh : ∀ {r}, r < σ.nextStructure → σ.Shared r →
      (σ.editUnique s t table deleted).view r = σ.view r := by
    intro r hr hrsh
    exact hv ⟨hr, .inl hrsh⟩ (by rintro rfl; exact hu hrsh)
  constructor
  case acyclic =>
    intro r p hr hp
    obtain ⟨d, hd⟩ := fields r
    rw [hd] at hp
    exact h.acyclic hr hp
  case held_lt => exact h.held_lt
  case table_lt =>
    intro r t' hr ht'
    obtain ⟨d, hd⟩ := fields r
    rw [hd] at ht'
    exact h.table_lt hr ht'
  case added_fresh =>
    intro r it hr htr ha
    obtain ⟨d, hd⟩ := fields r
    rw [hd] at htr ha ⊢
    obtain ⟨p, hp, hnew⟩ := h.added_fresh hr htr ha
    have hps : p ≠ s := by
      rintro rfl
      exact (h.anchored hr htr hp).elim hu fun ⟨hn, _⟩ => hn hL
    exact ⟨p, hp, by rwa [hv (h.tracked_previous hr htr hp) hps]⟩
  case anchored =>
    intro r p hr htr hp
    obtain ⟨d, hd⟩ := fields r
    obtain ⟨d', hd'⟩ := fields p
    rw [hd] at htr hp
    rw [hsh, hd']
    exact h.anchored hr htr hp
  case excl =>
    intro r r' t' hr hr' htr htr'
    obtain ⟨d, hd⟩ := fields r
    obtain ⟨d', hd'⟩ := fields r'
    rw [hd] at htr
    rw [hd'] at htr'
    exact h.excl (hlive hr) (hlive hr') htr htr'
  case size =>
    intro r hr htr
    have hrs : r ≠ s := by
      rintro rfl
      rw [structures_editUnique_self] at htr
      exact absurd (htr.symm.trans ht) (by simp)
    rw [structures_editUnique_ne hrs] at htr ⊢
    rw [hv (hlive hr).tracked hrs]
    exact h.size (hlive hr) htr
  case layout =>
    intro r hr
    by_cases hrs : r = s
    · subst hrs; rw [hvs, structures_editUnique_self]; exact hlay
    · rw [hv (hlive hr).tracked hrs, structures_editUnique_ne hrs]; exact h.layout (hlive hr)
  case typed =>
    intro r n e hr he
    by_cases hrs : r = s
    · subst hrs; rw [hvs] at he; exact htyped n e he
    · rw [hv (hlive hr).tracked hrs] at he; exact h.typed (hlive hr) he
  case shared_deleted =>
    intro r hr hrsh
    rw [hsh] at hrsh
    rw [structures_editUnique_ne (by rintro rfl; exact hu hrsh)]
    exact h.shared_deleted hr hrsh
  case transition =>
    intro r m n a hr hrsh hf
    rw [hsh] at hrsh
    obtain ⟨d, hd⟩ := fields r
    obtain ⟨d', hd'⟩ := fields m
    rw [hd] at hf
    obtain ⟨hm, hmsh, hadd, hmv⟩ := h.transition hr hrsh hf
    rw [hvsh hr hrsh, hvsh hm hmsh, hsh, hd', hd]
    exact ⟨hm, hmsh, hadd, hmv⟩
  case not_flattened =>
    intro r hr
    obtain ⟨d, hd⟩ := fields r
    rw [hd]
    exact h.not_flattened hr

end Edit

end Shapes

end Starlight
