import Starlight.Vm.ShapeLinks
import Starlight.Vm.ShapeTree

/-!
# Runs of the structure store

A run makes roots, moves objects from structure to structure, reads and builds tables, and clears weak
references, in any order. Every state of a run refines the family that the changes alone make: tables
and their times do not come into it.

A structure may be used when it is shared, or unique and used by an object. A unique structure that its
object has left may not: its successor took over its table.
-/

namespace Starlight

/-- The attributes of a property, data or accessor. -/
abbrev TypedAttrs := { a : AttrSafe // a.Typed }

/-- `StructureBuilder::add`; `none` where the assertion fails. -/
def builderAdd (table : TargetTable) (p : Symbol × TypedAttrs) : Option TargetTable :=
  if p.1 ∈ table then none else some (table.insert p.1 ⟨tableLen table, p.2.1⟩)

/-- The structure store, and the unique structures that objects use. -/
structure ShapeHeap where
  shapes : Shapes
  held : Finset ℕ

namespace ShapeHeap

def init : ShapeHeap := ⟨.init, ∅⟩

/-- The structure may be used. -/
def Live (h : ShapeHeap) (s : ℕ) : Prop := h.shapes.Live (· ∈ h.held) s

/-- Object moves from `s` to the structure that a transition returned. -/
def moveTo (h : ShapeHeap) (s : ℕ) (p : ℕ × Shapes) : ShapeHeap :=
  ⟨p.2, Family.move h.held s p.1 (decide (p.2.Shared p.1))⟩

/-- A new object uses a new structure. -/
def enter (h : ShapeHeap) (unique : Bool) (p : ℕ × Shapes) : ShapeHeap :=
  ⟨p.2, if unique then insert p.1 h.held else h.held⟩

end ShapeHeap

/-- What happens to structures. -/
inductive ShapeOp where
  | root (prototype : Option ℕ) (unique indexed : Bool)
  | build (props : List (Symbol × TypedAttrs)) (prototype : Option ℕ) (unique indexed : Bool)
  | add (s : ℕ) (name : Symbol) (attributes : TypedAttrs)
  | delete (s : ℕ) (name : Symbol)
  | changeAttributes (s : ℕ) (name : Symbol) (attributes : TypedAttrs)
  | changeExtensible (s : ℕ)
  | changeIndexed (s : ℕ)
  | changePrototype (s : ℕ) (prototype : Option ℕ)
  | get (s : ℕ) (name : Symbol)
  | getOwnPropertyNames (s : ℕ)
  | allocateTable (s : ℕ)
  | clear (s : ℕ) (name : Symbol) (attributes : AttrSafe)

namespace ShapeOp

/-- The operations that only read, and may build a table. -/
def isRead : ShapeOp → Bool
  | get .. | getOwnPropertyNames _ | allocateTable _ => true
  | _ => false

/-- The state after an operation; `none` where the code panics. -/
def exec (h : ShapeHeap) : ShapeOp → Option ShapeHeap
  | root p u i => some (h.enter u (if u then h.shapes.newUniqueIndexed p i else h.shapes.newIndexed p i))
  | build props p u i =>
    (props.foldlM builderAdd ∅).map fun table => h.enter u (h.shapes.newFromTable table p u i)
  | add s n a =>
    let r := h.shapes.addPropertyTransition s n a
    some (h.moveTo s (r.1, r.2.2))
  | delete s n => (h.shapes.deletePropertyTransition s n).map (h.moveTo s)
  | changeAttributes s n a => (h.shapes.changeAttributesTransition s n a).map (h.moveTo s)
  | changeExtensible s => some (h.moveTo s (h.shapes.changeExtensibleTransition s))
  | changeIndexed s => some (h.moveTo s (h.shapes.changeIndexedTransition s))
  | changePrototype s p => some (h.moveTo s (h.shapes.changePrototypeTransition s p))
  | get s n => some { h with shapes := (h.shapes.get s n).2 }
  | getOwnPropertyNames s => some { h with shapes := (h.shapes.allocateTableIfNeeded s).2 }
  | allocateTable s => some { h with shapes := h.shapes.ensureTable s }
  | clear s n a => some { h with shapes := h.shapes.modifyStructure s fun st =>
      { st with transitions := st.transitions.clear ⟨n, a⟩ } }

/-- What the callers see to: a structure that may be used, and a name that `get` does not find when it
is added, and finds when it is deleted or changed. A builder is not given a name twice. -/
def Valid (h : ShapeHeap) : ShapeOp → Prop
  | root .. => True
  | build props _ _ _ => props.foldlM builderAdd ∅ ≠ none
  | clear s _ _ => s < h.shapes.nextStructure
  | add s n _ => h.Live s ∧ (h.shapes.get s n).1 = none
  | delete s n | changeAttributes s n _ => h.Live s ∧ (h.shapes.get s n).1 ≠ none
  | changeExtensible s | changeIndexed s | changePrototype s _ | get s _ | getOwnPropertyNames s
  | allocateTable s => h.Live s

/-- What an operation does to the family. -/
def act (F : Family) : ShapeOp → Family
  | root _ u _ => F.makeRoot u []
  | build props _ u _ => F.makeRoot u (Change.built (props.map fun p => (p.1, p.2.1)))
  | add s n a => (F.add s n a).2
  | delete s n => F.delete s n
  | changeAttributes s n a => F.changeAttributes s n a
  | changeExtensible s => F.successor s
  | changeIndexed s | changePrototype s _ => F.uniqueFor s
  | get .. | getOwnPropertyNames _ | allocateTable _ => F
  | clear s n a => F.clear s n a

end ShapeOp

/-- A run: each operation is one that its callers may make. -/
inductive ShapeRun : ShapeHeap → List ShapeOp → ShapeHeap → Prop
  | nil (h : ShapeHeap) : ShapeRun h [] h
  | cons {h h₁ h₂ : ShapeHeap} {op : ShapeOp} {ops : List ShapeOp} (valid : op.Valid h)
      (exec : op.exec h = some h₁) (rest : ShapeRun h₁ ops h₂) : ShapeRun h (op :: ops) h₂

/-! ### Refinement -/

/-- The store is what the family says, whatever tables have been built. -/
structure Refines (h : ShapeHeap) (F : Family) : Prop where
  inv : h.shapes.Inv (· ∈ h.held)
  held : h.held = F.held
  next : h.shapes.nextStructure = F.next
  unique : ∀ {s}, s ∈ h.held → ¬ h.shapes.Shared s
  shared : ∀ {s}, s < F.next → (h.shapes.Shared s ↔ (F.member s).shared = true)
  view : ∀ {s}, h.Live s → h.shapes.view s = Change.table (F.member s).history
  free : ∀ {s}, h.Live s → (h.shapes.structures s).deleted = (F.member s).free
  child : ∀ {s}, s < F.next → h.shapes.Shared s → ∀ n a,
    (h.shapes.structures s).transitions.find n a = (F.member s).child n a
  count : ∀ {s}, s < F.next → h.shapes.Shared s →
    (h.shapes.structures s).transitCount = min (F.member s).depth 1

namespace Refines

variable {h : ShapeHeap} {F : Family} {s : ℕ}

theorem live_iff (hr : Refines h F) : h.Live s ↔ F.Live s := by
  constructor
  · rintro ⟨hlt, hs⟩
    rw [hr.next] at hlt
    exact ⟨hlt, hs.imp (hr.shared hlt).mp fun hm => hr.held ▸ hm⟩
  · rintro ⟨hlt, hs⟩
    refine ⟨by rw [hr.next]; exact hlt, hs.imp (hr.shared hlt).mpr fun hm => ?_⟩
    rw [hr.held]
    exact hm

theorem mem_move {held : Finset ℕ} {s s' r : ℕ} {shared : Bool} :
    r ∈ Family.move held s s' shared ↔ (shared = false ∧ r = s') ∨ (r ∈ held ∧ r ≠ s) := by
  unfold Family.move
  cases shared <;> simp [and_comm]

/-- What the family says of one structure. -/
structure MatchesAt (h : ShapeHeap) (F : Family) (s : ℕ) : Prop where
  shared : h.shapes.Shared s ↔ (F.member s).shared = true
  view : h.Live s → h.shapes.view s = Change.table (F.member s).history
  free : h.Live s → (h.shapes.structures s).deleted = (F.member s).free
  child : h.shapes.Shared s → ∀ n a,
    (h.shapes.structures s).transitions.find n a = (F.member s).child n a
  count : h.shapes.Shared s → (h.shapes.structures s).transitCount = min (F.member s).depth 1

theorem matchesAt (hr : Refines h F) (hlt : s < h.shapes.nextStructure) : MatchesAt h F s := by
  rw [hr.next] at hlt
  exact ⟨hr.shared hlt, hr.view, hr.free, hr.child hlt, hr.count hlt⟩

theorem of_matchesAt (hinv : h.shapes.Inv (· ∈ h.held)) (hheld : h.held = F.held)
    (hnext : h.shapes.nextStructure = F.next) (hunique : ∀ {s}, s ∈ h.held → ¬ h.shapes.Shared s)
    (hat : ∀ s, s < h.shapes.nextStructure → MatchesAt h F s) : Refines h F where
  inv := hinv
  held := hheld
  next := hnext
  unique := hunique
  shared hlt := (hat _ (by rwa [hnext])).shared
  view hl := (hat _ hl.1).view hl
  free hl := (hat _ hl.1).free hl
  child hlt := (hat _ (by rwa [hnext])).child
  count hlt := (hat _ (by rwa [hnext])).count

theorem MatchesAt.keep {h' : ShapeHeap} {F' : Family} (hm : MatchesAt h F s)
    (hlinks : Shapes.SameLinks h.shapes h'.shapes s)
    (hlive : h'.Live s → h.Live s ∧ Shapes.SameShape h.shapes h'.shapes s)
    (hmember : F'.member s = F.member s) : MatchesAt h' F' s where
  shared := by rw [hmember]; exact hlinks.shared.trans hm.shared
  view hl := by
    obtain ⟨hl, hshape⟩ := hlive hl
    rw [hmember]
    exact hshape.view.trans (hm.view hl)
  free hl := by
    obtain ⟨hl, hshape⟩ := hlive hl
    rw [hmember]
    exact hshape.deleted.trans (hm.free hl)
  child hsh n a := by
    rw [hmember]
    exact (hlinks.find n a).trans (hm.child (hlinks.shared.mp hsh) n a)
  count hsh := by
    rw [hmember]
    exact hlinks.count.trans (hm.count (hlinks.shared.mp hsh))

theorem matchesAt_unique (hu : ¬ h.shapes.Shared s) (hx : (F.member s).shared = false)
    (hview : h.shapes.view s = Change.table (F.member s).history)
    (hfree : (h.shapes.structures s).deleted = (F.member s).free) : MatchesAt h F s where
  shared := iff_of_false hu (by rw [hx]; exact Bool.false_ne_true)
  view _ := hview
  free _ := hfree
  child hsh := absurd hsh hu
  count hsh := absurd hsh hu

theorem toUnique (hr : Refines h F) {σ' : Shapes} {s' : ℕ} {F' : Family} {x : Member}
    (ht : h.shapes.Transitioned σ' (· ∈ h.held) s s') (hu : ¬ σ'.Shared s')
    (hlinks : ∀ r, r < h.shapes.nextStructure → Shapes.SameLinks h.shapes σ' r)
    (hmember : F'.member = Function.update F.member s' x)
    (hheld : F'.held = Family.move F.held s s' false) (hnext : σ'.nextStructure = F'.next)
    (hlt : ∀ r, r < F'.next → r ≠ s' → r < F.next) (hx : x.shared = false)
    (hview : σ'.view s' = Change.table x.history) (hfree : (σ'.structures s').deleted = x.free) :
    Refines (h.moveTo s (s', σ')) F' := by
  have hmoved : (h.moveTo s (s', σ')).held = Family.move h.held s s' false := by
    simp [ShapeHeap.moveTo, hu]
  -- the structures other than the target that may be used could be used before
  have hold : ∀ r, r ≠ s' → (h.moveTo s (s', σ')).Live r →
      h.Live r ∧ Shapes.SameShape h.shapes σ' r := by
    rintro r hne ⟨hrlt, hrl⟩
    have hrF : r < F.next := hlt r (hnext ▸ hrlt) hne
    rw [← hr.next] at hrF
    rcases hrl with hsh | hm
    · have hsh : h.shapes.Shared r := (ht.shared_iff r hrF).mp hsh
      exact ⟨⟨hrF, .inl hsh⟩, ht.frame r ⟨hrF, .inl hsh⟩ (.inl hsh)⟩
    · rw [hmoved, mem_move] at hm
      obtain ⟨hm, hrs⟩ := hm.resolve_left fun hc => hne hc.2
      exact ⟨⟨hrF, .inr hm⟩, ht.frame r ⟨hrF, .inr hm⟩ (.inr hrs)⟩
  refine of_matchesAt ?_ (by rw [hmoved, hheld, hr.held]) hnext ?_ fun r hrlt => ?_
  · refine ht.inv.mono fun r hm => ?_
    rw [hmoved, mem_move] at hm
    refine (hm.imp (fun hc => hc.2) id : r = s' ∨ (r ∈ h.held ∧ r ≠ s)).elim (fun he => ?_)
      fun hm => ⟨?_, .inr (.inr hm)⟩
    · exact ⟨ht.inv.held_lt (.inl he), .inr (.inl he)⟩
    · exact lt_of_lt_of_le (hr.inv.held_lt hm.1) ht.next_le
  · intro r hm
    rw [hmoved, mem_move] at hm
    rcases hm with ⟨-, rfl⟩ | ⟨hm, -⟩
    · exact hu
    · exact mt (ht.shared_iff r (hr.inv.held_lt hm)).mp (hr.unique hm)
  · by_cases hne : r = s'
    · subst hne
      have hself : F'.member r = x := by rw [hmember, Function.update_self]
      exact matchesAt_unique hu (by rw [hself, hx]) (by rw [hself]; exact hview)
        (by rw [hself]; exact hfree)
    · have hrσ : r < h.shapes.nextStructure := by
        rw [hr.next]
        exact hlt r (hnext ▸ hrlt) hne
      exact (hr.matchesAt hrσ).keep (hlinks r hrσ) (hold r hne)
        (by rw [hmember, Function.update_of_ne hne])

theorem make (hr : Refines h F) {σ' : Shapes} {x : Member}
    (ht : h.shapes.Transitioned σ' (· ∈ h.held) s h.shapes.nextStructure)
    (hu : ¬ σ'.Shared h.shapes.nextStructure) (hm : Shapes.Makes h.shapes σ')
    (hx : x.shared = false) (hview : σ'.view h.shapes.nextStructure = Change.table x.history)
    (hfree : (σ'.structures h.shapes.nextStructure).deleted = x.free) :
    Refines (h.moveTo s (h.shapes.nextStructure, σ')) (F.make s x) := by
  refine hr.toUnique ht hu hm.links (x := x) ?_ ?_ ?_ ?_ hx hview hfree
  · rw [hr.next]; rfl
  · rw [hr.next, Family.make, hx]
  · rw [hm.next, hr.next]; rfl
  · intro r hrlt hne
    rw [hr.next] at hne
    exact lt_of_le_of_ne (Nat.lt_succ_iff.mp hrlt) hne

theorem stay (hr : Refines h F) (hs : h.Live s) {σ' : Shapes} {f : Member → Member}
    (ht : h.shapes.Transitioned σ' (· ∈ h.held) s s) (hu : ¬ h.shapes.Shared s)
    (hm : Shapes.KeepsLinks h.shapes σ') (hx : (f (F.member s)).shared = false)
    (hview : σ'.view s = Change.table (f (F.member s)).history)
    (hfree : (σ'.structures s).deleted = (f (F.member s)).free) :
    Refines (h.moveTo s (s, σ')) (F.modify s f) := by
  refine hr.toUnique ht (mt (ht.shared_iff s hs.1).mp hu) (fun r _ => hm.links r) rfl ?_ ?_ ?_ hx hview
    hfree
  · have hheld : s ∈ F.held := hr.held ▸ hs.2.resolve_left hu
    rw [Family.move]
    simp [Family.modify, Finset.insert_erase hheld]
  · rw [hm.next, hr.next]; rfl
  · exact fun r hrlt _ => hrlt

theorem read (hr : Refines h F) {σ' : Shapes} (ht : h.shapes.TableReady σ' (· ∈ h.held) s)
    (hk : Shapes.KeepsLinks h.shapes σ') : Refines { h with shapes := σ' } F := by
  refine of_matchesAt ht.inv hr.held (hk.next.trans hr.next) ?_ fun r hlt => ?_
  · intro r hm
    exact mt (ht.shape r (hr.inv.held_lt hm)).shared.mp (hr.unique hm)
  · have hlt : r < h.shapes.nextStructure := by rw [← hk.next]; exact hlt
    refine (hr.matchesAt hlt).keep (hk.links r) (fun hl => ⟨⟨hlt, ?_⟩, ht.shape r hlt⟩) rfl
    exact hl.2.imp_left (ht.shape r hlt).shared.mp

theorem clear (hr : Refines h F) (hs : s < h.shapes.nextStructure) (n : Symbol) (a : AttrSafe) :
    Refines { h with shapes := h.shapes.modifyStructure s fun st =>
      { st with transitions := st.transitions.clear ⟨n, a⟩ } } (F.clear s n a) := by
  have ht := hr.inv.clear hs ⟨n, a⟩
  refine of_matchesAt ht.inv hr.held hr.next ?_ fun r hlt => ?_
  · exact fun hm => mt (ht.shape _ (hr.inv.held_lt hm)).shared.mp (hr.unique hm)
  · have hold := hr.matchesAt hlt
    have hshape := ht.shape r hlt
    -- forgetting a transition may only end lives
    have hlive : ShapeHeap.Live { h with shapes := h.shapes.modifyStructure s fun st =>
        { st with transitions := st.transitions.clear ⟨n, a⟩ } } r → h.Live r :=
      fun hl => ⟨hl.1, hl.2.imp_left hshape.shared.mp⟩
    by_cases hrs : r = s
    · subst hrs
      have hself : (F.clear r n a).member r = { F.member r with
          child := Function.update (F.member r).child n
            (Function.update ((F.member r).child n) a none) } := by
        simp [Family.clear, Family.modify]
      constructor
      case shared => rw [hself]; exact hshape.shared.trans hold.shared
      case view => intro hl; rw [hself]; exact hshape.view.trans (hold.view (hlive hl))
      case free => intro hl; rw [hself]; exact hshape.deleted.trans (hold.free (hlive hl))
      case child =>
        intro hsh m b
        have hchild := hold.child (hshape.shared.mp hsh) m b
        rw [hself, Shapes.structures_modifyStructure_self]
        dsimp only
        rw [Shapes.find_clear_eq, hchild]
        simp only [TransitionKey.mk.injEq]
        by_cases hm : m = n
        · subst hm
          by_cases hb : b = a
          · subst hb; simp
          · simp [hb]
        · simp [hm]
      case count =>
        intro hsh
        rw [hself, Shapes.structures_modifyStructure_self]
        exact hold.count (hshape.shared.mp hsh)
    · refine hold.keep ⟨fun m b => ?_, ?_, hshape.shared⟩ (fun hl => ⟨hlive hl, hshape⟩) ?_
      · rw [Shapes.structures_modifyStructure_ne _ hrs]
      · rw [Shapes.structures_modifyStructure_ne _ hrs]
      · simp [Family.clear, Family.modify, hrs]

theorem mem_enter {held : Finset ℕ} {unique : Bool} {r s : ℕ}
    (hm : r ∈ if unique then insert s held else held) : r = s ∨ r ∈ held := by
  split at hm
  · exact Finset.mem_insert.mp hm
  · exact .inr hm

theorem enter (hr : Refines h F) {σ' : Shapes} {unique : Bool} {history : List Change}
    (hinv : σ'.Inv (· ∈ if unique then insert h.shapes.nextStructure h.held else h.held))
    (hm : Shapes.Makes h.shapes σ')
    (hshape : ∀ r, r < h.shapes.nextStructure → Shapes.SameShape h.shapes σ' r)
    (hview : σ'.view h.shapes.nextStructure = Change.table history)
    (hcell : ∃ t n p i, σ'.structures h.shapes.nextStructure = Shapes.rootCell t n p unique i) :
    Refines (h.enter unique (h.shapes.nextStructure, σ')) (F.makeRoot unique history) := by
  obtain ⟨t, size, p, i, hcell⟩ := hcell
  have hsharedNew : σ'.Shared h.shapes.nextStructure ↔ unique = false := by
    rw [Shapes.Shared, hcell]
    simp [Shapes.rootCell, TransitionsTable.new]
  have hself : (F.makeRoot unique history).member h.shapes.nextStructure = .root unique history := by
    rw [hr.next]
    exact Function.update_self ..
  have hother : ∀ {r}, r < h.shapes.nextStructure →
      (F.makeRoot unique history).member r = F.member r := by
    intro r hlt
    rw [hr.next] at hlt
    exact Function.update_of_ne hlt.ne _ _
  have hmem : ∀ {r}, r < h.shapes.nextStructure →
      (r ∈ if unique then insert h.shapes.nextStructure h.held else h.held) → r ∈ h.held := by
    intro r hlt hm
    split at hm
    · exact (Finset.mem_insert.mp hm).resolve_left hlt.ne
    · exact hm
  refine of_matchesAt hinv ?_ ?_ ?_ fun r hrlt => ?_
  · simp only [ShapeHeap.enter, Family.makeRoot, hr.next, hr.held]
  · rw [Family.makeRoot, ← hr.next]
    exact hm.next
  · intro r hm'
    by_cases hlt : r < h.shapes.nextStructure
    · exact mt (hshape r hlt).shared.mp (hr.unique (hmem hlt hm'))
    · have hu : unique = true := by
        by_contra hu
        simp only [ShapeHeap.enter, hu, if_false] at hm'
        exact hlt (hr.inv.held_lt hm')
      have hrn : r = h.shapes.nextStructure := by
        have := hinv.held_lt hm'
        rw [hm.next] at this
        omega
      rw [hrn]
      exact mt hsharedNew.mp (by rw [hu]; exact Bool.noConfusion)
  · by_cases hlt : r < h.shapes.nextStructure
    · exact (hr.matchesAt hlt).keep (hm.links r hlt)
        (fun hl => ⟨⟨hlt, hl.2.imp (hshape r hlt).shared.mp (hmem hlt)⟩, hshape r hlt⟩) (hother hlt)
    · -- the new root
      have hrlt : r < h.shapes.nextStructure + 1 := hm.next ▸ hrlt
      obtain rfl : r = h.shapes.nextStructure := by omega
      constructor
      case shared =>
        rw [hself]
        refine hsharedNew.trans ?_
        cases unique <;> simp [Member.root]
      case view => intro _; rw [hself]; exact hview
      case free => intro _; rw [hself]; exact congrArg Structure.deleted hcell
      case child => intro _ n a; rw [hself]; exact congrArg (fun st => st.transitions.find n a) hcell
      case count => intro _; rw [hself]; exact congrArg Structure.transitCount hcell

theorem move_shared (hr : Refines h F) (hsh : h.shapes.Shared s) (s' : ℕ) :
    Family.move h.held s s' true = h.held := by
  rw [Family.move, if_pos rfl, Finset.erase_eq_of_notMem fun hm => hr.unique hm hsh]

theorem nextSlot_eq (hr : Refines h F) (hs : h.Live s) (hsh : h.shapes.Shared s) :
    (F.member s).free = [] ∧ (F.member s).nextSlot = tableLen (h.shapes.view s) := by
  have hfree : (F.member s).free = [] := (hr.free hs).symm.trans (hr.inv.shared_deleted hs.1 hsh)
  exact ⟨hfree, by rw [Member.nextSlot_of_free_nil hfree, ← hr.view hs]⟩

theorem addNew (hr : Refines h F) (hs : h.Live s) (hsh : h.shapes.Shared s) {n : Symbol} {a : AttrSafe}
    (hn : n ∉ h.shapes.view s) (ha : a.Typed) (hf : (F.member s).child n a = none) :
    Refines (h.moveTo s (h.shapes.nextStructure,
      (h.shapes.alloc (h.shapes.addedCell s n a)).2.modifyStructure s fun st =>
        { st with transitions := st.transitions.insert n a h.shapes.nextStructure }))
      (F.add s n a).2 := by
  have hadded := hr.inv.addShared hs hsh hn ha
  obtain ⟨hfree, hslot⟩ := hr.nextSlot_eq hs hsh
  set σ' := (h.shapes.alloc (h.shapes.addedCell s n a)).2.modifyStructure s fun st =>
    { st with transitions := st.transitions.insert n a h.shapes.nextStructure } with hσ
  have ht := hadded.transitioned
  have hne : h.shapes.nextStructure ≠ s := Nat.ne_of_gt hs.1
  have hxsh : (F.member s).shared = true := (hr.shared (hr.next ▸ hs.1)).mp hsh
  have hnextσ : σ'.nextStructure = h.shapes.nextStructure + 1 := rfl
  have hcell : σ'.structures h.shapes.nextStructure = h.shapes.addedCell s n a := by
    rw [hσ, Shapes.structures_modifyStructure_ne _ hne, Shapes.structures_alloc_new]
  have hshNew : σ'.Shared h.shapes.nextStructure := by
    rw [Shapes.Shared, hcell]
    rfl
  -- the family after the addition
  have hF : (F.add s n a).2 = (F.make s ((F.member s).added n a)).modify s fun x =>
      { x with child := Function.update x.child n
                (Function.update (x.child n) a (some F.next)) } := by
    unfold Family.add
    simp only [hxsh, if_true, hf]
  have hneF : F.next ≠ s := hr.next ▸ hne
  have hmNew : (F.add s n a).2.member h.shapes.nextStructure = (F.member s).added n a := by
    rw [hF, hr.next]
    simp [Family.modify, Family.make, hneF]
  have hmSelf : (F.add s n a).2.member s = { F.member s with
      child := Function.update (F.member s).child n
        (Function.update ((F.member s).child n) a (some F.next)) } := by
    rw [hF]
    simp [Family.modify, Family.make, hneF.symm]
  have hmOther : ∀ {r}, r < h.shapes.nextStructure → r ≠ s →
      (F.add s n a).2.member r = F.member r := by
    intro r hlt hrs
    rw [hr.next] at hlt
    rw [hF]
    simp [Family.modify, Family.make, hrs, hlt.ne]
  have hheld : (h.moveTo s (h.shapes.nextStructure, σ')).held = h.held := by
    simp only [ShapeHeap.moveTo, hshNew, decide_true]
    exact hr.move_shared hsh _
  have hlive : ∀ {r}, r < h.shapes.nextStructure →
      (h.moveTo s (h.shapes.nextStructure, σ')).Live r → h.Live r := by
    rintro r hlt ⟨-, hl⟩
    rw [hheld] at hl
    exact ⟨hlt, hl.imp_left (ht.shared_iff r hlt).mp⟩
  have hshape : ∀ {r}, h.Live r → Shapes.SameShape h.shapes σ' r := by
    intro r hl
    refine ht.frame r hl ?_
    by_cases hrs : r = s
    · subst hrs; exact .inl hsh
    · exact .inr hrs
  refine of_matchesAt ?_ ?_ (by rw [hF]; exact congrArg (· + 1) hr.next) ?_ fun r hrlt => ?_
  · refine ht.inv.mono fun r hm => ?_
    rw [hheld] at hm
    have hrs : r ≠ s := by rintro rfl; exact hr.unique hm hsh
    exact ⟨(hr.inv.held_lt hm).trans (Nat.lt_succ_self _), .inr (.inr ⟨hm, hrs⟩)⟩
  · rw [hheld, hF, hr.held]
    have := hr.move_shared hsh F.next
    rw [hr.held] at this
    simp only [Family.modify, Family.make, Member.added, hxsh]
    exact this.symm
  · intro r hm
    rw [hheld] at hm
    exact mt (ht.shared_iff r (hr.inv.held_lt hm)).mp (hr.unique hm)
  · have hrlt : r < h.shapes.nextStructure + 1 := hrlt
    by_cases hlt : r < h.shapes.nextStructure
    · have hold := hr.matchesAt hlt
      by_cases hrs : r = s
      · -- the parent gets a link
        subst hrs
        constructor
        case shared => rw [hmSelf]; exact (ht.shared_iff r hlt).trans hold.shared
        case view => intro _; rw [hmSelf]; exact (hshape hs).view.trans (hold.view hs)
        case free => intro _; rw [hmSelf]; exact (hshape hs).deleted.trans (hold.free hs)
        case child =>
          intro _ m b
          change (σ'.structures r).transitions.find m b = _
          rw [hmSelf, hσ, Shapes.structures_modifyStructure_self]
          dsimp only
          rw [TransitionsTable.find_insert, Shapes.structures_alloc_of_lt _ _ hs.1,
            hold.child hsh, hr.next]
          by_cases hm : m = n
          · subst hm
            by_cases hb : b = a
            · subst hb; simp
            · simp [hb]
          · simp [hm]
        case count =>
          intro _
          rw [hmSelf, ← hold.count hsh]
          change (σ'.structures r).transitCount = _
          rw [hσ, Shapes.structures_modifyStructure_self, Shapes.structures_alloc_of_lt _ _ hs.1]
      · have hcellr : σ'.structures r = h.shapes.structures r := by
          rw [hσ, Shapes.structures_modifyStructure_ne _ hrs, Shapes.structures_alloc_of_lt _ _ hlt]
        refine hold.keep ⟨fun m b => ?_, ?_, ht.shared_iff r hlt⟩
          (fun hl => ⟨hlive hlt hl, hshape (hlive hlt hl)⟩) (hmOther hlt hrs)
        · exact congrArg (fun st => st.transitions.find m b) hcellr
        · exact congrArg Structure.transitCount hcellr
    · -- the new structure
      obtain rfl : r = h.shapes.nextStructure := by omega
      constructor
      case shared => rw [hmNew]; exact iff_of_true hshNew hxsh
      case view =>
        intro _
        rw [hmNew]
        refine hadded.view.trans ?_
        rw [Member.added, Change.table, hslot, hr.view hs]
        rw [hr.inv.getSlotsSize_eq hs, hr.inv.shared_deleted hs.1 hsh, List.length_nil, Nat.add_zero,
          hr.view hs]
      case free =>
        intro _
        rw [hmNew, Member.added, hfree]
        exact congrArg Structure.deleted hcell
      case child =>
        intro _ m b
        rw [hmNew]
        exact congrArg (fun st => st.transitions.find m b) hcell
      case count =>
        intro _
        rw [hmNew]
        refine (congrArg Structure.transitCount hcell).trans ?_
        simp [Shapes.addedCell, Member.added, hxsh]

/-- **Additions.** -/
theorem add (hr : Refines h F) (hs : h.Live s) {n : Symbol} {a : AttrSafe}
    (hn : n ∉ h.shapes.view s) (ha : a.Typed) :
    (h.shapes.addPropertyTransition s n a).1 = (F.add s n a).1 ∧
      (h.shapes.addPropertyTransition s n a).2.1 = (F.member s).nextSlot ∧
      Refines (h.moveTo s ((h.shapes.addPropertyTransition s n a).1,
        (h.shapes.addPropertyTransition s n a).2.2)) (F.add s n a).2 := by
  have hltF : s < F.next := hr.next ▸ hs.1
  have hadded := hr.inv.addPropertyTransition hs hn ha
  -- the slot is the one that the family says
  have hslot : (h.shapes.addPropertyTransition s n a).2.1 = (F.member s).nextSlot := by
    unfold Member.nextSlot Member.slots
    rw [← hr.free hs, ← hr.view hs]
    rcases hadded.free with hd | ⟨hd, -, ho⟩
    · rw [hd, List.headD_cons]
    · rw [hd, List.headD_nil, List.length_nil, Nat.add_zero, ho]
  by_cases hsh : h.shapes.Shared s
  · have hxsh : (F.member s).shared = true := (hr.shared hltF).mp hsh
    cases hc : (F.member s).child n a with
    | some m =>
      obtain ⟨h₁, h₂⟩ := Shapes.addPropertyTransition_child hsh ((hr.child hltF hsh n a).trans hc)
      have hF : F.add s n a = (m, F) := by
        unfold Family.add
        simp only [hxsh, if_true, hc]
      have hmsh : h.shapes.Shared m :=
        (hr.inv.transition hs.1 hsh ((hr.child hltF hsh n a).trans hc)).2.1
      rw [hF]
      refine ⟨h₁, hslot, ?_⟩
      rw [h₁, h₂]
      have hmove : h.moveTo s (m, h.shapes) = h := by
        simp only [ShapeHeap.moveTo, hmsh, decide_true]
        rw [hr.move_shared hsh]
      rw [hmove]
      exact hr
    | none =>
      have hnew := Shapes.addPropertyTransition_new hr.inv hs.1 hsh
        ((hr.child hltF hsh n a).trans hc) (by rw [hr.count hltF hsh]; omega)
      have hF : (F.add s n a).1 = F.next := by
        unfold Family.add
        simp only [hxsh, if_true, hc]
      refine ⟨?_, hslot, ?_⟩
      · rw [hnew, hF, hr.next]
      · rw [hnew]
        exact hr.addNew hs hsh hn ha hc
  · have hxsh : (F.member s).shared = false := by
      by_contra hx
      exact hsh ((hr.shared hltF).mpr (by simpa using hx))
    have heq := Shapes.addPropertyTransition_unique hsh n a
    obtain ⟨hk, hfst⟩ := Shapes.addUnique_stays hr.inv hs n a
    have hF : F.add s n a = (s, F.modify s fun x => x.added n a) := by
      unfold Family.add
      simp only [hxsh, Bool.false_eq_true, if_false]
    have hview := hadded.view
    have hfree := hadded.free
    have ht := hadded.transitioned
    rw [heq] at hslot ht hview hfree ⊢
    rw [hfst] at ht hview hfree ⊢
    rw [hF]
    refine ⟨rfl, hslot, hr.stay (f := fun x => x.added n a) hs ht hsh hk hxsh ?_ ?_⟩
    · rw [hview, hslot, Member.added, Change.table, ← hr.view hs]
    · rw [Member.added, ← hr.free hs]
      rcases hfree with hd | ⟨hd, hd', -⟩
      · rw [hd, List.tail_cons]
      · rw [hd, hd', List.tail_nil]

theorem notMem_view (hr : Refines h F) (hs : h.Live s) {n : Symbol}
    (hn : (h.shapes.get s n).1 = none) : n ∉ h.shapes.view s :=
  Finmap.lookup_eq_none.mp ((hr.inv.get hs n).1.symm.trans hn)

theorem exists_lookup (hr : Refines h F) (hs : h.Live s) {n : Symbol}
    (hn : (h.shapes.get s n).1 ≠ none) : ∃ e, (h.shapes.view s).lookup n = some e :=
  Option.ne_none_iff_exists'.mp fun hc => hn ((hr.inv.get hs n).1.trans hc)

theorem toNew (hr : Refines h F) {m : ℕ} {σ' : Shapes} {table : TargetTable} {deleted : List ℕ}
    {prototype : Option ℕ} {x : Member} (ht : h.shapes.Transitioned σ' (· ∈ h.held) s m)
    (htgt : h.shapes.Target σ' s m table deleted prototype) (hm : Shapes.MakesUnique h.shapes σ' m)
    (hx : x.shared = false) (hview : table = Change.table x.history) (hfree : deleted = x.free) :
    Refines (h.moveTo s (m, σ')) (F.make s x) := by
  obtain rfl := hm.fst
  exact hr.make ht hm.unique hm.toMakes hx (htgt.view.trans hview) (htgt.deleted.trans hfree)

theorem successor (hr : Refines h F) (hs : h.Live s) :
    Refines (h.moveTo s (h.shapes.newUnique s)) (F.successor s) := by
  obtain ⟨ht, htgt, -⟩ := hr.inv.newUnique hs
  exact hr.toNew ht htgt (Shapes.makes_newUnique h.shapes s) rfl (hr.view hs) (hr.free hs)

theorem delete (hr : Refines h F) (hs : h.Live s) {n : Symbol} {e : MapEntry}
    (hn : (h.shapes.view s).lookup n = some e) :
    ∃ p, h.shapes.deletePropertyTransition s n = some p ∧ Refines (h.moveTo s p) (F.delete s n) := by
  obtain ⟨m, σ', heq, ht, htgt⟩ := hr.inv.deletePropertyTransition hs hn
  have hfind : Change.find n (F.member s).history = some e := by
    rw [← Change.lookup_table, ← hr.view hs, hn]
  have hF : F.delete s n = F.make s ((F.member s).deleted n e.offset) := by
    rw [Family.delete, hfind]
  refine ⟨(m, σ'), heq, ?_⟩
  rw [hF]
  refine hr.toNew ht htgt (Shapes.makes_deletePropertyTransition heq) rfl ?_ ?_
  · rw [hr.view hs]; rfl
  · rw [hr.free hs]; rfl

theorem changeAttributes (hr : Refines h F) (hs : h.Live s) {n : Symbol} {e : MapEntry}
    (hn : (h.shapes.view s).lookup n = some e) {a : AttrSafe} (ha : a.Typed) :
    ∃ p, h.shapes.changeAttributesTransition s n a = some p ∧
      Refines (h.moveTo s p) (F.changeAttributes s n a) := by
  obtain ⟨m, σ', heq, ht, htgt⟩ := hr.inv.changeAttributesTransition hs hn ha
  refine ⟨(m, σ'), heq, hr.toNew ht htgt (Shapes.makes_changeAttributesTransition heq) rfl ?_
    (hr.free hs)⟩
  rw [hr.view hs] at hn ⊢
  exact (Change.table_attrs a hn).symm

theorem uniqueFor (hr : Refines h F) (hs : h.Live s) {f : Structure → Structure} {table : TargetTable}
    {deleted : List ℕ} {prototype : Option ℕ}
    (hfind : ∀ st n a, (f st).transitions.find n a = st.transitions.find n a)
    (hcount : ∀ st, (f st).transitCount = st.transitCount)
    (henabled : ∀ st, (f st).transitions.enabled = st.transitions.enabled)
    (ht : h.shapes.Transitioned ((h.shapes.uniqueFor s).2.modifyStructure (h.shapes.uniqueFor s).1 f)
      (· ∈ h.held) s (h.shapes.uniqueFor s).1)
    (htgt : h.shapes.Target ((h.shapes.uniqueFor s).2.modifyStructure (h.shapes.uniqueFor s).1 f) s
      (h.shapes.uniqueFor s).1 table deleted prototype)
    (hview : table = h.shapes.view s) (hfree : deleted = (h.shapes.structures s).deleted) :
    Refines (h.moveTo s ((h.shapes.uniqueFor s).1,
      (h.shapes.uniqueFor s).2.modifyStructure (h.shapes.uniqueFor s).1 f)) (F.uniqueFor s) := by
  have hltF : s < F.next := hr.next ▸ hs.1
  have hk := fun σ m => Shapes.keepsLinks_modifyStructure σ m hfind hcount henabled
  rcases Shapes.uniqueFor_cases hr.inv hs.1 with ⟨hu, heq⟩ | ⟨hsh, heq⟩
  · have hxu : (F.member s).shared = false := by
      by_contra hx
      exact hu ((hr.shared hltF).mpr (by simpa using hx))
    rw [heq] at ht htgt ⊢
    have hF : F.uniqueFor s = F.modify s id := by
      rw [Family.uniqueFor, if_neg (by rw [hxu]; exact Bool.false_ne_true)]
      simp [Family.modify]
    rw [hF]
    exact hr.stay hs ht hu (hk _ _) hxu (htgt.view.trans (hview.trans (hr.view hs)))
      (htgt.deleted.trans (hfree.trans (hr.free hs)))
  · have hF : F.uniqueFor s = F.successor s := by
      rw [Family.uniqueFor, if_pos ((hr.shared hltF).mp hsh)]
    rw [heq] at ht htgt ⊢
    rw [hF]
    exact hr.toNew ht htgt ((Shapes.makes_newUnique h.shapes s).keeps (hk _ _)) rfl
      (hview.trans (hr.view hs)) (hfree.trans (hr.free hs))

theorem root (hr : Refines h F) (prototype : Option ℕ) (unique indexed : Bool) :
    Refines (h.enter unique (h.shapes.ctor1 prototype unique indexed)) (F.makeRoot unique []) := by
  obtain ⟨hinv, hshape, hview⟩ := hr.inv.newRoot prototype unique indexed
    _ (fun _ => mem_enter)
  rw [Shapes.ctor1_eq_alloc] at hinv hshape hview ⊢
  exact hr.enter hinv (Shapes.makes_rootCell ..) hshape hview
    ⟨_, _, _, _, Shapes.structures_alloc_new _ _⟩

end Refines

theorem foldlM_builderAdd {props : List (Symbol × TypedAttrs)} (hist : List Change)
    {table : TargetTable} (hlay : SlotLayout MapEntry.offset (Change.table hist) [])
    (htyped : ∀ n e, (Change.table hist).lookup n = some e → e.attrs.Typed)
    (h : props.foldlM builderAdd (Change.table hist) = some table) :
    table = Change.table ((props.map fun p => (p.1, p.2.1)).foldl
        (fun h p => .add p.1 ⟨tableLen (Change.table h), p.2⟩ :: h) hist) ∧
      SlotLayout MapEntry.offset table [] ∧ ∀ n e, table.lookup n = some e → e.attrs.Typed := by
  induction props generalizing hist with
  | nil =>
    cases h
    exact ⟨rfl, hlay, htyped⟩
  | cons p props ih =>
    rw [List.foldlM_cons] at h
    obtain ⟨t, ht, h⟩ := Option.bind_eq_some_iff.mp h
    unfold builderAdd at ht
    split at ht
    · cases ht
    next hn =>
    cases ht
    refine ih (.add p.1 ⟨tableLen (Change.table hist), p.2.1⟩ :: hist) ?_ ?_ h
    · exact hlay.push hn (by simp)
    · intro n e he
      rw [Change.table, lookup_insert_eq] at he
      split at he
      · cases he
        exact p.2.2
      · exact htyped n e he

namespace Refines

variable {h : ShapeHeap} {F : Family} {s : ℕ}

theorem build (hr : Refines h F) {props : List (Symbol × TypedAttrs)} {table : TargetTable}
    (ht : props.foldlM builderAdd ∅ = some table) (prototype : Option ℕ) (unique indexed : Bool) :
    Refines (h.enter unique (h.shapes.newFromTable table prototype unique indexed))
      (F.makeRoot unique (Change.built (props.map fun p => (p.1, p.2.1)))) := by
  obtain ⟨htable, hlay, htyped⟩ := foldlM_builderAdd [] SlotLayout.empty
    (fun n e he => by rw [Change.table, Finmap.lookup_empty] at he; cases he) ht
  obtain ⟨hinv, hshape, hview⟩ := hr.inv.newFromTable hlay htyped prototype unique indexed
    _ (fun _ => mem_enter)
  rw [Shapes.newFromTable_eq_alloc] at hinv hshape hview ⊢
  refine hr.enter hinv ⟨rfl, fun r hlt => ?_⟩ hshape (hview.trans htable)
    ⟨_, _, _, _, Shapes.structures_alloc_new _ _⟩
  obtain ⟨hfind, hcount, hshared⟩ := Shapes.sameLinks_alloc (h.shapes.withTable table)
    (Shapes.rootCell (some h.shapes.nextTable) (tableLen table) prototype unique indexed) hlt
  exact ⟨hfind, hcount, hshared⟩

/-- **Steps.** Every operation that its callers may make ends, and does to the family what `act` says. -/
theorem step (hr : Refines h F) {op : ShapeOp} (hv : op.Valid h) :
    ∃ h', op.exec h = some h' ∧ Refines h' (op.act F) := by
  cases op with
  | root p u i =>
    refine ⟨_, rfl, ?_⟩
    rw [show (if u then h.shapes.newUniqueIndexed p i else h.shapes.newIndexed p i) =
      h.shapes.ctor1 p u i by cases u <;> rfl]
    exact hr.root p u i
  | build props p u i =>
    obtain ⟨table, ht⟩ := Option.ne_none_iff_exists'.mp hv
    exact ⟨_, by rw [ShapeOp.exec, ht, Option.map_some], hr.build ht p u i⟩
  | add s n a => exact ⟨_, rfl, (hr.add hv.1 (hr.notMem_view hv.1 hv.2) a.2).2.2⟩
  | delete s n =>
    obtain ⟨e, he⟩ := hr.exists_lookup hv.1 hv.2
    obtain ⟨q, hq, hr'⟩ := hr.delete hv.1 he
    exact ⟨_, by rw [ShapeOp.exec, hq, Option.map_some], hr'⟩
  | changeAttributes s n a =>
    obtain ⟨e, he⟩ := hr.exists_lookup hv.1 hv.2
    obtain ⟨q, hq, hr'⟩ := hr.changeAttributes hv.1 he a.2
    exact ⟨_, by rw [ShapeOp.exec, hq, Option.map_some], hr'⟩
  | changeExtensible s => exact ⟨_, rfl, hr.successor hv⟩
  | changeIndexed s =>
    obtain ⟨ht, htgt⟩ := hr.inv.changeIndexedTransition hv
    exact ⟨_, rfl, hr.uniqueFor hv (fun _ _ _ => rfl) (fun _ => rfl) (fun _ => rfl) ht htgt rfl rfl⟩
  | changePrototype s p =>
    obtain ⟨ht, htgt⟩ := hr.inv.changePrototypeTransition hv p
    exact ⟨_, rfl, hr.uniqueFor hv (fun _ _ _ => rfl) (fun _ => rfl) (fun _ => rfl) ht htgt rfl rfl⟩
  | get s n =>
    exact ⟨_, rfl, hr.read (hr.inv.get hv n).2
      ⟨Shapes.nextStructure_get .., Shapes.sameLinks_get h.shapes s n⟩⟩
  | getOwnPropertyNames s =>
    have ht := (hr.inv.allocateTableIfNeeded hv).1
    exact ⟨_, rfl, hr.read ht ⟨ht.next, Shapes.sameLinks_allocateTableIfNeeded h.shapes s⟩⟩
  | allocateTable s =>
    exact ⟨_, rfl, hr.read (hr.inv.ensureTable hv).1 (Shapes.keepsLinks_ensureTable h.shapes s)⟩
  | clear s n a => exact ⟨_, rfl, hr.clear hv n a⟩

end Refines

theorem refines_init : Refines .init .init where
  inv := Shapes.inv_init.mono fun s hs => (Finset.notMem_empty s hs).elim
  held := rfl
  next := rfl
  unique hs := (Finset.notMem_empty _ hs).elim
  shared hs := (Nat.not_lt_zero _ hs).elim
  view hs := (Nat.not_lt_zero _ hs.1).elim
  free hs := (Nat.not_lt_zero _ hs.1).elim
  child hs := (Nat.not_lt_zero _ hs).elim
  count hs := (Nat.not_lt_zero _ hs).elim

theorem ShapeRun.refines {h h' : ShapeHeap} {ops : List ShapeOp} (hrun : ShapeRun h ops h') {F : Family}
    (hr : Refines h F) : Refines h' (ops.foldl ShapeOp.act F) := by
  induction hrun generalizing F with
  | nil h => exact hr
  | cons hv he _ ih =>
    obtain ⟨h₁, he₁, hr₁⟩ := hr.step hv
    rw [he] at he₁
    cases he₁
    exact ih hr₁

end Starlight
