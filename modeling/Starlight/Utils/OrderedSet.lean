import Mathlib.Data.Finset.Basic
import Starlight.Lib.BinarySearch
import Starlight.Lib.Transducer

/-!
# Ordered sets

`OrderedSet` keeps its elements in a sorted vector, and every operation searches the vector by halves.
-/

namespace Starlight

variable {α : Type} [LinearOrder α]

structure OrderedSet (α : Type) where
  vec : List α

namespace OrderedSet

def new : OrderedSet α := ⟨[]⟩

def retain (f : α → Bool) (s : OrderedSet α) : OrderedSet α :=
  ⟨(s.vec.filter f).insertionSort (· ≤ ·)⟩

def insert (value : α) (s : OrderedSet α) : Bool × OrderedSet α :=
  match binarySearch s.vec value with
  | .ok _ => (false, s)
  | .error loc => (true, ⟨s.vec.insertIdx loc value⟩)

def remove (value : α) (s : OrderedSet α) : Bool × OrderedSet α :=
  match binarySearch s.vec value with
  | .ok loc => (true, ⟨s.vec.eraseIdx loc⟩)
  | .error _ => (false, s)

def contains (s : OrderedSet α) (value : α) : Bool := (binarySearch s.vec value).toBool

/-- A call, with its arguments. -/
inductive Op (α : Type) where
  | insert (value : α)
  | remove (value : α)
  | retain (f : α → Bool)
  | contains (value : α)

/-- A call on an ordered set; `retain` answers nothing. -/
def machine : Transducer (Op α) (Option Bool) (OrderedSet α) where
  step s
    | .insert value => some (some (s.insert value).1, (s.insert value).2)
    | .remove value => some (some (s.remove value).1, (s.remove value).2)
    | .retain f => some (none, s.retain f)
    | .contains value => some (some (s.contains value), s)

/-- What the call means for a mathematical set. -/
def setMachine : Transducer (Op α) (Option Bool) (Finset α) where
  step d
    | .insert value => some (some (decide (value ∉ d)), Insert.insert value d)
    | .remove value => some (some (decide (value ∈ d)), d.erase value)
    | .retain f => some (none, d.filter fun a => f a = true)
    | .contains value => some (some (decide (value ∈ d)), d)

/-- The vector is strictly sorted and has the elements of `d`. -/
structure Represents (s : OrderedSet α) (d : Finset α) : Prop where
  sorted : s.vec.Pairwise (· < ·)
  elements : s.vec.toFinset = d

namespace Represents

variable {s : OrderedSet α} {d : Finset α}

theorem mem (h : Represents s d) {x : α} : x ∈ s.vec ↔ x ∈ d := by
  rw [← h.elements, List.mem_toFinset]

theorem contains_eq (h : Represents s d) (value : α) : s.contains value = decide (value ∈ d) := by
  have hfound := located_binarySearch h.sorted value
  unfold OrderedSet.contains
  cases hs : binarySearch s.vec value with
  | ok i =>
    obtain ⟨hi, rfl⟩ := hs ▸ hfound
    exact (decide_eq_true (h.mem.mp (List.getElem_mem hi))).symm
  | error i =>
    have hmiss := (hs ▸ hfound : Located s.vec value (.error i)).not_mem
    exact (decide_eq_false (mt h.mem.mpr hmiss)).symm

theorem insert (h : Represents s d) (value : α) :
    (s.insert value).1 = decide (value ∉ d) ∧
      Represents (s.insert value).2 (Insert.insert value d) := by
  have hfound := located_binarySearch h.sorted value
  unfold OrderedSet.insert
  cases hs : binarySearch s.vec value with
  | ok i =>
    obtain ⟨hi, rfl⟩ := hs ▸ hfound
    have hmem := h.mem.mp (List.getElem_mem hi)
    exact ⟨(decide_eq_false (not_not.mpr hmem)).symm,
      (Finset.insert_eq_of_mem hmem).symm ▸ h⟩
  | error i =>
    have hmiss : Located s.vec value (.error i) := hs ▸ hfound
    have hmem := mt h.mem.mpr hmiss.not_mem
    obtain ⟨hi, hlow, hhigh⟩ := hmiss
    have hvec : s.vec.insertIdx i value = s.vec.take i ++ value :: s.vec.drop i :=
      insertIdx_eq_append hi
    have hparts := List.take_append_drop i s.vec ▸ h.sorted
    refine ⟨(decide_eq_true hmem).symm, ?_, ?_⟩
    · dsimp only
      rw [hvec, List.pairwise_append, List.pairwise_cons]
      obtain ⟨hl, hr, hlr⟩ := List.pairwise_append.mp hparts
      refine ⟨hl, ⟨hhigh, hr⟩, fun a ha b hb => ?_⟩
      rcases List.mem_cons.mp hb with rfl | hb
      · exact hlow a ha
      · exact hlr a ha b hb
    · ext a
      rw [List.mem_toFinset, List.mem_insertIdx hi, Finset.mem_insert, h.mem]

theorem remove (h : Represents s d) (value : α) :
    (s.remove value).1 = decide (value ∈ d) ∧ Represents (s.remove value).2 (d.erase value) := by
  have hfound := located_binarySearch h.sorted value
  unfold OrderedSet.remove
  cases hs : binarySearch s.vec value with
  | ok i =>
    obtain ⟨hi, rfl⟩ := hs ▸ hfound
    have hnodup : s.vec.Nodup := h.sorted.imp fun hlt => hlt.ne
    refine ⟨(decide_eq_true (h.mem.mp (List.getElem_mem hi))).symm, h.sorted.eraseIdx i, ?_⟩
    ext a
    dsimp only
    rw [List.mem_toFinset, ← hnodup.erase_getElem, hnodup.mem_erase_iff, Finset.mem_erase, h.mem]
  | error i =>
    have hmiss := mt h.mem.mpr (hs ▸ hfound : Located s.vec value (.error i)).not_mem
    exact ⟨(decide_eq_false hmiss).symm, (Finset.erase_eq_of_notMem hmiss).symm ▸ h⟩

theorem retain (h : Represents s d) (f : α → Bool) :
    Represents (s.retain f) (d.filter fun a => f a = true) := by
  have hkept : (s.vec.filter f).Pairwise (· < ·) := h.sorted.filter f
  have hsort : (s.vec.filter f).insertionSort (· ≤ ·) = s.vec.filter f :=
    (hkept.imp fun hlt => hlt.le).insertionSort_eq
  refine ⟨?_, ?_⟩ <;> unfold OrderedSet.retain <;> rw [hsort]
  · exact hkept
  · ext a
    rw [List.mem_toFinset, List.mem_filter, Finset.mem_filter, h.mem]

/-- A call answers what it answers on the set, and leaves the vector of what it leaves there. -/
theorem step (h : Represents s d) (op : Op α) :
    Option.Rel (fun x y => y.1 = x.1 ∧ Represents x.2 y.2) (machine.step s op)
      (setMachine.step d op) := by
  cases op with
  | insert value => exact .some ⟨congrArg some (h.insert value).1.symm, (h.insert value).2⟩
  | remove value => exact .some ⟨congrArg some (h.remove value).1.symm, (h.remove value).2⟩
  | retain f => exact .some ⟨rfl, h.retain f⟩
  | contains value => exact .some ⟨congrArg some (h.contains_eq value).symm, h⟩

end Represents

theorem machine_total (s : OrderedSet α) (ops : List (Op α)) : (machine.run s ops).isSome := by
  refine Transducer.run_isSome (fun s op => ?_) s ops
  cases op <;> rfl

/-- **An ordered set is a set.** After any sequence of calls on a new one the vector is strictly sorted
and has the elements the calls leave in a mathematical set, and every call has answered what it answers
there. -/
theorem runs_as_set (ops : List (Op α)) :
    ∃ answers s, machine.run new ops = some (answers, s) ∧ s.vec.Pairwise (· < ·) ∧
      setMachine.run ∅ ops = some (answers, s.vec.toFinset) := by
  have hnew : Represents (new : OrderedSet α) ∅ := ⟨List.Pairwise.nil, rfl⟩
  have hrun : Option.Rel (fun x y => y.1 = x.1.map id ∧ Represents x.2 y.2) (machine.run new ops)
      (setMachine.run ∅ (ops.map id)) :=
    Transducer.run_simulates (P := fun _ _ => True) (fun h _ => h.step _) hnew
      (Transducer.along_of_forall fun _ _ => trivial)
  obtain ⟨⟨answers, s⟩, hs⟩ := Option.isSome_iff_exists.mp (machine_total new ops)
  rw [List.map_id, hs] at hrun
  obtain ⟨⟨_, _⟩, hd, rfl, hrep⟩ := Transducer.exists_of_rel hrun
  exact ⟨answers, s, hs, hrep.sorted, by rw [hd, hrep.elements, List.map_id]⟩

end OrderedSet

end Starlight
