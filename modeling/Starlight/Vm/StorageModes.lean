import Starlight.Vm.ElementStorage
import Starlight.Vm.PutGet

/-!
# Changing between the storages of elements

`make_sparse` moves the vector to the map and `ensure_map` makes a map where there is none. Neither
changes an element or the length, for elements that are divided between the storages as in every heap that
a run reaches. The vector may be longer than the elements: it is not cut when the length of sparse elements
shrinks, but then nothing is left in it.
-/

namespace Starlight

open JsObject World IndexedElements

variable {w : World} {ix : IndexedElements} {i : ℕ}

namespace IndexedElements

def ensureMap (ix : IndexedElements) : IndexedElements := { ix with map := some (ix.map.getD ∅) }

structure SameAs (ix ix' : IndexedElements) : Prop where
  stored : ix.stored = ix'.stored
  length : ix.length = ix'.length

/-- No index is stored twice, and no value lies where the length or the mode hides it. -/
structure Divided (ix : IndexedElements) : Prop where
  vector : ∀ i, ix.vector.getD i .empty ≠ .empty → ix.dense = true ∧ i < ix.length
  map : ix.dense = true → ∀ i s, ix.sparse i = some s → maxVectorSize ≤ i
  once : ∀ i, ix.vector.getD i .empty ≠ .empty → ix.sparse i = none

theorem Sound.divided (h : ix.Sound) : ix.Divided where
  vector := h.vector
  map hd i s hs := by
    by_contra hlt
    rw [h.map hd i (by omega)] at hs
    cases hs
  once i hne := by
    have hlt : i < ix.vector.length := by
      by_contra hge
      exact hne (getD_of_le (by omega))
    exact h.map (h.vector i hne).1 i (lt_of_lt_of_le hlt h.size)

theorem Sound.stored_makeSparse_of_sparse (h : ix.Sound) (hd : ix.dense = false) :
    ix.makeSparse.stored = ix.stored := by
  funext i
  have hmap := h.stored_map (i := i) fun hc => absurd (hd.symm.trans hc) Bool.false_ne_true
  have hmap' := h.makeSparse.stored_map (i := i) fun hc => nomatch hc
  rw [hmap', hmap, sparse_makeSparse_eq, h.blank hd i]
  rfl

theorem Sound.sameAs_makeSparse (h : ix.Sound) : ix.makeSparse.SameAs ix := by
  refine ⟨?_, rfl⟩
  cases hd : ix.dense with
  | true => exact h.stored_makeSparse hd
  | false => exact h.stored_makeSparse_of_sparse hd

theorem sameAs_ensureMap (ix : IndexedElements) : ix.ensureMap.SameAs ix := by
  refine ⟨?_, rfl⟩
  funext i
  unfold stored ensureMap
  rw [sparse_getD_map]

end IndexedElements

/-- An array whose only element became sparse and was cut off. -/
def cutWorld : World :=
  ((arrayWorld.after (.on 0 (.put (.index 0) .null true))).after
    (.on 0 (.define (.index 0) (.dataDescriptor .null { configurable := true }) true))).after
      (.on 0 (.defineLengthTo (.dataDescriptor (.int32 0) {}) (.fin 0) true))

theorem reachable_cutWorld : Reachable (fun _ _ => True) cutWorld := by
  have h₀ : Reachable (fun _ _ => True) arrayWorld := reachable_arrayWorld.mono fun _ _ _ => trivial
  have h₁ := h₀.step (.on 0 (.put (.index 0) .null true)) (show 0 < 1 by decide) trivial rfl
  have h₂ := h₁.step (.on 0 (.define (.index 0) (.dataDescriptor .null { configurable := true }) true))
    (show 0 < 1 by decide) trivial rfl
  exact h₂.step (.on 0 (.defineLengthTo (.dataDescriptor (.int32 0) {}) (.fin 0) true))
    (show 0 < 1 by decide) trivial rfl

end Starlight
