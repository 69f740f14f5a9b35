import Mathlib.Data.Finmap

/-!
# Slot layouts

A record whose fields come and go can keep their values in one array: a finite map sends each name
to an entry holding the offset of its slot, and a free list holds the offsets of removed names. The
array then needs `table.len + free.length` slots.

`SlotLayout off table free` says that this bookkeeping is consistent: the slots of different names
are different, no live slot is on the free list, the free list has no repeats, and every offset is
below the size.
-/

namespace Starlight

section FiniteMap

variable {K E : Type} [DecidableEq K]

/-- The number of names in a finite map. -/
def tableLen (t : Finmap fun _ : K => E) : ℕ := t.keys.card

theorem keys_insert (k : K) (e : E) (t : Finmap fun _ : K => E) :
    (t.insert k e).keys = insert k t.keys := by
  ext a
  rw [Finmap.mem_keys, Finmap.mem_insert, Finset.mem_insert, Finmap.mem_keys]

theorem tableLen_insert_of_notMem {k : K} {t : Finmap fun _ : K => E} (h : k ∉ t) (e : E) :
    tableLen (t.insert k e) = tableLen t + 1 := by
  rw [tableLen, keys_insert, Finset.card_insert_of_notMem (by rwa [Finmap.mem_keys]), tableLen]

theorem tableLen_insert_of_mem {k : K} {t : Finmap fun _ : K => E} (h : k ∈ t) (e : E) :
    tableLen (t.insert k e) = tableLen t := by
  rw [tableLen, keys_insert, Finset.insert_eq_of_mem (by rwa [Finmap.mem_keys]), tableLen]

theorem tableLen_erase_of_mem {k : K} {t : Finmap fun _ : K => E} (h : k ∈ t) :
    tableLen (t.erase k) + 1 = tableLen t := by
  rw [tableLen, Finmap.keys_erase, tableLen, Finset.card_erase_add_one (by rwa [Finmap.mem_keys])]

theorem lookup_insert_eq (k a : K) (e : E) (t : Finmap fun _ : K => E) :
    (t.insert k e).lookup a = if a = k then some e else t.lookup a := by
  split
  · next h => rw [h, Finmap.lookup_insert]
  · next h => exact Finmap.lookup_insert_of_ne _ h

theorem lookup_erase_eq (k a : K) (t : Finmap fun _ : K => E) :
    (t.erase k).lookup a = if a = k then none else t.lookup a := by
  split
  · next h => rw [h, Finmap.lookup_erase]
  · next h => exact Finmap.lookup_erase_ne h

/-- Inserting an entry that is there already changes nothing. -/
theorem insert_of_lookup {k : K} {e : E} {t : Finmap fun _ : K => E} (h : t.lookup k = some e) :
    t.insert k e = t := by
  refine Finmap.ext_lookup fun a => ?_
  rw [lookup_insert_eq]
  split
  · next ha => rw [ha, h]
  · rfl

/-- Insertions of different names commute, so a list of insertions can be taken in any order with
respect to one more. -/
theorem foldl_insert_comm (l : List (K × E)) (k : K) (e : E) (t : Finmap fun _ : K => E)
    (h : k ∉ l.map Prod.fst) :
    l.foldl (fun t x => t.insert x.1 x.2) (t.insert k e) =
      (l.foldl (fun t x => t.insert x.1 x.2) t).insert k e := by
  induction l generalizing t with
  | nil => rfl
  | cons x l ih =>
    simp only [List.map_cons, List.mem_cons, not_or] at h
    rw [List.foldl_cons, List.foldl_cons, ← ih _ h.2,
      Finmap.insert_insert_of_ne _ (Ne.symm h.1)]

end FiniteMap

/-- The layout of a slot array: `off` reads the offset in an entry of `table`, and `free` lists the
offsets of removed names. -/
structure SlotLayout {K E : Type} [DecidableEq K] (off : E → ℕ) (table : Finmap fun _ : K => E)
    (free : List ℕ) : Prop where
  /-- Different names have different slots. -/
  inj : ∀ {k k' e e'}, table.lookup k = some e → table.lookup k' = some e' →
    off e = off e' → k = k'
  /-- Every live slot is inside the array. -/
  lt : ∀ {k e}, table.lookup k = some e → off e < tableLen table + free.length
  /-- A live slot is not free. -/
  notMem_free : ∀ {k e}, table.lookup k = some e → off e ∉ free
  free_nodup : free.Nodup
  free_lt : ∀ x ∈ free, x < tableLen table + free.length

namespace SlotLayout

variable {K E : Type} [DecidableEq K] {off : E → ℕ} {t : Finmap fun _ : K => E} {free : List ℕ}

theorem empty : SlotLayout off (∅ : Finmap fun _ : K => E) [] where
  inj h := by simp at h
  lt h := by simp at h
  notMem_free h := by simp at h
  free_nodup := List.nodup_nil
  free_lt := by simp

/-- A new name takes the slot just past the end. -/
theorem push (h : SlotLayout off t free) {k : K} (hk : k ∉ t) {e : E}
    (he : off e = tableLen t + free.length) : SlotLayout off (t.insert k e) free := by
  have hlen := tableLen_insert_of_notMem hk e
  constructor
  case inj =>
    intro a a' d d' ha ha' hd
    rw [lookup_insert_eq] at ha ha'
    split at ha <;> split at ha'
    · next h₁ h₂ => rw [h₁, h₂]
    · cases ha; have := h.lt ha'; omega
    · cases ha'; have := h.lt ha; omega
    · exact h.inj ha ha' hd
  case lt =>
    intro a d ha
    rw [lookup_insert_eq] at ha
    split at ha
    · cases ha; omega
    · have := h.lt ha; omega
  case notMem_free =>
    intro a d ha
    rw [lookup_insert_eq] at ha
    split at ha
    · cases ha; intro hmem; have := h.free_lt _ hmem; omega
    · exact h.notMem_free ha
  case free_nodup => exact h.free_nodup
  case free_lt => intro x hx; have := h.free_lt x hx; omega

/-- A new name takes the slot at the head of the free list. -/
theorem reuse {x : ℕ} (h : SlotLayout off t (x :: free)) {k : K} (hk : k ∉ t) {e : E}
    (he : off e = x) : SlotLayout off (t.insert k e) free := by
  have hlen := tableLen_insert_of_notMem hk e
  have hnd := List.nodup_cons.mp h.free_nodup
  have hx := h.free_lt x (by simp)
  simp only [List.length_cons] at hx
  constructor
  case inj =>
    intro a a' d d' ha ha' hd
    rw [lookup_insert_eq] at ha ha'
    split at ha <;> split at ha'
    · next h₁ h₂ => rw [h₁, h₂]
    · cases ha; exact absurd (by simp [← hd, he]) (h.notMem_free ha')
    · cases ha'; exact absurd (by simp [hd, he]) (h.notMem_free ha)
    · exact h.inj ha ha' hd
  case lt =>
    intro a d ha
    rw [lookup_insert_eq] at ha
    split at ha
    · cases ha; omega
    · have := h.lt ha; simp only [List.length_cons] at this; omega
  case notMem_free =>
    intro a d ha
    rw [lookup_insert_eq] at ha
    split at ha
    · cases ha; rw [he]; exact hnd.1
    · exact fun hmem => h.notMem_free ha (List.mem_cons_of_mem _ hmem)
  case free_nodup => exact hnd.2
  case free_lt =>
    intro y hy
    have := h.free_lt y (List.mem_cons_of_mem _ hy)
    simp only [List.length_cons] at this
    omega

theorem erase (h : SlotLayout off t free) {k : K} {e : E} (hk : t.lookup k = some e) :
    SlotLayout off (t.erase k) (off e :: free) := by
  have hlen := tableLen_erase_of_mem (Finmap.mem_of_lookup_eq_some hk)
  have split_lookup : ∀ {a d}, (t.erase k).lookup a = some d → a ≠ k ∧ t.lookup a = some d := by
    intro a d ha
    rw [lookup_erase_eq] at ha
    split at ha
    · simp at ha
    · exact ⟨‹_›, ha⟩
  constructor
  case inj => intro a a' d d' ha ha'; exact h.inj (split_lookup ha).2 (split_lookup ha').2
  case lt =>
    intro a d ha
    have := h.lt (split_lookup ha).2
    simp only [List.length_cons]
    omega
  case notMem_free =>
    intro a d ha
    obtain ⟨hne, ha⟩ := split_lookup ha
    rw [List.mem_cons, not_or]
    exact ⟨fun hd => hne (h.inj ha hk hd), h.notMem_free ha⟩
  case free_nodup => exact List.nodup_cons.mpr ⟨h.notMem_free hk, h.free_nodup⟩
  case free_lt =>
    intro x hx
    simp only [List.length_cons]
    rcases List.mem_cons.mp hx with rfl | hx
    · have := h.lt hk; omega
    · have := h.free_lt x hx; omega

/-- An entry is replaced by one with the same offset. -/
theorem modify (h : SlotLayout off t free) {k : K} {e e' : E} (hk : t.lookup k = some e)
    (he : off e' = off e) : SlotLayout off (t.insert k e') free := by
  have hlen := tableLen_insert_of_mem (Finmap.mem_of_lookup_eq_some hk) e'
  -- every entry of the new table has the offset of an entry of the old one, under the same name
  have old : ∀ {a d}, (t.insert k e').lookup a = some d → ∃ c, t.lookup a = some c ∧ off c = off d := by
    intro a d ha
    rw [lookup_insert_eq] at ha
    split at ha
    · next hak => cases ha; exact ⟨e, hak ▸ hk, he.symm⟩
    · exact ⟨d, ha, rfl⟩
  constructor
  case inj =>
    intro a a' d d' ha ha' hd
    obtain ⟨c, hc, hcd⟩ := old ha
    obtain ⟨c', hc', hcd'⟩ := old ha'
    exact h.inj hc hc' (by rw [hcd, hcd', hd])
  case lt =>
    intro a d ha
    obtain ⟨c, hc, hcd⟩ := old ha
    have := h.lt hc
    omega
  case notMem_free =>
    intro a d ha
    obtain ⟨c, hc, hcd⟩ := old ha
    exact hcd ▸ h.notMem_free hc
  case free_nodup => exact h.free_nodup
  case free_lt => intro x hx; have := h.free_lt x hx; omega

end SlotLayout

end Starlight
