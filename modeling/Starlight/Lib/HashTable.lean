import Mathlib.Tactic.Common

/-!
# Hash tables

A hash table stores entries and finds one by walking through some of its slots. Which slots it visits
depends on the size of the table, on what was removed before and on the seed of the hasher; what can be
relied on is that it visits every slot whose key has the hash that is looked for.

`KeyMap` says what the table is for: a partial function on keys that does not tell equal keys apart.
-/

namespace Starlight

variable {κ ν η : Type}

/-- A partial function on keys, the same on equal ones. -/
@[ext]
structure KeyMap (κ ν : Type) [BEq κ] where
  find : κ → Option ν
  congr : ∀ {k k' : κ}, (k == k') = true → find k = find k'

namespace KeyMap

variable [BEq κ] [EquivBEq κ]

def empty : KeyMap κ ν := ⟨fun _ => none, fun _ => rfl⟩

def set (m : KeyMap κ ν) (k : κ) (v : ν) : KeyMap κ ν where
  find k' := if k == k' then some v else m.find k'
  congr h := by rw [BEq.congr_right h, m.congr h]

def delete (m : KeyMap κ ν) (k : κ) : KeyMap κ ν where
  find k' := if k == k' then none else m.find k'
  congr h := by rw [BEq.congr_right h, m.congr h]

end KeyMap

/-- The slots that a table visits when it looks for a key. -/
structure Search (κ ν : Type) (hash : κ → η) where
  slots : List (κ × ν) → κ → List ℕ
  complete : ∀ {entries : List (κ × ν)} {k : κ} {i : ℕ} {e : κ × ν},
    entries[i]? = some e → hash e.1 = hash k → i ∈ slots entries k

def DistinctKeys [BEq κ] (entries : List (κ × ν)) : Prop :=
  entries.Pairwise fun e e' => (e.1 == e'.1) = false

def contents [BEq κ] [EquivBEq κ] (entries : List (κ × ν)) : KeyMap κ ν where
  find k := (entries.find? fun e => k == e.1).map Prod.snd
  congr h := by simp only [BEq.congr_left h]

section

variable [BEq κ] [EquivBEq κ] {entries : List (κ × ν)} {k k' : κ} {v : ν}

/-- Only one entry has a given key. -/
theorem DistinctKeys.unique (hd : DistinctKeys entries) {i j : ℕ} {e e' : κ × ν}
    (hi : entries[i]? = some e) (hj : entries[j]? = some e') (h : (e.1 == e'.1) = true) : i = j := by
  obtain ⟨hi', rfl⟩ := List.getElem?_eq_some_iff.mp hi
  obtain ⟨hj', rfl⟩ := List.getElem?_eq_some_iff.mp hj
  have hpair := List.pairwise_iff_getElem.mp hd
  rcases Nat.lt_trichotomy i j with hlt | rfl | hlt
  · rw [hpair i j hi' hj' hlt] at h
    cases h
  · rfl
  · rw [BEq.comm, hpair j i hj' hi' hlt] at h
    cases h

theorem find_contents_iff (hd : DistinctKeys entries) :
    (contents entries).find k = some v ↔ ∃ e ∈ entries, (k == e.1) = true ∧ e.2 = v := by
  constructor
  · intro h
    obtain ⟨e, he, hv⟩ := Option.map_eq_some_iff.mp h
    have hk := List.find?_some he
    exact ⟨e, List.mem_of_find?_eq_some he, hk, hv⟩
  · rintro ⟨e, he, hk, rfl⟩
    obtain ⟨e', he'⟩ := Option.isSome_iff_exists.mp
      (List.find?_isSome (p := fun e => k == e.1).mpr ⟨e, he, hk⟩)
    obtain ⟨i, hi⟩ := List.mem_iff_getElem?.mp he
    obtain ⟨j, hj⟩ := List.mem_iff_getElem?.mp (List.mem_of_find?_eq_some he')
    have hk' := List.find?_some he'
    obtain rfl := hd.unique hi hj (BEq.trans (BEq.symm hk) hk')
    refine Option.map_eq_some_iff.mpr ⟨e', he', ?_⟩
    rw [Option.some.inj (hi.symm.trans hj)]

theorem find_contents_eq_none_iff :
    (contents entries).find k = none ↔ ∀ e ∈ entries, (k == e.1) = false := by
  refine Option.map_eq_none_iff.trans (List.find?_eq_none.trans ?_)
  simp only [Bool.not_eq_true]

end

/-! ### The operations -/

namespace Search

/-- The walk through the slots that have the hash. -/
def exact [DecidableEq η] (hash : κ → η) : Search κ ν hash where
  slots entries k :=
    (List.range entries.length).filter fun i => entries[i]?.any fun e => hash e.1 = hash k
  complete {entries k i e} he hh := by
    refine List.mem_filter.mpr ⟨List.mem_range.mpr (List.getElem?_eq_some_iff.mp he).1, ?_⟩
    rw [he]
    exact decide_eq_true hh

variable {hash : κ → η} [BEq κ] (s : Search κ ν hash) (entries : List (κ × ν)) (k : κ)

/-- The first of the visited slots that holds the key. -/
def find : Option ℕ := (s.slots entries k).find? fun i => entries[i]?.any fun e => k == e.1

def get : Option ν := (s.find entries k).bind fun i => entries[i]?.map Prod.snd

def containsKey : Bool := (s.find entries k).isSome

/-- The value of an entry is replaced, and its key kept. -/
def insert (v : ν) : Option ν × List (κ × ν) :=
  match s.find entries k with
  | some i => (s.get entries k, entries.modify i fun e => (e.1, v))
  | none => (none, (k, v) :: entries)

def remove : Option ν × List (κ × ν) :=
  match s.find entries k with
  | some i => (s.get entries k, entries.eraseIdx i)
  | none => (none, entries)

/-! ### Searching -/

section

variable {s entries k}

theorem find_eq_some {i : ℕ} (h : s.find entries k = some i) :
    ∃ e, entries[i]? = some e ∧ (k == e.1) = true := by
  have hany := List.find?_some h
  exact (Option.any_eq_true _ _).mp hany

/-- A table may miss an entry of another hash. -/
theorem find_exact_eq_none [DecidableEq η] (h : ∀ e ∈ entries, hash e.1 ≠ hash k) :
    (Search.exact hash).find entries k = none := by
  refine List.find?_eq_none.mpr fun i hi => ?_
  obtain ⟨e, he, hh⟩ := (Option.any_eq_true _ _).mp (List.mem_filter.mp hi).2
  exact absurd (of_decide_eq_true hh) (h e (List.mem_of_getElem? he))

/-- A search for a key finds its entry when the entry has the hash of the key. -/
theorem find_eq_none (hc : ∀ e ∈ entries, (k == e.1) = true → hash e.1 = hash k)
    (h : s.find entries k = none) {e : κ × ν} (he : e ∈ entries) : (k == e.1) = false := by
  obtain ⟨i, hi⟩ := List.mem_iff_getElem?.mp he
  by_contra hne
  have hk : (k == e.1) = true := Bool.of_not_eq_false hne
  refine List.find?_eq_none.mp h i (s.complete hi (hc e he hk)) ?_
  rw [hi]
  exact hk

/-! ### Changing a table -/

theorem distinctKeys_insert (hd : DistinctKeys entries)
    (hc : ∀ e ∈ entries, (k == e.1) = true → hash e.1 = hash k) (v : ν) :
    DistinctKeys (s.insert entries k v).2 := by
  unfold Search.insert
  cases hf : s.find entries k with
  | none =>
    exact List.pairwise_cons.mpr ⟨fun e he => find_eq_none hc hf he, hd⟩
  | some i =>
    refine List.pairwise_iff_getElem.mpr fun a b ha hb hab => ?_
    simp only [List.getElem_modify]
    have := List.pairwise_iff_getElem.mp hd a b (by simpa using ha) (by simpa using hb) hab
    split <;> split <;> exact this

theorem distinctKeys_remove (hd : DistinctKeys entries) : DistinctKeys (s.remove entries k).2 := by
  unfold Search.remove
  cases s.find entries k with
  | none => exact hd
  | some i => exact hd.sublist (List.eraseIdx_sublist _ _)

theorem key_mem_insert {v : ν} {e : κ × ν} (he : e ∈ (s.insert entries k v).2) :
    e.1 = k ∨ ∃ e' ∈ entries, e'.1 = e.1 := by
  unfold Search.insert at he
  cases hf : s.find entries k with
  | none =>
    rw [hf] at he
    rcases List.mem_cons.mp he with rfl | he
    · exact .inl rfl
    · exact .inr ⟨e, he, rfl⟩
  | some i =>
    rw [hf] at he
    obtain ⟨j, hj⟩ := List.mem_iff_getElem?.mp he
    rw [List.getElem?_modify] at hj
    obtain ⟨e₀, he₀, rfl⟩ := Option.map_eq_some_iff.mp hj
    refine .inr ⟨e₀, List.mem_of_getElem? he₀, ?_⟩
    split <;> rfl

theorem mem_remove {e : κ × ν} (he : e ∈ (s.remove entries k).2) : e ∈ entries := by
  unfold Search.remove at he
  cases hf : s.find entries k with
  | none => rwa [hf] at he
  | some i =>
    rw [hf] at he
    exact List.mem_of_mem_eraseIdx he

/-! ### The table as a partial function -/

variable [EquivBEq κ]

theorem get_eq (hd : DistinctKeys entries)
    (hc : ∀ e ∈ entries, (k == e.1) = true → hash e.1 = hash k) :
    s.get entries k = (contents entries).find k := by
  rw [get]
  cases hf : s.find entries k with
  | none =>
    exact (find_contents_eq_none_iff.mpr fun e he => find_eq_none hc hf he).symm
  | some i =>
    obtain ⟨e, he, hk⟩ := find_eq_some hf
    rw [Option.bind_some, he]
    exact ((find_contents_iff hd).mpr ⟨e, List.mem_of_getElem? he, hk, rfl⟩).symm

theorem containsKey_eq (hd : DistinctKeys entries)
    (hc : ∀ e ∈ entries, (k == e.1) = true → hash e.1 = hash k) :
    s.containsKey entries k = ((contents entries).find k).isSome := by
  rw [containsKey, ← get_eq (s := s) hd hc, get]
  cases hf : s.find entries k with
  | none => rfl
  | some i =>
    obtain ⟨e, he, -⟩ := find_eq_some hf
    rw [Option.bind_some, he]
    rfl

/-- An insertion is the one of the partial function. -/
theorem insert_eq (hd : DistinctKeys entries)
    (hc : ∀ e ∈ entries, (k == e.1) = true → hash e.1 = hash k) (v : ν) :
    (s.insert entries k v).1 = (contents entries).find k ∧
      contents (s.insert entries k v).2 = (contents entries).set k v := by
  have hget := get_eq (s := s) hd hc
  have hd' := distinctKeys_insert (s := s) hd hc v
  unfold Search.insert at hd' ⊢
  cases hf : s.find entries k with
  | none =>
    rw [Search.get, hf] at hget
    refine ⟨hget, KeyMap.ext (funext fun k' => ?_)⟩
    change Option.map _ (List.find? _ ((k, v) :: entries)) = if k == k' then _ else _
    rw [List.find?_cons, BEq.comm]
    cases k == k' <;> rfl
  | some i =>
    rw [hf] at hd'
    obtain ⟨e, he, hk⟩ := find_eq_some hf
    refine ⟨hget, KeyMap.ext (funext fun k' => Option.ext fun w => ?_)⟩
    refine (find_contents_iff hd').trans ?_
    simp only [List.mem_iff_getElem?, List.getElem?_modify, KeyMap.set]
    cases hkk : k == k' with
    | true =>
      -- a key that is found after the change is in slot `i`
      rw [if_pos rfl, Option.some_inj]
      constructor
      · rintro ⟨e', ⟨j, hj⟩, hk', rfl⟩
        obtain ⟨e₀, he₀, rfl⟩ := Option.map_eq_some_iff.mp hj
        by_cases hij : i = j
        · rw [if_pos hij]
        · rw [if_neg hij] at hk'
          exact absurd (hd.unique he he₀ (BEq.trans (BEq.symm hk) (BEq.trans hkk hk'))) hij
      · rintro rfl
        refine ⟨(e.1, v), ⟨i, ?_⟩, BEq.trans (BEq.symm hkk) hk, rfl⟩
        rw [he, Option.map_eq_map, Option.map_some, if_pos rfl]
    | false =>
      rw [if_neg Bool.false_ne_true, find_contents_iff hd]
      simp only [List.mem_iff_getElem?]
      -- another key is not in slot `i`, before or after
      have hother : ∀ {j : ℕ} {e' : κ × ν}, entries[j]? = some e' → (k' == e'.1) = true → i ≠ j := by
        rintro j e' he' hk' rfl
        obtain rfl := Option.some.inj (he.symm.trans he')
        rw [BEq.trans hk (BEq.symm hk')] at hkk
        cases hkk
      constructor
      · rintro ⟨e', ⟨j, hj⟩, hk', rfl⟩
        obtain ⟨e₀, he₀, rfl⟩ := Option.map_eq_some_iff.mp hj
        have hij : i ≠ j := hother he₀ (by split at hk' <;> exact hk')
        rw [if_neg hij] at hk' ⊢
        exact ⟨e₀, ⟨j, he₀⟩, hk', rfl⟩
      · rintro ⟨e', ⟨j, hj⟩, hk', rfl⟩
        refine ⟨e', ⟨j, ?_⟩, hk', rfl⟩
        rw [hj, Option.map_eq_map, Option.map_some, if_neg (hother hj hk')]

/-- A removal is the one of the partial function. -/
theorem remove_eq (hd : DistinctKeys entries)
    (hc : ∀ e ∈ entries, (k == e.1) = true → hash e.1 = hash k) :
    (s.remove entries k).1 = (contents entries).find k ∧
      contents (s.remove entries k).2 = (contents entries).delete k := by
  have hget := get_eq (s := s) hd hc
  have hd' := distinctKeys_remove (s := s) (k := k) hd
  unfold Search.remove at hd' ⊢
  cases hf : s.find entries k with
  | none =>
    rw [Search.get, hf] at hget
    refine ⟨hget, KeyMap.ext (funext fun k' => ?_)⟩
    change _ = if k == k' then none else _
    cases hkk : k == k' with
    | true => rw [if_pos rfl, ← (contents entries).congr hkk, ← hget]; rfl
    | false => rw [if_neg Bool.false_ne_true]
  | some i =>
    rw [hf] at hd'
    obtain ⟨e, he, hk⟩ := find_eq_some hf
    refine ⟨hget, KeyMap.ext (funext fun k' => Option.ext fun w => ?_)⟩
    refine (find_contents_iff hd').trans ?_
    simp only [List.mem_eraseIdx_iff_getElem?, KeyMap.delete]
    cases hkk : k == k' with
    | true =>
      -- the entry that is removed was the only one of the key
      rw [if_pos rfl]
      refine iff_of_false ?_ (Option.some_ne_none w).symm
      rintro ⟨e', ⟨j, hij, hj⟩, hk', -⟩
      exact hij (hd.unique he hj (BEq.trans (BEq.symm hk) (BEq.trans hkk hk'))).symm
    | false =>
      rw [if_neg Bool.false_ne_true, find_contents_iff hd]
      constructor
      · rintro ⟨e', ⟨j, -, hj⟩, hk', rfl⟩
        exact ⟨e', List.mem_of_getElem? hj, hk', rfl⟩
      · rintro ⟨e', he', hk', rfl⟩
        obtain ⟨j, hj⟩ := List.mem_iff_getElem?.mp he'
        refine ⟨e', ⟨j, ?_, hj⟩, hk', rfl⟩
        rintro rfl
        obtain rfl := Option.some.inj (he.symm.trans hj)
        rw [BEq.trans hk (BEq.symm hk')] at hkk
        cases hkk

end

end Search

end Starlight
