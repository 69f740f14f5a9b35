import Mathlib.Tactic.Ring

/-!
# Memory in bytes

A natural number in so many bytes, least significant first, and a memory of bytes whose addresses wrap
around. `load` and `store` go over a range from an address on; the byte at `a` is the one with number
`(a - p).toNat` in the range from `p` on.
-/

namespace Starlight

/-! ### Numbers as bytes -/

/-- The `w` bytes of `n`, the least significant first. What does not fit is cut off. -/
def leBytes : ℕ → ℕ → List (BitVec 8)
  | 0, _ => []
  | w + 1, n => BitVec.ofNat 8 n :: leBytes w (n / 256)

/-- The number with these bytes. -/
def ofLeBytes : List (BitVec 8) → ℕ
  | [] => 0
  | b :: bs => b.toNat + 256 * ofLeBytes bs

variable {w n : ℕ} {bs : List (BitVec 8)}

@[simp] theorem length_leBytes (w n : ℕ) : (leBytes w n).length = w := by
  induction w generalizing n with
  | zero => rfl
  | succ w ih => rw [leBytes, List.length_cons, ih]

theorem ofLeBytes_lt (bs : List (BitVec 8)) : ofLeBytes bs < 256 ^ bs.length := by
  induction bs with
  | nil => exact Nat.one_pos
  | cons b bs ih =>
    have hb := b.isLt
    rw [ofLeBytes, List.length_cons, pow_succ]
    omega

@[simp] theorem ofLeBytes_leBytes (w n : ℕ) : ofLeBytes (leBytes w n) = n % 256 ^ w := by
  induction w generalizing n with
  | zero => rw [leBytes, ofLeBytes, pow_zero, Nat.mod_one]
  | succ w ih =>
    rw [leBytes, ofLeBytes, ih, BitVec.toNat_ofNat, pow_succ' 256 w]
    exact Nat.mod_mul.symm

@[simp] theorem leBytes_ofLeBytes (bs : List (BitVec 8)) : leBytes bs.length (ofLeBytes bs) = bs := by
  induction bs with
  | nil => rfl
  | cons b bs ih =>
    have hb := b.isLt
    have hdiv : (b.toNat + 256 * ofLeBytes bs) / 256 = ofLeBytes bs := by omega
    rw [List.length_cons, ofLeBytes, leBytes, hdiv, ih]
    congr 1
    refine BitVec.eq_of_toNat_eq ?_
    rw [BitVec.toNat_ofNat]
    omega

/-! ### Memory -/

/-- The bytes at all addresses. -/
abbrev Memory := BitVec 64 → BitVec 8

namespace Memory

variable {m m' : Memory} {p q a : BitVec 64} {k : ℕ}

def load (m : Memory) (p : BitVec 64) (k : ℕ) : List (BitVec 8) :=
  (List.range k).map fun i => m (p + BitVec.ofNat 64 i)

/-- Write bytes from `p` on. -/
def store (m : Memory) (p : BitVec 64) (bs : List (BitVec 8)) : Memory := fun a =>
  (bs[(a - p).toNat]?).getD (m a)

@[simp] theorem length_load (m : Memory) (p : BitVec 64) (k : ℕ) : (m.load p k).length = k := by
  rw [load, List.length_map, List.length_range]

theorem getElem?_load (m : Memory) (p : BitVec 64) (k i : ℕ) :
    (m.load p k)[i]? = if i < k then some (m (p + BitVec.ofNat 64 i)) else none := by
  rw [load, List.getElem?_map]
  split
  · next hi => rw [List.getElem?_range hi, Option.map_some]
  · next hi =>
    rw [List.getElem?_eq_none (by rw [List.length_range]; omega), Option.map_none]

/-- The distance of an address in a range from its start. -/
theorem toNat_add_sub_mod (p : BitVec 64) (i : ℕ) : (p + BitVec.ofNat 64 i - p).toNat = i % 2 ^ 64 := by
  rw [BitVec.add_comm, BitVec.add_sub_cancel, BitVec.toNat_ofNat]

theorem toNat_add_sub (p : BitVec 64) {i : ℕ} (hi : i < 2 ^ 64) :
    (p + BitVec.ofNat 64 i - p).toNat = i := by
  rw [toNat_add_sub_mod, Nat.mod_eq_of_lt hi]

/-- **Frame.** An address out of the range keeps its byte. -/
theorem store_of_le (h : bs.length ≤ (a - p).toNat) : m.store p bs a = m a := by
  rw [store, List.getElem?_eq_none h, Option.getD_none]

theorem load_store (hk : bs.length ≤ 2 ^ 64) : (m.store p bs).load p bs.length = bs := by
  refine List.ext_getElem? fun i => ?_
  rw [getElem?_load]
  split
  · next hi =>
    rw [store, toNat_add_sub p (hi.trans_le hk), List.getElem?_eq_getElem hi, Option.getD_some]
  · next hi => rw [List.getElem?_eq_none (Nat.le_of_not_lt hi)]

theorem load_congr (h : ∀ i, i < k → m' (p + BitVec.ofNat 64 i) = m (p + BitVec.ofNat 64 i)) :
    m'.load p k = m.load p k :=
  List.map_congr_left fun i hi => h i (List.mem_range.mp hi)

/-- A range in two parts. -/
theorem load_append (m : Memory) (p : BitVec 64) (j k : ℕ) :
    m.load p j ++ m.load (p + BitVec.ofNat 64 j) k = m.load p (j + k) := by
  have haddr : ∀ i, p + BitVec.ofNat 64 j + BitVec.ofNat 64 i = p + BitVec.ofNat 64 (j + i) := fun i => by
    rw [BitVec.add_assoc, BitVec.ofNat_add]
  rw [load, load, load, List.range_add, List.map_append, List.map_map]
  exact congrArg _ (List.map_congr_left fun i _ => congrArg m (haddr i))

/-- What was stored, in two parts. -/
theorem load_store_append {bs' : List (BitVec 8)} (hk : bs.length + bs'.length ≤ 2 ^ 64) :
    (m.store p (bs ++ bs')).load p bs.length = bs ∧
      (m.store p (bs ++ bs')).load (p + BitVec.ofNat 64 bs.length) bs'.length = bs' := by
  have hload := @load_store (bs ++ bs') m p (by rwa [List.length_append])
  rw [List.length_append, ← load_append] at hload
  exact List.append_inj hload (length_load _ _ _)

/-- Nothing changes behind a first part, just if the second is what was there. -/
theorem store_append_frame_iff {bs' : List (BitVec 8)} (hk : bs.length + bs'.length ≤ 2 ^ 64) :
    (∀ a, bs.length ≤ (a - p).toNat → m.store p (bs ++ bs') a = m a) ↔
      bs' = m.load (p + BitVec.ofNat 64 bs.length) bs'.length := by
  have haddr : ∀ i, p + BitVec.ofNat 64 bs.length + BitVec.ofNat 64 i =
      p + BitVec.ofNat 64 (bs.length + i) := fun i => by
    rw [BitVec.add_assoc, BitVec.ofNat_add]
  constructor
  · intro hframe
    have hsame : (m.store p (bs ++ bs')).load (p + BitVec.ofNat 64 bs.length) bs'.length =
        m.load (p + BitVec.ofNat 64 bs.length) bs'.length := by
      refine load_congr fun i hi => hframe _ ?_
      rw [haddr, toNat_add_sub p (by omega)]
      exact Nat.le_add_right _ _
    rw [← hsame, (load_store_append hk).2]
  · intro heq a ha
    rw [store]
    by_cases hlt : (a - p).toNat < bs.length + bs'.length
    · have hi : (a - p).toNat - bs.length < bs'.length := by omega
      have ha' : p + BitVec.ofNat 64 bs.length + BitVec.ofNat 64 ((a - p).toNat - bs.length) = a := by
        rw [haddr, Nat.add_sub_cancel' ha, BitVec.ofNat_toNat, BitVec.setWidth_eq, BitVec.add_comm,
          BitVec.sub_add_cancel]
      have hget := congrArg (·[(a - p).toNat - bs.length]?) heq
      rw [getElem?_load, if_pos hi, ha'] at hget
      rw [List.getElem?_append_right ha, hget, Option.getD_some]
    · rw [List.getElem?_eq_none (by rw [List.length_append]; omega), Option.getD_none]

end Memory

end Starlight
