import Starlight.Lib.Buffer
import Starlight.Vm.World

/-!
# The resizable vector

`ArrayStorage` is the vector behind the slots of an object and behind its dense elements: a buffer of
`capacity` cells of which the first `size` are in use. What lies in the cells behind them is left over
from earlier sizes, or was never written.

`shift` moves what is stored from `fromFirst` on to `toFirst` and makes `toLast` the size. The storage
has no other end of the source than its size. An assertion that fails and a write outside the buffer
leave no storage.
-/

namespace Starlight

/-- A vector of values in a buffer. -/
structure ArrayStorage where
  data : Buffer JsValue
  size : ℕ
  size_le : size ≤ data.size

namespace ArrayStorage

variable {s s' s'' : ArrayStorage} {fromFirst toFirst toLast newSize : ℕ}

def capacity (s : ArrayStorage) : ℕ := s.data.size

def maxElements : ℕ := (2 ^ 32 - 1 - 8) / 8

def setSize (data : Buffer JsValue) (size : ℕ) : Option ArrayStorage :=
  if h : size ≤ data.size then some ⟨data, size, h⟩ else none

/-- Empty the cells from `start` on that lie before `stop`, if there are any. -/
def clearTo (data : Buffer JsValue) (start stop : ℕ) : Option (Buffer JsValue) :=
  if start < stop then Buffer.fill .empty (stop - start) data start else some data

def resizeWithinCapacity (s : ArrayStorage) (newSize : ℕ) : Option ArrayStorage :=
  if newSize ≤ s.capacity then do
    let data ← clearTo s.data s.size newSize
    setSize data newSize
  else none

/-- `reallocate_to_larger`. The cells of the new storage hold `fresh` until they are written. -/
def reallocateToLarger (fresh : ℕ → JsValue) (s : ArrayStorage)
    (capacity fromFirst toFirst toLast : ℕ) : Option ArrayStorage :=
  if s.capacity < capacity then do
    let copySize := min (s.size - fromFirst) (toLast - toFirst)
    let data ← Buffer.copyFrom s.data copySize ⟨capacity, fresh⟩ fromFirst toFirst
    let data ← Buffer.fill .empty toFirst data 0
    let data ← clearTo data (toFirst + copySize) toLast
    setSize data toLast
  else none

/-- The capacity that `shift` asks for when the new size does not fit. -/
def grownCapacity (s : ArrayStorage) (toLast : ℕ) : ℕ :=
  if s.capacity < maxElements / 2 then max (s.capacity * 2) toLast else maxElements

/-- The copy of `shift` within the buffer. The downward copy is given the start of the destination for
its end. -/
def moveWithin (s : ArrayStorage) (copySize fromFirst toFirst : ℕ) : Option (Buffer JsValue) :=
  if toFirst < fromFirst then Buffer.copy copySize s.data fromFirst toFirst
  else if fromFirst < toFirst then Buffer.copyBackward copySize s.data fromFirst toFirst
  else some s.data

def shift (fresh : ℕ → JsValue) (s : ArrayStorage) (fromFirst toFirst toLast : ℕ) :
    Option ArrayStorage :=
  if toFirst ≤ toLast ∧ fromFirst ≤ s.size then
    if toLast ≤ s.capacity then do
      let copySize := min (s.size - fromFirst) (toLast - toFirst)
      let data ← s.moveWithin copySize fromFirst toFirst
      let data ← Buffer.fill .empty (toLast - (toFirst + copySize)) data (toFirst + copySize)
      setSize data toLast
    else
      s.reallocateToLarger fresh (s.grownCapacity toLast) fromFirst toFirst toLast
  else none

/-! ### What a shift is for -/

/-- The values from `fromFirst` on are found from `toFirst` on, as many as fit, and nothing else is. -/
structure Shifted (s : ArrayStorage) (fromFirst toFirst toLast : ℕ) (s' : ArrayStorage) : Prop where
  size : s'.size = toLast
  capacity : toLast ≤ s'.capacity
  moved : ∀ k, k < min (s.size - fromFirst) (toLast - toFirst) →
    s'.data.cell (toFirst + k) = s.data.cell (fromFirst + k)
  rest : ∀ i, i < toLast → (i < toFirst ∨
    toFirst + min (s.size - fromFirst) (toLast - toFirst) ≤ i) → s'.data.cell i = .empty

/-- When the code shifts as it should: in another buffer, or in place towards the front with nothing
left in front, or in place towards the back if the cells in front of the destination can take the copy
and leave the right values where they were. -/
def ShiftFits (s : ArrayStorage) (fromFirst toFirst toLast : ℕ) : Prop :=
  s.capacity < toLast ∨
  (toFirst ≤ fromFirst ∧ ∀ i, i < toFirst → s.data.cell i = .empty) ∨
  (fromFirst < toFirst ∧
    let copySize := min (s.size - fromFirst) (toLast - toFirst)
    copySize ≤ toFirst ∧
    (∀ k, k < copySize → s.data.cell (toFirst + k) = s.data.cell (fromFirst + k)) ∧
    (∀ i, i < toFirst - copySize → s.data.cell i = .empty) ∧
    ∀ x, fromFirst ≤ x → x < fromFirst + copySize →
      (fromFirst + copySize ≤ toFirst ∨ toFirst ≤ x) → s.data.cell x = .empty)

/-! ### Another buffer -/

theorem setSize_eq {data : Buffer JsValue} {size : ℕ} (h : size ≤ data.size) :
    setSize data size = some ⟨data, size, h⟩ := dif_pos h

theorem clearTo_eq {data : Buffer JsValue} {start stop : ℕ} (h : stop ≤ data.size) :
    clearTo data start stop = some { data with cell := fun i =>
      if start ≤ i ∧ i < stop then .empty else data.cell i } := by
  unfold clearTo
  split
  · rw [Buffer.fill_eq (by omega)]
    congr 2
    funext i
    exact if_congr (by omega) rfl rfl
  · have hnone : ∀ i, ¬ (start ≤ i ∧ i < stop) := fun i => by omega
    simp only [hnone, if_false]

theorem grownCapacity_le (h : s.capacity < toLast) (hmax : toLast ≤ maxElements) :
    s.capacity < s.grownCapacity toLast ∧ toLast ≤ s.grownCapacity toLast := by
  unfold grownCapacity
  split
  · omega
  · omega

theorem shifted_reallocateToLarger (fresh : ℕ → JsValue) {capacity : ℕ} (hcap : s.capacity < capacity)
    (hlast : toLast ≤ capacity) (hto : toFirst ≤ toLast) :
    ∃ s', s.reallocateToLarger fresh capacity fromFirst toFirst toLast = some s' ∧
      Shifted s fromFirst toFirst toLast s' := by
  unfold reallocateToLarger
  rw [if_pos hcap]
  dsimp only
  generalize hn : min (s.size - fromFirst) (toLast - toFirst) = n
  rw [Buffer.copyFrom_eq s.data (by dsimp only; omega), Option.bind_eq_bind, Option.bind_some,
    Buffer.fill_eq (by dsimp only; omega), Option.bind_some,
    clearTo_eq (by exact hlast), Option.bind_some, setSize_eq (by exact hlast)]
  refine ⟨_, rfl, rfl, hlast, fun k hk => ?_, fun i hi hout => ?_⟩
  · rw [hn] at hk
    dsimp only
    rw [if_neg (by omega), if_neg (by omega), if_pos (by omega), Nat.add_sub_cancel_left]
  · rw [hn] at hout
    dsimp only
    by_cases hi' : toFirst + n ≤ i
    · rw [if_pos ⟨hi', hi⟩]
    · rw [if_neg (by omega), if_pos (by omega)]

/-! ### In place -/

theorem shift_within_iff (fresh : ℕ → JsValue) (hfrom : fromFirst ≤ s.size) (hto : toFirst ≤ toLast)
    (hcap : toLast ≤ s.capacity) {n : ℕ} (hn : min (s.size - fromFirst) (toLast - toFirst) = n)
    (hsize : ∀ data, s.moveWithin n fromFirst toFirst = some data → data.size = s.data.size) :
    (∃ s', s.shift fresh fromFirst toFirst toLast = some s' ∧ Shifted s fromFirst toFirst toLast s') ↔
      ∃ data, s.moveWithin n fromFirst toFirst = some data ∧
        (∀ k, k < n → data.cell (toFirst + k) = s.data.cell (fromFirst + k)) ∧
        ∀ i, i < toFirst → data.cell i = .empty := by
  have hlast : toFirst + n ≤ toLast := by omega
  have hrun : s.shift fresh fromFirst toFirst toLast = (s.moveWithin n fromFirst toFirst).bind fun data =>
      (Buffer.fill .empty (toLast - (toFirst + n)) data (toFirst + n)).bind fun data =>
        setSize data toLast := by
    unfold shift
    rw [if_pos ⟨hto, hfrom⟩, if_pos hcap, hn]
    rfl
  rw [hrun]
  cases hmove : s.moveWithin n fromFirst toFirst with
  | none => simp
  | some data =>
    have hdata : toLast ≤ data.size := (hsize data hmove).symm ▸ hcap
    rw [Option.bind_some, Buffer.fill_eq (by omega), Option.bind_some, setSize_eq (by exact hdata)]
    constructor
    · rintro ⟨s', hs', hshift⟩
      cases hs'
      refine ⟨data, rfl, fun k hk => ?_, fun i hi => ?_⟩
      · have hmoved := hshift.moved k (hn.symm ▸ hk)
        dsimp only at hmoved
        rwa [if_neg (by omega)] at hmoved
      · have hrest := hshift.rest i (by omega) (.inl hi)
        dsimp only at hrest
        rwa [if_neg (by omega)] at hrest
    · rintro ⟨data', hdata', hmoved, hrest⟩
      cases hdata'
      refine ⟨_, rfl, rfl, hdata, fun k hk => ?_, fun i hi hout => ?_⟩
      · rw [hn] at hk
        dsimp only
        rw [if_neg (by omega), hmoved k hk]
      · rw [hn] at hout
        dsimp only
        split
        · rfl
        · exact hrest i (by omega)

theorem size_moveWithin {n : ℕ} (hto : toFirst + n ≤ s.data.size) {data : Buffer JsValue}
    (h : s.moveWithin n fromFirst toFirst = some data) : data.size = s.data.size := by
  unfold moveWithin at h
  split at h
  · next hlt =>
    rw [Buffer.copy_eq hto (.inl (le_of_lt hlt))] at h
    cases h
    rfl
  · split at h
    · exact (Buffer.copyBackward_frame h).1
    · cases h
      rfl

theorem moveWithin_front {n : ℕ} (hdir : toFirst ≤ fromFirst) (hto : toFirst + n ≤ s.data.size) :
    (∃ data, s.moveWithin n fromFirst toFirst = some data ∧
      (∀ k, k < n → data.cell (toFirst + k) = s.data.cell (fromFirst + k)) ∧
      ∀ i, i < toFirst → data.cell i = .empty) ↔ ∀ i, i < toFirst → s.data.cell i = .empty := by
  obtain ⟨data, hrun, hmoved, hfront⟩ : ∃ data, s.moveWithin n fromFirst toFirst = some data ∧
      (∀ k, k < n → data.cell (toFirst + k) = s.data.cell (fromFirst + k)) ∧
      ∀ i, i < toFirst → data.cell i = s.data.cell i := by
    unfold moveWithin
    split
    · rw [Buffer.copy_eq hto (.inl hdir)]
      refine ⟨_, rfl, fun k hk => ?_, fun i hi => if_neg (by omega)⟩
      dsimp only
      rw [if_pos (by omega), Nat.add_sub_cancel_left]
    · obtain rfl : fromFirst = toFirst := by omega
      rw [if_neg (by omega)]
      exact ⟨_, rfl, fun _ _ => rfl, fun _ _ => rfl⟩
  rw [hrun]
  constructor
  · rintro ⟨data', hdata', -, hrest⟩ i hi
    cases hdata'
    rw [← hfront i hi, hrest i hi]
  · intro hrest
    exact ⟨data, rfl, hmoved, fun i hi => by rw [hfront i hi, hrest i hi]⟩

theorem moveWithin_back {n : ℕ} (hdir : fromFirst < toFirst) (hto : toFirst + n ≤ s.data.size) :
    (∃ data, s.moveWithin n fromFirst toFirst = some data ∧
      (∀ k, k < n → data.cell (toFirst + k) = s.data.cell (fromFirst + k)) ∧
      ∀ i, i < toFirst → data.cell i = .empty) ↔
    n ≤ toFirst ∧ (∀ k, k < n → s.data.cell (toFirst + k) = s.data.cell (fromFirst + k)) ∧
      (∀ i, i < toFirst - n → s.data.cell i = .empty) ∧
      ∀ x, fromFirst ≤ x → x < fromFirst + n → (fromFirst + n ≤ toFirst ∨ toFirst ≤ x) →
        s.data.cell x = .empty := by
  have hrun : s.moveWithin n fromFirst toFirst = Buffer.copyBackward n s.data fromFirst toFirst := by
    unfold moveWithin
    rw [if_neg (by omega), if_pos hdir]
  rw [hrun]
  by_cases hn : n ≤ toFirst
  · obtain ⟨data, hdata⟩ : ∃ data, Buffer.copyBackward n s.data fromFirst toFirst = some data :=
      Buffer.copyBackward_isSome hn (by omega)
    obtain ⟨-, hframe⟩ := Buffer.copyBackward_frame hdata
    have hconst := Buffer.copyBackward_const_iff (v := .empty) hdata
    rw [hdata]
    constructor
    · rintro ⟨data', hdata', hmoved, hrest⟩
      cases hdata'
      refine ⟨hn, fun k hk => ?_, fun i hi => ?_, hconst.mp fun i _ hi => hrest i hi⟩
      · rw [← hmoved k hk, hframe _ (by omega)]
      · rw [← hframe i (.inl hi), hrest i (by omega)]
    · rintro ⟨-, hmoved, hfront, hsource⟩
      refine ⟨data, rfl, fun k hk => ?_, fun i hi => ?_⟩
      · rw [hframe _ (by omega), hmoved k hk]
      · by_cases hi' : i < toFirst - n
        · rw [hframe i (.inl hi'), hfront i hi']
        · exact hconst.mpr hsource i (by omega) hi
  · rw [Buffer.copyBackward_eq_none (by omega) (by omega)]
    constructor
    · rintro ⟨data', hdata', -⟩
      cases hdata'
    · exact fun h => absurd h.1 hn

/-! ### The whole operation -/

theorem shifted_resizeWithinCapacity (h : newSize ≤ s.capacity) :
    ∃ s', s.resizeWithinCapacity newSize = some s' ∧ Shifted s 0 0 newSize s' := by
  unfold resizeWithinCapacity
  rw [if_pos h, clearTo_eq h, Option.bind_eq_bind, Option.bind_some, setSize_eq (by exact h)]
  refine ⟨_, rfl, rfl, h, fun k hk => ?_, fun i hi hout => ?_⟩
  · dsimp only
    rw [if_neg (by omega)]
  · dsimp only
    rw [if_pos (by omega)]

theorem shift_iff (fresh : ℕ → JsValue) (hfrom : fromFirst ≤ s.size) (hto : toFirst ≤ toLast)
    (hmax : toLast ≤ maxElements) :
    (∃ s', s.shift fresh fromFirst toFirst toLast = some s' ∧ Shifted s fromFirst toFirst toLast s') ↔
      ShiftFits s fromFirst toFirst toLast := by
  unfold ShiftFits
  by_cases hcap : s.capacity < toLast
  · obtain ⟨hgrow, hlast⟩ := grownCapacity_le hcap hmax
    have hrun : s.shift fresh fromFirst toFirst toLast =
        s.reallocateToLarger fresh (s.grownCapacity toLast) fromFirst toFirst toLast := by
      unfold shift
      rw [if_pos ⟨hto, hfrom⟩, if_neg (by omega)]
    rw [hrun]
    exact iff_of_true (shifted_reallocateToLarger fresh hgrow hlast hto) (.inl hcap)
  · have hcap' : toLast ≤ s.data.size := Nat.le_of_not_lt hcap
    rw [shift_within_iff fresh hfrom hto hcap' rfl fun data => size_moveWithin (by omega)]
    by_cases hdir : toFirst ≤ fromFirst
    · rw [moveWithin_front hdir (by omega)]
      have hnot : ¬ fromFirst < toFirst := by omega
      simp only [hcap, hdir, hnot, false_or, true_and, false_and, or_false]
    · rw [moveWithin_back (by omega) (by omega)]
      have hlt : fromFirst < toFirst := by omega
      simp only [hcap, hdir, hlt, false_or, true_and, false_and]

/-- **A shift does what it is for** just when `ShiftFits` says so, and a resize within the capacity does so
always. -/
theorem shift_exact (fresh : ℕ → JsValue) (s : ArrayStorage) (fromFirst toFirst toLast : ℕ)
    (hfrom : fromFirst ≤ s.size) (hto : toFirst ≤ toLast) (hmax : toLast ≤ maxElements) :
    ((∃ s', s.shift fresh fromFirst toFirst toLast = some s' ∧
      Shifted s fromFirst toFirst toLast s') ↔ ShiftFits s fromFirst toFirst toLast) ∧
    (toLast ≤ s.capacity → ∃ s', s.resizeWithinCapacity toLast = some s' ∧ Shifted s 0 0 toLast s') :=
  ⟨shift_iff fresh hfrom hto hmax, fun hcap => shifted_resizeWithinCapacity hcap⟩

def oneValue : ArrayStorage :=
  { data := { size := 4, cell := fun i => if i = 0 then .null else .empty }, size := 1
    size_le := by decide }

theorem shift_exact_oneValue :
    ((∃ s', oneValue.shift (fun _ => .empty) 0 0 2 = some s' ∧ Shifted oneValue 0 0 2 s') ↔
      ShiftFits oneValue 0 0 2) ∧
    (2 ≤ oneValue.capacity → ∃ s', oneValue.resizeWithinCapacity 2 = some s' ∧
      Shifted oneValue 0 0 2 s') :=
  shift_exact (fun _ => .empty) oneValue 0 0 2 (by decide) (by decide) (by decide)

/-- Moving the value by one place within the buffer leaves it where it was. -/
theorem not_shift_exact : ¬ ∀ (fresh : ℕ → JsValue) (s : ArrayStorage) (fromFirst toFirst toLast : ℕ),
    fromFirst ≤ s.size → toFirst ≤ toLast → toLast ≤ maxElements →
      ∃ s', s.shift fresh fromFirst toFirst toLast = some s' ∧
        Shifted s fromFirst toFirst toLast s' := by
  intro h
  obtain ⟨s', hrun, hshift⟩ := h (fun _ => .empty) oneValue 0 1 2 (by decide) (by decide) (by decide)
  cases hrun
  exact absurd (hshift.rest 0 (by decide) (.inl (by decide))) (by decide)

end ArrayStorage

end Starlight
