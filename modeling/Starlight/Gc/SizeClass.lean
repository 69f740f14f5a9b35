import Mathlib.Data.List.Dedup
import Mathlib.Data.List.Sort

/-!
# Size classes

A request is rounded up to a size class, and every directory of the small-object space serves one
class. The classes are the multiples of 16 below 80, those the progression yields up to
`LARGE_CUTOFF`, and 256. The progression is computed with doubles; the model takes the truncated
values it runs through as a list.
-/

namespace Starlight.Gc

def BLOCK_SIZE : ℕ := 16 * 1024

/-- `size_of::<Block>()`: the 24 bytes of the fields, aligned to 16. -/
def BLOCK_HEADER_SIZE : ℕ := 32

/-- Sizes below this amount get a size class for each size step. -/
def PRECISE_CUTOFF : ℕ := 80

def SIZE_STEP : ℕ := 16

def BLOCK_PAYLOAD : ℕ := BLOCK_SIZE - BLOCK_HEADER_SIZE

/-- Requests above this size go to the large object space. -/
def LARGE_CUTOFF : ℕ := (BLOCK_SIZE - BLOCK_HEADER_SIZE) / 2 / SIZE_STEP * SIZE_STEP

def NUM_SIZE_CLASSES : ℕ := LARGE_CUTOFF / SIZE_STEP + 1

def sizeClassToIndex (size : ℕ) : ℕ := (size + SIZE_STEP - 1) / SIZE_STEP

def indexToSizeClass (index : ℕ) : ℕ := index * SIZE_STEP

/-- The class chosen for one value of the progression: the rounded value, or the largest class with
the same number of cells in a block when that wastes no more. -/
def betterSizeClass (approximateSize : ℕ) : ℕ :=
  let sizeClass := (approximateSize + SIZE_STEP - 1) / SIZE_STEP * SIZE_STEP
  let cellsPerBlock := BLOCK_PAYLOAD / sizeClass
  let possiblyBetterSizeClass := BLOCK_PAYLOAD / cellsPerBlock / SIZE_STEP * SIZE_STEP
  let originalWastage := BLOCK_PAYLOAD - cellsPerBlock * sizeClass
  let newWastage := (possiblyBetterSizeClass - sizeClass) * cellsPerBlock
  if newWastage > originalWastage then sizeClass else possiblyBetterSizeClass

def progressionClasses (result : List ℕ) : List ℕ → List ℕ
  | [] => result
  | approximateSize :: rest =>
    if approximateSize ≥ LARGE_CUTOFF then result
    else
      let better := betterSizeClass approximateSize
      if result.getLast? = some better then progressionClasses result rest
      else if better > LARGE_CUTOFF then result
      else progressionClasses (result ++ [better]) rest

def generateSizeClasses (approximate : List ℕ) : List ℕ :=
  let precise := (List.range' 1 (PRECISE_CUTOFF / SIZE_STEP - 1)).map indexToSizeClass
  ((progressionClasses precise approximate ++ [256]).insertionSort (· ≤ ·)).dedup

/-- One class of `build_size_class_table`: the steps from `next_index` up to its own get it. -/
def fillSizeClass (acc : (ℕ → ℕ) × ℕ) (sizeClass : ℕ) : (ℕ → ℕ) × ℕ :=
  let index := sizeClassToIndex sizeClass
  (fun i => if acc.2 ≤ i ∧ i ≤ index then sizeClass else acc.1 i, index + 1)

def sizeClassForSizeStep (approximate : List ℕ) (i : ℕ) : ℕ :=
  let filled := (generateSizeClasses approximate).foldl fillSizeClass (fun _ => 0, 0)
  if filled.2 ≤ i then indexToSizeClass i else filled.1 i

/-! ### Every class is a multiple of 16 that fits twice in a block -/

/-- The sizes a cell can have. -/
structure IsSizeClass (size : ℕ) : Prop where
  step : 16 ∣ size
  lower : 16 ≤ size
  upper : size ≤ LARGE_CUTOFF

theorem LARGE_CUTOFF_eq : LARGE_CUTOFF = 8176 := rfl

theorem BLOCK_PAYLOAD_eq : BLOCK_PAYLOAD = 16352 := rfl

theorem SIZE_STEP_eq : SIZE_STEP = 16 := rfl

theorem isSizeClass_betterSizeClass {a : ℕ} (hlow : PRECISE_CUTOFF ≤ a) (ha : a < LARGE_CUTOFF) :
    IsSizeClass (betterSizeClass a) := by
  rw [LARGE_CUTOFF_eq] at ha
  rw [show PRECISE_CUTOFF = 80 from rfl] at hlow
  obtain ⟨s, hs⟩ : ∃ s, s = (a + 16 - 1) / 16 * 16 := ⟨_, rfl⟩
  have hs_low : 80 ≤ s := by omega
  have hs_high : s ≤ 8176 := by omega
  obtain ⟨c, hc⟩ : ∃ c, c = 16352 / s := ⟨_, rfl⟩
  have hc_two : 2 ≤ c := by
    rw [hc, Nat.le_div_iff_mul_le (by omega)]
    omega
  have hbetter : betterSizeClass a =
      if (16352 / c / 16 * 16 - s) * c > 16352 - c * s then s else 16352 / c / 16 * 16 := by
    rw [hc, hs, betterSizeClass, BLOCK_PAYLOAD_eq, SIZE_STEP_eq]
  have hpayload : s ≤ 16352 / c := by
    rw [Nat.le_div_iff_mul_le (by omega), hc]
    exact Nat.mul_div_le _ _
  have hhalf : 16352 / c ≤ 16352 / 2 := Nat.div_le_div_left hc_two (by omega)
  rw [hbetter]
  split
  · exact ⟨by omega, by omega, hs_high⟩
  · exact ⟨by omega, by omega, by rw [LARGE_CUTOFF_eq]; omega⟩

theorem isSizeClass_of_mem_progressionClasses {approximate : List ℕ}
    (happrox : ∀ a ∈ approximate, PRECISE_CUTOFF ≤ a) {result : List ℕ}
    (hresult : ∀ c ∈ result, IsSizeClass c) :
    ∀ c ∈ progressionClasses result approximate, IsSizeClass c := by
  induction approximate generalizing result with
  | nil => exact hresult
  | cons a rest ih =>
    have hrest : ∀ a ∈ rest, PRECISE_CUTOFF ≤ a := fun x hx => happrox x (List.mem_cons_of_mem _ hx)
    rw [progressionClasses]
    split
    · exact hresult
    · next hcut =>
      have hbetter : IsSizeClass (betterSizeClass a) :=
        isSizeClass_betterSizeClass (happrox a List.mem_cons_self) (by omega)
      dsimp only
      split
      · exact ih hrest hresult
      · split
        · exact hresult
        · refine ih hrest fun c hc => ?_
          rcases List.mem_append.mp hc with hc | hc
          · exact hresult c hc
          · rw [List.mem_singleton.mp hc]
            exact hbetter

theorem isSizeClass_of_mem_generateSizeClasses {approximate : List ℕ}
    (happrox : ∀ a ∈ approximate, PRECISE_CUTOFF ≤ a) {c : ℕ}
    (hc : c ∈ generateSizeClasses approximate) : IsSizeClass c := by
  rw [generateSizeClasses, List.mem_dedup, List.mem_insertionSort, List.mem_append] at hc
  have hprecise : ∀ d ∈ (List.range' 1 (PRECISE_CUTOFF / SIZE_STEP - 1)).map indexToSizeClass,
      IsSizeClass d := by
    rw [show (List.range' 1 (PRECISE_CUTOFF / SIZE_STEP - 1)).map indexToSizeClass
      = [16, 32, 48, 64] from rfl]
    intro d hd
    simp only [List.mem_cons, List.not_mem_nil, or_false] at hd
    rcases hd with rfl | rfl | rfl | rfl <;> exact ⟨by decide, by decide, by decide⟩
  rcases hc with hc | hc
  · exact isSizeClass_of_mem_progressionClasses happrox hprecise c hc
  · rw [List.mem_singleton.mp hc]
    exact ⟨by decide, by decide, by decide⟩

theorem generateSizeClasses_ne_nil (approximate : List ℕ) :
    generateSizeClasses approximate ≠ [] := by
  intro h
  have hmem : 256 ∈ generateSizeClasses approximate := by
    rw [generateSizeClasses, List.mem_dedup, List.mem_insertionSort]
    exact List.mem_append_right _ (List.mem_singleton_self _)
  rw [h] at hmem
  exact List.not_mem_nil hmem

/-- The class a step is served from holds every request of the step. -/
structure GoodClass (i size : ℕ) : Prop extends IsSizeClass size where
  fits : indexToSizeClass i ≤ size

theorem fillSizeClass_good {acc : (ℕ → ℕ) × ℕ} (hacc : ∀ i < acc.2, GoodClass i (acc.1 i)) {c : ℕ}
    (hc : IsSizeClass c) : ∀ i < (fillSizeClass acc c).2, GoodClass i ((fillSizeClass acc c).1 i) := by
  intro i hi
  have hindex : sizeClassToIndex c = (c + 15) / 16 := rfl
  have hdvd := hc.step
  change i < sizeClassToIndex c + 1 at hi
  change GoodClass i (if acc.2 ≤ i ∧ i ≤ sizeClassToIndex c then c else acc.1 i)
  split
  · refine ⟨hc, ?_⟩
    rw [indexToSizeClass, SIZE_STEP]
    omega
  · exact hacc i (by omega)

theorem sizeClassForSizeStep_good {approximate : List ℕ}
    (happrox : ∀ a ∈ approximate, PRECISE_CUTOFF ≤ a) {i : ℕ} (hi : i < NUM_SIZE_CLASSES) :
    GoodClass i (sizeClassForSizeStep approximate i) := by
  have hfold : ∀ (l : List ℕ) (acc : (ℕ → ℕ) × ℕ), (∀ c ∈ l, IsSizeClass c) →
      (∀ i < acc.2, GoodClass i (acc.1 i)) → (l ≠ [] ∨ 0 < acc.2) →
      (∀ i < (l.foldl fillSizeClass acc).2, GoodClass i ((l.foldl fillSizeClass acc).1 i)) ∧
        0 < (l.foldl fillSizeClass acc).2 := by
    intro l
    induction l with
    | nil => exact fun acc _ hacc hne => ⟨hacc, hne.resolve_left fun h => h rfl⟩
    | cons c l ih =>
      intro acc hl hacc _
      exact ih (fillSizeClass acc c) (fun d hd => hl d (List.mem_cons_of_mem _ hd))
        (fillSizeClass_good hacc (hl c List.mem_cons_self)) (Or.inr (Nat.succ_pos _))
  obtain ⟨hgood, hpos⟩ := hfold (generateSizeClasses approximate) (fun _ => 0, 0)
    (fun c hc => isSizeClass_of_mem_generateSizeClasses happrox hc)
    (fun i hi => absurd hi (Nat.not_lt_zero i)) (Or.inl (generateSizeClasses_ne_nil _))
  rw [sizeClassForSizeStep]
  split
  · next hle =>
    have hcut : NUM_SIZE_CLASSES = 512 := rfl
    rw [indexToSizeClass, SIZE_STEP]
    exact ⟨⟨by omega, by omega, by rw [LARGE_CUTOFF_eq]; omega⟩, le_refl _⟩
  · next hlt => exact hgood i (by omega)

end Starlight.Gc
