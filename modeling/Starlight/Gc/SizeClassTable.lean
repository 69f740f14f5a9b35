import Mathlib.Algebra.Order.Ring.Pow
import Mathlib.Data.Rat.Floor
import Starlight.Gc.SizeClass

/-!
# The table of size classes

`generate_size_classes` runs through the progression with an `i32` counter until a value reaches
`LARGE_CUTOFF`. The table it is flattened into serves a request from the smallest class that holds
it. The progression may leap over the largest sizes; a request above the last class gets a class
of its own, the request rounded up to 16.
-/

namespace Starlight.Gc

/-- The loop of `generate_size_classes` at counter `i`. The result is `none` where the assertion on
the value fails, and where the counter is exhausted. -/
def progressionLoop (approximate : ℕ → ℕ) : ℕ → ℕ → List ℕ → Option (List ℕ)
  | 0, _, _ => none
  | fuel + 1, i, result =>
    if approximate i < PRECISE_CUTOFF then none
    else if approximate i ≥ LARGE_CUTOFF then some result
    else
      let better := betterSizeClass (approximate i)
      if result.getLast? = some better then progressionLoop approximate fuel (i + 1) result
      else if better > LARGE_CUTOFF then some result
      else progressionLoop approximate fuel (i + 1) (result ++ [better])

/-- The values of a counter of type `i32` that starts at 0. -/
def COUNTERS : ℕ := 2 ^ 31

def runGenerateSizeClasses (approximate : ℕ → ℕ) : Option (List ℕ) :=
  (progressionLoop approximate COUNTERS 0 [16, 32, 48, 64]).map fun result =>
    ((result ++ [256]).insertionSort (· ≤ ·)).dedup

/-- A progression whose values pass the assertion of the loop, and of which one reaches
`LARGE_CUTOFF` before the counter is exhausted. -/
structure Admissible (approximate : ℕ → ℕ) : Prop where
  precise : ∀ i, PRECISE_CUTOFF ≤ approximate i
  reaches : ∃ i < COUNTERS, LARGE_CUTOFF ≤ approximate i

/-- The values of a progression, one for each counter. -/
def valuesOf (approximate : ℕ → ℕ) : List ℕ := (List.range' 0 COUNTERS).map approximate

theorem le_of_mem_valuesOf {approximate : ℕ → ℕ} (h : Admissible approximate) :
    ∀ a ∈ valuesOf approximate, PRECISE_CUTOFF ≤ a := by
  intro a ha
  obtain ⟨i, -, rfl⟩ := List.mem_map.mp ha
  exact h.precise i

/-- Every progression that grows by a factor of at least `1 + 2⁻²⁴` is admissible. -/
theorem admissible_of_le {p : ℚ} (hp : 1 + 1 / 2 ^ 24 ≤ p) :
    Admissible fun i => ⌊(PRECISE_CUTOFF : ℚ) * p ^ i⌋₊ := by
  have hcut : (PRECISE_CUTOFF : ℚ) = 80 := by norm_num [PRECISE_CUTOFF]
  have hone : 1 ≤ p := le_trans (by norm_num) hp
  refine ⟨fun i => Nat.le_floor ?_, COUNTERS - 1, by decide, Nat.le_floor ?_⟩
  · exact le_mul_of_one_le_right (by rw [hcut]; norm_num) (one_le_pow₀ hone)
  · have hbern : 1 + ((COUNTERS - 1 : ℕ) : ℚ) * (p - 1) ≤ (1 + (p - 1)) ^ (COUNTERS - 1) :=
      one_add_mul_le_pow (by linarith) _
    have hcount : ((COUNTERS - 1 : ℕ) : ℚ) = 2147483647 := by norm_num [COUNTERS]
    have hlarge : (LARGE_CUTOFF : ℚ) = 8176 := by rw [LARGE_CUTOFF_eq]; norm_num
    rw [add_sub_cancel, hcount] at hbern
    rw [hcut, hlarge]
    linarith

theorem progressionLoop_eq {approximate : ℕ → ℕ} (h : ∀ i, PRECISE_CUTOFF ≤ approximate i)
    (n i : ℕ) (result : List ℕ) (hreach : ∃ k < n, LARGE_CUTOFF ≤ approximate (i + k)) :
    progressionLoop approximate n i result =
      some (progressionClasses result ((List.range' i n).map approximate)) := by
  induction n generalizing i result with
  | zero =>
    obtain ⟨k, hk, -⟩ := hreach
    exact absurd hk (Nat.not_lt_zero k)
  | succ n ih =>
    rw [progressionLoop, if_neg (Nat.not_lt.mpr (h i)), List.range'_succ, List.map_cons,
      progressionClasses]
    by_cases hlarge : approximate i ≥ LARGE_CUTOFF
    · rw [if_pos hlarge, if_pos hlarge]
    · have hrest : ∃ k < n, LARGE_CUTOFF ≤ approximate (i + 1 + k) := by
        obtain ⟨k, hk, hle⟩ := hreach
        cases k with
        | zero => exact absurd hle hlarge
        | succ k => exact ⟨k, by omega, by rwa [Nat.add_right_comm]⟩
      rw [if_neg hlarge, if_neg hlarge]
      dsimp only
      split
      · exact ih (i + 1) result hrest
      · split
        · rfl
        · exact ih (i + 1) _ hrest

theorem runGenerateSizeClasses_eq {approximate : ℕ → ℕ} (h : Admissible approximate) :
    runGenerateSizeClasses approximate = some (generateSizeClasses (valuesOf approximate)) := by
  obtain ⟨k, hk, hle⟩ := h.reaches
  rw [runGenerateSizeClasses,
    progressionLoop_eq h.precise COUNTERS 0 _ ⟨k, hk, by rwa [Nat.zero_add]⟩]
  rfl

theorem pairwise_generateSizeClasses (approximate : List ℕ) :
    (generateSizeClasses approximate).Pairwise (· < ·) := by
  rw [generateSizeClasses]
  generalize progressionClasses _ approximate ++ [256] = l
  have hle : ((l.insertionSort (· ≤ ·)).dedup).Pairwise (· ≤ ·) :=
    (List.pairwise_insertionSort (· ≤ ·) l).sublist (List.dedup_sublist _)
  exact (hle.and (List.nodup_dedup _)).imp fun h => lt_of_le_of_ne h.1 h.2

/-- No subtraction of the loop underflows, and no division is by zero. -/
theorem betterSizeClass_no_underflow {a : ℕ} (hlow : PRECISE_CUTOFF ≤ a) (ha : a < LARGE_CUTOFF) :
    let sizeClass := (a + SIZE_STEP - 1) / SIZE_STEP * SIZE_STEP
    let cellsPerBlock := BLOCK_PAYLOAD / sizeClass
    0 < cellsPerBlock ∧ cellsPerBlock * sizeClass ≤ BLOCK_PAYLOAD ∧
      sizeClass ≤ BLOCK_PAYLOAD / cellsPerBlock / SIZE_STEP * SIZE_STEP := by
  rw [LARGE_CUTOFF_eq] at ha
  rw [show PRECISE_CUTOFF = 80 from rfl] at hlow
  rw [BLOCK_PAYLOAD_eq, SIZE_STEP_eq]
  obtain ⟨s, hs⟩ : ∃ s, s = (a + 16 - 1) / 16 * 16 := ⟨_, rfl⟩
  dsimp only
  rw [← hs]
  have hpos : 0 < 16352 / s := Nat.div_pos (by omega) (by omega)
  have hmul : 16352 / s * s ≤ 16352 := Nat.div_mul_le_self _ _
  have hback : s ≤ 16352 / (16352 / s) := by
    rw [Nat.le_div_iff_mul_le hpos, Nat.mul_comm]
    exact hmul
  exact ⟨hpos, hmul, by omega⟩

/-- What flattening a sorted list of classes does to the steps from `acc.2` on: those up to the
last class get the smallest class that holds them, and no class holds the others. -/
theorem foldl_fillSizeClass (classes : List ℕ) (hsorted : classes.Pairwise (· < ·))
    (hstep : ∀ c ∈ classes, 16 ∣ c) (acc : (ℕ → ℕ) × ℕ) (hacc : ∀ c ∈ classes, 16 * acc.2 ≤ c) :
    let filled := classes.foldl fillSizeClass acc
    acc.2 ≤ filled.2 ∧ (∀ i < acc.2, filled.1 i = acc.1 i) ∧
    (∀ i, acc.2 ≤ i → i < filled.2 → filled.1 i ∈ classes ∧ 16 * i ≤ filled.1 i ∧
      ∀ c ∈ classes, 16 * i ≤ c → filled.1 i ≤ c) ∧
    (∀ i, acc.2 ≤ i → filled.2 ≤ i → ∀ c ∈ classes, c < 16 * i) := by
  induction classes generalizing acc with
  | nil =>
    exact ⟨le_refl _, fun _ _ => rfl, fun i hi hlt => absurd hlt (Nat.not_lt.mpr hi),
      fun _ _ _ c hc => absurd hc List.not_mem_nil⟩
  | cons c classes ih =>
    obtain ⟨hhead, htail⟩ := List.pairwise_cons.mp hsorted
    have hc := hstep c List.mem_cons_self
    have hroom := hacc c List.mem_cons_self
    have hindex : sizeClassToIndex c = c / 16 := by
      rw [sizeClassToIndex, SIZE_STEP_eq]
      omega
    have hnext : (fillSizeClass acc c).2 = c / 16 + 1 := by rw [← hindex]; rfl
    have hfill : ∀ i, (fillSizeClass acc c).1 i = if acc.2 ≤ i ∧ i ≤ c / 16 then c else acc.1 i := by
      intro i
      rw [← hindex]
      rfl
    obtain ⟨hmono, hkeep, hmid, hpast⟩ := ih htail (fun d hd => hstep d (List.mem_cons_of_mem _ hd))
      (fillSizeClass acc c) fun d hd => by
        have hlt := hhead d hd
        have hd16 := hstep d (List.mem_cons_of_mem _ hd)
        rw [hnext]
        omega
    rw [hnext] at hmono hkeep hmid hpast
    rw [List.foldl_cons]
    dsimp only
    refine ⟨by omega, fun i hi => ?_, fun i hi hlt => ?_, fun i hi hge d hd => ?_⟩
    · rw [hkeep i (by omega), hfill, if_neg (by omega)]
    · by_cases hin : i ≤ c / 16
      · rw [hkeep i (by omega), hfill, if_pos ⟨hi, hin⟩]
        refine ⟨List.mem_cons_self, by omega, fun d hd _ => ?_⟩
        rcases List.mem_cons.mp hd with rfl | hd
        · exact le_refl _
        · exact (hhead d hd).le
      · obtain ⟨hmem, hfits, hleast⟩ := hmid i (by omega) hlt
        refine ⟨List.mem_cons_of_mem _ hmem, hfits, fun d hd hle => ?_⟩
        rcases List.mem_cons.mp hd with rfl | hd
        · omega
        · exact hleast d hd hle
    · rcases List.mem_cons.mp hd with rfl | hd
      · omega
      · exact hpast i (by omega) hge d hd

/-- Which class a request is served from. -/
theorem sizeClassForSizeStep_least {approximate : List ℕ}
    (happrox : ∀ a ∈ approximate, PRECISE_CUTOFF ≤ a) (s : ℕ) :
    let selected := sizeClassForSizeStep approximate (sizeClassToIndex s)
    ((∃ c ∈ generateSizeClasses approximate, s ≤ c) →
      selected ∈ generateSizeClasses approximate ∧ s ≤ selected ∧
        ∀ c ∈ generateSizeClasses approximate, s ≤ c → selected ≤ c) ∧
    ((∀ c ∈ generateSizeClasses approximate, c < s) →
      16 ∣ selected ∧ s ≤ selected ∧ ∀ d, 16 ∣ d → s ≤ d → selected ≤ d) := by
  have hstep : ∀ c ∈ generateSizeClasses approximate, 16 ∣ c := fun c hc =>
    (isSizeClass_of_mem_generateSizeClasses happrox hc).step
  have hindex : sizeClassToIndex s = (s + 15) / 16 := rfl
  obtain ⟨-, -, hmid, hpast⟩ := foldl_fillSizeClass (generateSizeClasses approximate)
    (pairwise_generateSizeClasses approximate) hstep (fun _ => 0, 0) fun c _ => Nat.zero_le c
  have hmid := hmid (sizeClassToIndex s) (Nat.zero_le _)
  have hpast := hpast (sizeClassToIndex s) (Nat.zero_le _)
  dsimp only
  rw [sizeClassForSizeStep]
  constructor
  · rintro ⟨c, hc, hle⟩
    have hc16 := hstep c hc
    split
    · next hge => exact absurd (hpast hge c hc) (by omega)
    · next hlt =>
      obtain ⟨hmem, hfits, hleast⟩ := hmid (Nat.lt_of_not_le hlt)
      exact ⟨hmem, by omega, fun d hd hsd => hleast d hd (by have := hstep d hd; omega)⟩
  · intro hall
    split
    · rw [indexToSizeClass, SIZE_STEP_eq, hindex]
      exact ⟨⟨_, Nat.mul_comm _ _⟩, by omega, fun d hd hsd => by omega⟩
    · next hlt =>
      obtain ⟨hmem, hfits, -⟩ := hmid (Nat.lt_of_not_le hlt)
      exact absurd (hall _ hmem) (by omega)

/-- The table of an admissible progression: the loop that generates it ends, it is sorted, its
classes fit in a block, and each request is served from the smallest class that holds it. A request
above the last class is served from the smallest multiple of 16 that holds it. -/
theorem sizeClassTable_adequate {approximate : ℕ → ℕ} (h : Admissible approximate) :
    ∃ classes, runGenerateSizeClasses approximate = some classes ∧ classes.Pairwise (· < ·) ∧
      (∀ c ∈ classes, 16 ∣ c ∧ c ≤ BLOCK_PAYLOAD) ∧
      (∀ i, approximate i < LARGE_CUTOFF →
        let sizeClass := (approximate i + SIZE_STEP - 1) / SIZE_STEP * SIZE_STEP
        let cellsPerBlock := BLOCK_PAYLOAD / sizeClass
        0 < cellsPerBlock ∧ cellsPerBlock * sizeClass ≤ BLOCK_PAYLOAD ∧
          sizeClass ≤ BLOCK_PAYLOAD / cellsPerBlock / SIZE_STEP * SIZE_STEP) ∧
      ∀ s ≤ LARGE_CUTOFF,
        let selected := sizeClassForSizeStep (valuesOf approximate) (sizeClassToIndex s)
        ((∃ c ∈ classes, s ≤ c) →
          selected ∈ classes ∧ s ≤ selected ∧ ∀ c ∈ classes, s ≤ c → selected ≤ c) ∧
        ((∀ c ∈ classes, c < s) →
          16 ∣ selected ∧ s ≤ selected ∧ ∀ d, 16 ∣ d → s ≤ d → selected ≤ d) := by
  have hvalues := le_of_mem_valuesOf h
  refine ⟨generateSizeClasses (valuesOf approximate), runGenerateSizeClasses_eq h,
    pairwise_generateSizeClasses _, fun c hc => ?_,
    fun i hi => betterSizeClass_no_underflow (h.precise i) hi,
    fun s _ => sizeClassForSizeStep_least hvalues s⟩
  have hclass := isSizeClass_of_mem_generateSizeClasses hvalues hc
  have hupper := hclass.upper
  rw [LARGE_CUTOFF_eq] at hupper
  exact ⟨hclass.step, by rw [BLOCK_PAYLOAD_eq]; omega⟩

theorem sizeClassTable_adequate_doubling :
    ∃ classes, runGenerateSizeClasses (fun i => 80 * 2 ^ i) = some classes ∧
      classes.Pairwise (· < ·) := by
  have hadmissible : Admissible fun i => 80 * 2 ^ i :=
    ⟨fun i => Nat.le_mul_of_pos_right 80 (Nat.two_pow_pos i), 7, by decide, by decide⟩
  obtain ⟨classes, hrun, hsorted, -⟩ := sizeClassTable_adequate hadmissible
  exact ⟨classes, hrun, hsorted⟩

/-- Sizes that double reach 5440 and then the cutoff, so no class holds a request of 6000 bytes. -/
theorem no_class_for_6000 :
    6000 ≤ LARGE_CUTOFF ∧ ∃ classes,
      runGenerateSizeClasses (fun i => 80 * 2 ^ i) = some classes ∧ ∀ c ∈ classes, c < 6000 :=
  ⟨by decide, [16, 32, 48, 64, 80, 160, 256, 320, 640, 1360, 2720, 5440], by decide +kernel,
    by decide⟩

end Starlight.Gc
