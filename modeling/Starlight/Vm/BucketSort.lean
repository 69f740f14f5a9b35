import Starlight.Lib.Text
import Starlight.Vm.Comparison
import Starlight.Vm.MergeSort
import Starlight.Vm.StringIndex

/-!
# Sorting without a comparator

`Array.prototype.sort` without a comparator sorts the values that are not `undefined` by their strings: up
to 31 by merging, more by the character at the depth of the recursion, into buckets that are properties of
an array. A bucket is visited by its index, so that only those of the ten digits are ever seen again. The
prototypes are taken to have no elements.
-/

namespace Starlight

open JsValue (slowStringCmp cmpTrue)

/-! ### The functions -/

/-- What is sorted: a value and its string. -/
structure SortEntry where
  string : String
  value : JsValue
deriving Inhabited

def sortStringComparator (a b : SortEntry) : ComparisonResult :=
  if a.string = b.string then .number (.fin 0)
  else .number (if (slowStringCmp b.string a.string).toOption = some cmpTrue then .fin 1 else .fin (-1))

/-- The array `buckets`: its properties, by their names of one character or `undefined`, and its length. -/
structure Buckets where
  get : Option Char → List SortEntry
  length : ℕ

namespace Buckets

def empty : Buckets := ⟨fun _ => [], 0⟩

/-- An entry goes to the end of a bucket. The names of digits are indices. -/
def push (buckets : Buckets) (c : Option Char) (entry : SortEntry) : Buckets where
  get k := if k = c then buckets.get k ++ [entry] else buckets.get k
  length :=
    match c with
    | some c => if c.isDigit then max buckets.length (c.toNat - 48 + 1) else buckets.length
    | none => buckets.length

def getIndex (buckets : Buckets) (i : ℕ) : List SortEntry :=
  if i < 10 then buckets.get (some (Char.ofNat (48 + i))) else []

end Buckets

def fillBuckets (depth : ℕ) : List SortEntry → List JsValue → Buckets → List JsValue × Buckets
  | [], array, buckets => (array, buckets)
  | entry :: bucket, array, buckets =>
    if entry.string.utf8ByteSize = depth then fillBuckets depth bucket (array ++ [entry.value]) buckets
    else fillBuckets depth bucket array (buckets.push entry.string.toList[depth]? entry)

def sortBucketSort : ℕ → List JsValue → List SortEntry → ℕ → Option (List JsValue)
  | 0, _, _, _ => none
  | fuel + 1, array, bucket, depth =>
    if bucket.length < 32 ∨ 32 < depth then
      (sortMergeSort sortStringComparator fuel bucket).map fun sorted => array ++ sorted.map SortEntry.value
    else
      let (array, buckets) := fillBuckets depth bucket array Buckets.empty
      (List.range buckets.length).foldlM (fun array i =>
        if (buckets.getIndex i).isEmpty then some array
        else sortBucketSort fuel array (buckets.getIndex i) (depth + 1)) array

/-- `sortCompact`, for strings: how many elements are `undefined`, and the others with their strings. -/
def sortCompact (toString : JsValue → Except Failure String) :
    List (Option JsValue) → Except Failure (ℕ × List SortEntry)
  | [] => .ok (0, [])
  | none :: receiver => sortCompact toString receiver
  | some value :: receiver =>
    if value = .undefined then do
      let (undefinedCount, compacted) ← sortCompact toString receiver
      .ok (undefinedCount + 1, compacted)
    else do
      let string ← toString value
      let (undefinedCount, compacted) ← sortCompact toString receiver
      .ok (undefinedCount, ⟨string, value⟩ :: compacted)

def sortCommit (receiverLength : ℕ) (sorted : List (Option JsValue)) (undefinedCount : ℕ) :
    List (Option JsValue) :=
  sorted.map (fun value => some (value.getD .undefined)) ++ List.replicate undefinedCount (some .undefined) ++
    List.replicate (receiverLength - (sorted.length + undefinedCount)) none

/-- `Array.prototype.sort` without a comparator, on the elements of an array-like object: `none` is a hole. -/
def sort (toString : JsValue → Except Failure String) (fuel : ℕ) (receiver : List (Option JsValue)) :
    Option (Except Failure (List (Option JsValue))) :=
  if receiver.length < 2 then some (.ok receiver)
  else
    match sortCompact toString receiver with
    | .error e => some (.error e)
    | .ok (undefinedCount, compacted) =>
      -- what is not written of `new Array(compacted.length)` are holes
      (sortBucketSort fuel [] compacted 0).map fun array =>
        .ok (sortCommit receiver.length
          (array.map some ++ List.replicate (compacted.length - array.length) none) undefinedCount)

/-! ### What it is to do -/

/-- The order of strings by their characters. -/
def byString (a b : SortEntry) : Bool := decide (a.string ≤ b.string)

def definedValues (receiver : List (Option JsValue)) : List JsValue :=
  (receiver.filterMap id).filter (· ≠ .undefined)

/-- The values come first, sorted by their strings as `sortMergeSort` does, then what is `undefined`, and
then the holes. -/
def SortLaw (toString : JsValue → Except Failure String) (receiver : List (Option JsValue))
    (entries : List SortEntry) : Prop :=
  ∃ sorted, IsStableSort byString entries sorted ∧ ∃ least, ∀ fuel, least ≤ fuel →
    sortMergeSort sortStringComparator fuel entries = some sorted ∧
    sort toString fuel receiver = some (.ok (sorted.map (fun entry => some entry.value) ++
      List.replicate (receiver.count (some .undefined)) (some .undefined) ++
      List.replicate (receiver.count none) none))

/-- No string is lost from a bucket of 32 or more, up to the depth 32: each ends there or goes on with a digit. -/
def BucketsKept (bucket : List SortEntry) (p : List Char) : Prop :=
  ∀ q, p <+: q → q.length ≤ 32 → 32 ≤ (bucket.filter fun entry => q.isPrefixOf entry.string.toList).length →
    ∀ entry ∈ bucket, q <+: entry.string.toList →
      entry.string.toList = q ∨ ∃ c : Char, c.isDigit = true ∧ q ++ [c] <+: entry.string.toList

/-! ### The comparator -/

theorem induces_sortStringComparator : Induces sortStringComparator byString where
  number x y := by
    unfold sortStringComparator
    split
    · exact ⟨_, rfl⟩
    · exact ⟨_, rfl⟩
  lt_zero x y r hr := by
    unfold sortStringComparator at hr
    rw [byString, decide_eq_false_iff_not, not_le]
    split at hr
    · next heq =>
      cases hr
      rw [heq]
      exact ⟨nofun, fun h => absurd h (lt_irrefl _)⟩
    · next hne =>
      rw [JsValue.slowStringCmp_eq] at hr
      by_cases hlt : y.string < x.string
      · rw [if_pos hlt, if_pos (show (Except.ok cmpTrue : Except Failure ℤ).toOption = some cmpTrue from rfl)] at hr
        cases hr
        exact ⟨fun h => absurd h (by decide), fun h => absurd hlt h.not_gt⟩
      · rw [if_neg hlt, if_neg (by decide)] at hr
        cases hr
        exact ⟨fun _ => lt_of_le_of_ne (not_lt.mp hlt) hne, fun _ => by decide⟩
  trans x y z hxy hyz := decide_eq_true ((of_decide_eq_true hxy).trans (of_decide_eq_true hyz))
  total x y := by
    rw [byString, byString, ← Bool.decide_or]
    exact decide_eq_true (le_total _ _)

theorem byString_refl (x : SortEntry) : byString x x = true := decide_eq_true (le_refl x.string)

/-! ### Filling the buckets -/

section Fill

variable {depth i : ℕ} {bucket : List SortEntry} {array : List JsValue} {buckets : Buckets}

/-- The buckets of the digits from the length on are empty. -/
structure Buckets.Indexed (buckets : Buckets) : Prop where
  length_le : buckets.length ≤ 10
  empty : ∀ i, buckets.length ≤ i → buckets.getIndex i = []

theorem indexed_empty : Buckets.empty.Indexed where
  length_le := Nat.zero_le 10
  empty i _ := by
    unfold Buckets.getIndex
    split
    · rfl
    · rfl

theorem isDigit_iff {c : Char} : c.isDigit = true ↔ ∃ i < 10, c = Char.ofNat (48 + i) := by
  constructor
  · intro h
    have hle : 48 ≤ c.toNat ∧ c.toNat ≤ 57 := by
      unfold Char.isDigit at h
      rw [Bool.and_eq_true, decide_eq_true_iff, decide_eq_true_iff, ge_iff_le, UInt32.le_iff_toNat_le,
        UInt32.le_iff_toNat_le] at h
      exact h
    refine ⟨c.toNat - 48, by omega, ?_⟩
    rw [show 48 + (c.toNat - 48) = c.toNat by omega, Char.ofNat_toNat]
  · rintro ⟨i, hi, rfl⟩
    interval_cases i <;> rfl

theorem toNat_digit (hi : i < 10) : (Char.ofNat (48 + i)).toNat = 48 + i := by
  interval_cases i <;> rfl

theorem Buckets.Indexed.push (h : buckets.Indexed) (c : Option Char) (entry : SortEntry) :
    (buckets.push c entry).Indexed := by
  have hle : buckets.length ≤ (buckets.push c entry).length := by
    unfold Buckets.push
    dsimp only
    split
    · split
      · exact le_max_left _ _
      · exact le_rfl
    · exact le_rfl
  constructor
  · unfold Buckets.push
    dsimp only
    split
    · split
      · next c hc =>
        obtain ⟨i, hi, rfl⟩ := isDigit_iff.mp hc
        rw [toNat_digit hi]
        exact max_le h.length_le (by omega)
      · exact h.length_le
    · exact h.length_le
  · intro i hi
    have hold := h.empty i (hle.trans hi)
    unfold Buckets.getIndex at hold ⊢
    split
    · next hten =>
      rw [if_pos hten] at hold
      have hne : some (Char.ofNat (48 + i)) ≠ c := by
        rintro rfl
        have hpush : (buckets.push (some (Char.ofNat (48 + i))) entry).length = max buckets.length (i + 1) := by
          unfold Buckets.push
          dsimp only
          rw [if_pos (isDigit_iff.mpr ⟨i, hten, rfl⟩), toNat_digit hten, Nat.add_sub_cancel_left]
        omega
      exact (if_neg hne).trans hold
    · rfl

theorem fillBuckets_spec (h : buckets.Indexed) :
    (fillBuckets depth bucket array buckets).1 =
      array ++ (bucket.filter fun entry => entry.string.utf8ByteSize = depth).map SortEntry.value ∧
    (fillBuckets depth bucket array buckets).2.Indexed ∧
    ∀ k, (fillBuckets depth bucket array buckets).2.get k = buckets.get k ++
      bucket.filter fun entry => entry.string.utf8ByteSize ≠ depth ∧ entry.string.toList[depth]? = k := by
  induction bucket generalizing array buckets with
  | nil =>
    rw [fillBuckets]
    exact ⟨(List.append_nil _).symm, h, fun k => (List.append_nil _).symm⟩
  | cons entry bucket ih =>
    rw [fillBuckets]
    by_cases hend : entry.string.utf8ByteSize = depth
    · obtain ⟨harray, hindexed, hget⟩ := @ih (array ++ [entry.value]) buckets h
      rw [if_pos hend]
      refine ⟨?_, hindexed, fun k => ?_⟩
      · rw [harray, List.filter_cons_of_pos (by simpa using hend), List.map_cons, List.append_assoc]
        rfl
      · rw [hget k, List.filter_cons_of_neg (by simp [hend])]
    · obtain ⟨harray, hindexed, hget⟩ := @ih array _ (h.push entry.string.toList[depth]? entry)
      rw [if_neg hend]
      refine ⟨?_, hindexed, fun k => ?_⟩
      · rw [harray, List.filter_cons_of_neg (by simpa using hend)]
      · rw [hget k]
        by_cases hk : entry.string.toList[depth]? = k
        · rw [List.filter_cons_of_pos (by simp [hend, hk])]
          have hpush : (buckets.push entry.string.toList[depth]? entry).get k = buckets.get k ++ [entry] := if_pos hk.symm
          rw [hpush, List.append_assoc]
          rfl
        · rw [List.filter_cons_of_neg (by simp [hk])]
          have hpush : (buckets.push entry.string.toList[depth]? entry).get k = buckets.get k := if_neg (Ne.symm hk)
          rw [hpush]

end Fill

/-! ### One bucket -/

/-- The place of what is left of a string: the end first, then the digits, and last what is never visited. -/
def tailRank : List Char → ℕ
  | [] => 0
  | c :: _ => if c.isDigit then c.toNat - 48 + 1 else 11

def rank (depth : ℕ) (entry : SortEntry) : ℕ := tailRank (entry.string.toList.drop depth)

/-- The strings of a bucket begin with the same digits. -/
structure IsBucket (p : List Char) (bucket : List SortEntry) : Prop where
  digits : ∀ c ∈ p, c.isDigit = true
  common : ∀ entry ∈ bucket, p <+: entry.string.toList

section Rank

variable {p : List Char} {bucket : List SortEntry} {entry x y : SortEntry} {i : ℕ}

theorem rank_of_append {tail : List Char} (h : p ++ tail = entry.string.toList) :
    rank p.length entry = tailRank tail := by
  rw [rank, ← h, List.drop_left]

theorem utf8ByteSize_eq_utf8Length (text : String) : text.utf8ByteSize = utf8Length text.toList := by
  have hsum : ∀ s : List Char, (s.map Char.utf8Size).sum = utf8Length s := by
    intro s
    induction s with
    | nil => rfl
    | cons c s ih => rw [List.map_cons, List.sum_cons, ih, utf8Length_cons]
  rw [← hsum, ← utf8ByteSize_ofList, String.ofList_toList]

theorem utf8Size_of_isDigit {c : Char} (h : c.isDigit = true) : c.utf8Size = 1 := by
  obtain ⟨i, hi, rfl⟩ := isDigit_iff.mp h
  interval_cases i <;> rfl

theorem IsBucket.ends_iff (h : IsBucket p bucket) (hentry : entry ∈ bucket) :
    entry.string.utf8ByteSize = p.length ↔ rank p.length entry = 0 := by
  obtain ⟨tail, htail⟩ := h.common entry hentry
  have hascii : utf8Length p = p.length :=
    utf8Length_eq_length_iff.mpr fun c hc => utf8Size_of_isDigit (h.digits c hc)
  rw [utf8ByteSize_eq_utf8Length, ← htail, utf8Length_append, hascii, rank_of_append htail]
  cases tail with
  | nil => simp [tailRank]
  | cons c tail =>
    have hpos : 0 < utf8Length (c :: tail) := utf8Length_pos (List.cons_ne_nil c tail)
    rw [tailRank]
    split <;> omega

theorem IsBucket.key_iff (h : IsBucket p bucket) (hentry : entry ∈ bucket) (hi : i < 10) :
    (entry.string.utf8ByteSize ≠ p.length ∧ entry.string.toList[p.length]? = some (Char.ofNat (48 + i))) ↔
      rank p.length entry = i + 1 := by
  rw [Ne, h.ends_iff hentry]
  obtain ⟨tail, htail⟩ := h.common entry hentry
  rw [← htail, List.getElem?_append_right le_rfl, Nat.sub_self, rank_of_append htail]
  cases tail with
  | nil => simp [tailRank]
  | cons c tail =>
    rw [tailRank]
    rw [List.getElem?_cons_zero, Option.some_inj]
    constructor
    · rintro ⟨-, rfl⟩
      rw [if_pos (isDigit_iff.mpr ⟨i, hi, rfl⟩), toNat_digit hi, Nat.add_sub_cancel_left]
    · intro hrank
      refine ⟨by omega, ?_⟩
      split at hrank
      · next hc =>
        obtain ⟨j, hj, rfl⟩ := isDigit_iff.mp hc
        rw [toNat_digit hj] at hrank
        rw [show j = i by omega]
      · omega

theorem IsBucket.rank_eq_iff (h : IsBucket p bucket) (hentry : entry ∈ bucket) (hi : i < 10) :
    rank p.length entry = i + 1 ↔ p ++ [Char.ofNat (48 + i)] <+: entry.string.toList := by
  rw [← h.key_iff hentry hi, Ne, h.ends_iff hentry]
  obtain ⟨tail, htail⟩ := h.common entry hentry
  rw [← htail, List.getElem?_append_right le_rfl, Nat.sub_self, List.prefix_append_right_inj, rank_of_append htail]
  cases tail with
  | nil => simp [tailRank]
  | cons c tail =>
    rw [List.getElem?_cons_zero, Option.some_inj, List.cons_prefix_cons]
    rw [tailRank]
    constructor
    · rintro ⟨-, rfl⟩
      exact ⟨rfl, List.nil_prefix⟩
    · rintro ⟨rfl, -⟩
      refine ⟨?_, rfl⟩
      split <;> omega

theorem IsBucket.rank_lt_iff (h : IsBucket p bucket) (hentry : entry ∈ bucket) :
    rank p.length entry < 11 ↔
      entry.string.toList = p ∨ ∃ c : Char, c.isDigit = true ∧ p ++ [c] <+: entry.string.toList := by
  obtain ⟨tail, htail⟩ := h.common entry hentry
  rw [← htail, rank_of_append htail]
  cases tail with
  | nil => simp [tailRank]
  | cons c tail =>
    rw [tailRank]
    constructor
    · intro hrank
      split at hrank
      · next hc => exact Or.inr ⟨c, hc, (List.prefix_append_right_inj p).mpr ⟨tail, rfl⟩⟩
      · omega
    · rintro (hnil | ⟨d, hd, hpre⟩)
      · exact absurd (List.append_right_eq_self.mp hnil) (List.cons_ne_nil c tail)
      · rw [List.prefix_append_right_inj, List.cons_prefix_cons] at hpre
        obtain ⟨rfl, -⟩ := hpre
        obtain ⟨i, hi, rfl⟩ := isDigit_iff.mp hd
        rw [if_pos hd, toNat_digit hi]
        omega

theorem IsBucket.byString_of_rank_lt (h : IsBucket p bucket) (hx : x ∈ bucket) (hy : y ∈ bucket)
    (hlt : rank p.length x < rank p.length y) (hten : rank p.length y < 11) :
    byString x y = true ∧ byString y x = false := by
  obtain ⟨tail, htail⟩ := h.common x hx
  obtain ⟨tail', htail'⟩ := h.common y hy
  have hless : x.string < y.string := by
    rw [String.lt_iff_toList_lt, ← htail, ← htail']
    rw [rank_of_append htail, rank_of_append htail'] at hlt
    rw [rank_of_append htail'] at hten
    refine List.append_left_lt ?_
    cases tail' with
    | nil => exact absurd hlt (Nat.not_lt_zero _)
    | cons d tail' =>
      cases tail with
      | nil => exact List.nil_lt_cons d tail'
      | cons c tail =>
        rw [tailRank, tailRank] at hlt
        rw [tailRank] at hten
        rw [List.cons_lt_cons_iff]
        refine Or.inl (Char.lt_def.mpr (UInt32.lt_iff_toNat_lt.mpr ?_))
        change c.toNat < d.toNat
        split at hlt
        · split at hlt
          · omega
          · next hd => rw [if_neg hd] at hten; omega
        · split at hten <;> split at hlt <;> omega
  exact ⟨decide_eq_true hless.le, decide_eq_false hless.not_ge⟩

end Rank

/-! ### The recursion -/

section Recursion

variable {p : List Char} {bucket : List SortEntry} {i : ℕ}

/-- The entries that go on with the `i`th digit. -/
def subBucket (p : List Char) (bucket : List SortEntry) (i : ℕ) : List SortEntry :=
  bucket.filter fun entry => rank p.length entry = i + 1

theorem IsBucket.subBucket (h : IsBucket p bucket) (hi : i < 10) :
    IsBucket (p ++ [Char.ofNat (48 + i)]) (subBucket p bucket i) where
  digits c hc := by
    rcases List.mem_append.mp hc with hc | hc
    · exact h.digits c hc
    · rw [List.mem_singleton.mp hc]
      exact isDigit_iff.mpr ⟨i, hi, rfl⟩
  common entry hentry := by
    rw [Starlight.subBucket, List.mem_filter, decide_eq_true_iff] at hentry
    exact (h.rank_eq_iff hentry.1 hi).mp hentry.2

theorem bucketsKept_of_short (h : bucket.length < 32) : BucketsKept bucket p := fun q _ _ hlong =>
  absurd (hlong.trans (List.length_filter_le _ _)) (by omega)

theorem bucketsKept_of_deep (h : 32 < p.length) : BucketsKept bucket p := fun q hpre hq =>
  absurd (hpre.length_le.trans hq) (by omega)

theorem bucketsKept_iff (h : IsBucket p bucket) (hlong : 32 ≤ bucket.length) (hp : p.length ≤ 32) :
    BucketsKept bucket p ↔ (∀ entry ∈ bucket, rank p.length entry < 11) ∧
      ∀ i < 10, BucketsKept (subBucket p bucket i) (p ++ [Char.ofNat (48 + i)]) := by
  have hall : (bucket.filter fun entry => p.isPrefixOf entry.string.toList) = bucket :=
    List.filter_eq_self.mpr fun entry hentry => List.isPrefixOf_iff_prefix.mpr (h.common entry hentry)
  -- below the bucket of a digit the same strings are counted
  have hcount : ∀ i < 10, ∀ q, p ++ [Char.ofNat (48 + i)] <+: q →
      ((subBucket p bucket i).filter fun entry => q.isPrefixOf entry.string.toList) =
        bucket.filter fun entry => q.isPrefixOf entry.string.toList := by
    intro i hi q hq
    rw [subBucket, List.filter_filter]
    refine List.filter_congr fun entry hentry => ?_
    rw [Bool.and_eq_left_iff_imp, List.isPrefixOf_iff_prefix, decide_eq_true_iff, h.rank_eq_iff hentry hi]
    exact hq.trans
  constructor
  · intro hkept
    refine ⟨fun entry hentry => ?_, fun i hi q hq hlength hmany entry hentry hpre => ?_⟩
    · rw [h.rank_lt_iff hentry]
      exact hkept p (List.prefix_refl p) hp (by rw [hall]; exact hlong) entry hentry (h.common entry hentry)
    · rw [hcount i hi q hq] at hmany
      exact hkept q ((List.prefix_append p _).trans hq) hlength hmany entry (List.mem_filter.mp hentry).1 hpre
  · rintro ⟨hhere, hbelow⟩ q hq hlength hmany entry hentry hpre
    obtain ⟨tail, rfl⟩ := hq
    cases tail with
    | nil =>
      rw [List.append_nil] at hpre ⊢
      exact (h.rank_lt_iff hentry).mp (hhere entry hentry)
    | cons c tail =>
      have hcons : p ++ [c] <+: p ++ c :: tail := (List.prefix_append_right_inj p).mpr ⟨tail, rfl⟩
      obtain ⟨i, hi, rfl⟩ : ∃ i < 10, c = Char.ofNat (48 + i) := by
        rw [← isDigit_iff]
        rcases (h.rank_lt_iff hentry).mp (hhere entry hentry) with hend | ⟨d, hd, hgo⟩
        · rw [hend] at hpre
          have hle := (hcons.trans hpre).length_le
          rw [List.length_append, List.length_singleton] at hle
          omega
        · have heq := List.prefix_of_prefix_length_le (hcons.trans hpre) hgo (by simp)
          have hone := (List.prefix_append_right_inj p).mp heq
          rw [List.cons_prefix_cons] at hone
          rwa [hone.1]
      have hmem : entry ∈ subBucket p bucket i :=
        List.mem_filter.mpr ⟨hentry, decide_eq_true ((h.rank_eq_iff hentry hi).mpr (hcons.trans hpre))⟩
      rw [← hcount i hi _ hcons] at hmany
      exact hbelow i hi _ hcons hlength hmany entry hmem hpre

theorem foldlM_visit {visit : List JsValue → ℕ → Option (List JsValue)} {f : ℕ → List SortEntry} {n : ℕ}
    (hvisit : ∀ i < n, ∀ array, visit array i = some (array ++ (f i).map SortEntry.value)) (array : List JsValue) :
    (List.range n).foldlM visit array = some (array ++ ((List.range n).flatMap f).map SortEntry.value) := by
  induction n with
  | zero => exact congrArg some (List.append_nil array).symm
  | succ n ih =>
    rw [List.range_succ, List.foldlM_append, ih fun i hi => hvisit i (by omega), List.flatMap_append,
      List.flatMap_singleton, List.map_append, ← List.append_assoc]
    change (visit _ n).bind some = _
    rw [hvisit n (Nat.lt_succ_self n)]
    rfl

theorem isStableSort_ended (h : IsBucket p bucket) :
    IsStableSort byString (bucket.filter fun entry => rank p.length entry = 0)
      (bucket.filter fun entry => rank p.length entry = 0) := by
  have hstring : ∀ entry ∈ bucket.filter (fun entry => rank p.length entry = 0), entry.string = String.ofList p := by
    intro entry hentry
    rw [List.mem_filter, decide_eq_true_iff] at hentry
    obtain ⟨tail, htail⟩ := h.common entry hentry.1
    have hrank := hentry.2
    rw [rank_of_append htail] at hrank
    cases tail with
    | nil => rw [← String.ofList_toList (s := entry.string), ← htail, List.append_nil]
    | cons c tail =>
      rw [tailRank] at hrank
      split at hrank <;> omega
  refine IsStableSort.of_sorted (List.Pairwise.imp_of_mem (R := fun _ _ => True) ?_ (List.pairwise_of_forall fun _ _ => trivial))
  intro x y hx hy _
  exact decide_eq_true (by rw [hstring x hx, hstring y hy])

theorem exists_sortBucketSort {fuel : ℕ} (h : IsBucket p bucket) (hp : p.length ≤ 33)
    (hfuel : bucket.length + (34 - p.length) < fuel) :
    ∃ out : List SortEntry,
      (∀ array, sortBucketSort fuel array bucket p.length = some (array ++ out.map SortEntry.value)) ∧
      out.length ≤ bucket.length ∧ (BucketsKept bucket p → IsStableSort byString bucket out) ∧
      (out.length = bucket.length → BucketsKept bucket p) := by
  induction fuel generalizing p bucket with
  | zero => exact absurd hfuel (Nat.not_lt_zero _)
  | succ fuel ih =>
    by_cases hmerge : bucket.length < 32 ∨ 32 < p.length
    · obtain ⟨out, hrun, hout⟩ := exists_sortMergeSort induces_sortStringComparator (show bucket.length < fuel by omega)
      refine ⟨out, fun array => ?_, hout.length.le, fun _ => hout, fun _ => ?_⟩
      · rw [sortBucketSort, if_pos hmerge, hrun]
        rfl
      · exact hmerge.elim bucketsKept_of_short bucketsKept_of_deep
    · have hlong : 32 ≤ bucket.length := by omega
      have hdeep : p.length ≤ 32 := by omega
      -- the recursion below each digit
      have hbelow : ∀ i, ∃ out : List SortEntry, (10 ≤ i → out = []) ∧ (i < 10 →
          (∀ array, sortBucketSort fuel array (subBucket p bucket i) (p.length + 1) =
            some (array ++ out.map SortEntry.value)) ∧
          out.length ≤ (subBucket p bucket i).length ∧
          (BucketsKept (subBucket p bucket i) (p ++ [Char.ofNat (48 + i)]) →
            IsStableSort byString (subBucket p bucket i) out) ∧
          (out.length = (subBucket p bucket i).length →
            BucketsKept (subBucket p bucket i) (p ++ [Char.ofNat (48 + i)]))) := by
        intro i
        by_cases hi : i < 10
        · have hle : (subBucket p bucket i).length ≤ bucket.length := List.length_filter_le _ _
          have hlen : (p ++ [Char.ofNat (48 + i)]).length = p.length + 1 := by simp
          obtain ⟨out, hout⟩ := ih (h.subBucket hi) (by omega) (by omega)
          rw [hlen] at hout
          exact ⟨out, fun hten => absurd hi (not_lt.mpr hten), fun _ => hout⟩
        · exact ⟨[], fun _ => rfl, fun h => absurd h hi⟩
      choose f hnil hf using hbelow
      let g : ℕ → List SortEntry := fun i =>
        i.casesOn (bucket.filter fun entry => rank p.length entry = 0) f
      have hg : (List.range 11).flatMap g =
          (bucket.filter fun entry => rank p.length entry = 0) ++ (List.range 10).flatMap f := by
        rw [List.range_succ_eq_map, List.flatMap_cons, List.flatMap_map]
        rfl
      have hpart : ∀ i < 11, (g i).length ≤ (bucket.filter fun entry => rank p.length entry = i).length := by
        intro i hi
        cases i with
        | zero => exact le_rfl
        | succ i => exact (hf i (by omega)).2.1
      obtain ⟨hle, hwhole⟩ := length_flatMap_le bucket (rank p.length) hpart
      refine ⟨(List.range 11).flatMap g, fun array => ?_, hle, fun hkept => ?_, fun heq => ?_⟩
      · obtain ⟨harray, hindexed, hget⟩ := @fillBuckets_spec p.length bucket array Buckets.empty indexed_empty
        have hindex : ∀ i < 10, (fillBuckets p.length bucket array Buckets.empty).2.getIndex i = subBucket p bucket i := by
          intro i hi
          rw [Buckets.getIndex, if_pos hi, hget, subBucket]
          exact List.filter_congr fun entry hentry => decide_eq_decide.mpr (h.key_iff hentry hi)
        have hrest : (List.range (fillBuckets p.length bucket array Buckets.empty).2.length).flatMap f =
            (List.range 10).flatMap f := by
          refine (flatMap_range_of_le hindexed.length_le fun i hi => ?_).symm
          by_cases hten : i < 10
          · have hempty := hindexed.empty i hi
            rw [hindex i hten] at hempty
            have hzero := (hf i hten).2.1
            rw [hempty] at hzero
            exact List.eq_nil_of_length_eq_zero (Nat.le_zero.mp hzero)
          · exact hnil i (not_lt.mp hten)
        have hended : (bucket.filter fun entry => entry.string.utf8ByteSize = p.length) =
            bucket.filter fun entry => rank p.length entry = 0 :=
          List.filter_congr fun entry hentry => decide_eq_decide.mpr (h.ends_iff hentry)
        rw [sortBucketSort, if_neg hmerge]
        dsimp only
        rw [foldlM_visit (f := f), harray, hrest, hended, hg, List.map_append, List.append_assoc]
        intro i hi array
        have hten : i < 10 := hi.trans_le hindexed.length_le
        rw [hindex i hten]
        split
        · next hempty =>
          have hzero := (hf i hten).2.1
          rw [List.isEmpty_iff.mp hempty] at hzero
          rw [List.eq_nil_of_length_eq_zero (Nat.le_zero.mp hzero), List.map_nil, List.append_nil]
        · exact (hf i hten).1 array
      · obtain ⟨hhere, hunder⟩ := (bucketsKept_iff h hlong hdeep).mp hkept
        refine isStableSort_flatMap induces_sortStringComparator.trans
          (fun x hx y hy hlt => h.byString_of_rank_lt hx hy hlt (hhere y hy)) hhere fun i hi => ?_
        cases i with
        | zero => exact isStableSort_ended h
        | succ i => exact (hf i (by omega)).2.2.1 (hunder i (by omega))
      · obtain ⟨hhere, hfull⟩ := hwhole heq
        exact (bucketsKept_iff h hlong hdeep).mpr
          ⟨hhere, fun i hi => (hf i hi).2.2.2 (hfull (i + 1) (by omega))⟩

end Recursion

/-! ### The whole sort -/

section Whole

variable {toString : JsValue → Except Failure String} {receiver : List (Option JsValue)}
  {entries : List SortEntry}

theorem definedValues_cons (slot : Option JsValue) (receiver : List (Option JsValue)) :
    definedValues (slot :: receiver) =
      match slot with
      | none => definedValues receiver
      | some v => if v = .undefined then definedValues receiver else v :: definedValues receiver := by
  cases slot with
  | none => rfl
  | some v =>
    dsimp only
    rw [definedValues, List.filterMap_cons_some (by rfl), List.filter_cons]
    by_cases hv : v = .undefined
    · rw [if_neg (by simp [hv]), if_pos hv]
      rfl
    · rw [if_pos (by simp [hv]), if_neg hv]
      rfl

theorem sortCompact_eq (hvalues : entries.map SortEntry.value = definedValues receiver)
    (hstrings : ∀ entry ∈ entries, toString entry.value = .ok entry.string) :
    sortCompact toString receiver = .ok (receiver.count (some .undefined), entries) := by
  induction receiver generalizing entries with
  | nil =>
    rw [List.map_eq_nil_iff.mp hvalues]
    rfl
  | cons slot receiver ih =>
    rw [definedValues_cons] at hvalues
    cases slot with
    | none =>
      rw [sortCompact, ih hvalues hstrings, List.count_cons_of_ne (by decide)]
    | some v =>
      dsimp only at hvalues
      rw [sortCompact]
      by_cases hv : v = .undefined
      · rw [if_pos hv] at hvalues
        rw [if_pos hv, ih hvalues hstrings, hv, List.count_cons_self]
        rfl
      · rw [if_neg hv] at hvalues
        obtain ⟨entry, entries, rfl, rfl, hrest⟩ := List.map_eq_cons_iff.mp hvalues
        rw [List.forall_mem_cons] at hstrings
        rw [if_neg hv, hstrings.1, List.count_cons_of_ne (by simpa using hv)]
        change (sortCompact toString receiver).bind _ = _
        rw [ih hrest hstrings.2]
        rfl

theorem length_receiver (hvalues : entries.map SortEntry.value = definedValues receiver) :
    receiver.length = entries.length + receiver.count (some .undefined) + receiver.count none := by
  rw [← List.length_map SortEntry.value, hvalues]
  clear hvalues
  induction receiver with
  | nil => rfl
  | cons slot receiver ih =>
    rw [definedValues_cons, List.length_cons, ih]
    cases slot with
    | none =>
      rw [List.count_cons_self, List.count_cons_of_ne (by decide)]
      dsimp only
      omega
    | some v =>
      dsimp only
      rw [List.count_cons_of_ne (Option.some_ne_none v)]
      by_cases hv : v = .undefined
      · rw [if_pos hv, hv, List.count_cons_self]
        omega
      · rw [if_neg hv, List.count_cons_of_ne (by simpa using hv), List.length_cons]
        omega

theorem value_ne_undefined (hvalues : entries.map SortEntry.value = definedValues receiver) {entry : SortEntry}
    (hentry : entry ∈ entries) : entry.value ≠ .undefined := by
  have hmem : entry.value ∈ definedValues receiver := by
    rw [← hvalues]
    exact List.mem_map_of_mem hentry
  exact of_decide_eq_true (List.mem_filter.mp hmem).2

theorem sortLaw_of_short (hlength : receiver.length < 2)
    (hvalues : entries.map SortEntry.value = definedValues receiver) : SortLaw toString receiver entries := by
  have hcount := length_receiver hvalues
  have hsorted : IsStableSort byString entries entries := IsStableSort.of_length_le_one (by omega)
  have hreceiver : entries.map (fun entry => some entry.value) ++
      List.replicate (receiver.count (some .undefined)) (some .undefined) ++
      List.replicate (receiver.count none) none = receiver := by
    rcases receiver with _ | ⟨slot, _ | ⟨_, _⟩⟩
    · rw [List.map_eq_nil_iff.mp hvalues]
      rfl
    · rw [definedValues_cons] at hvalues
      cases slot with
      | none =>
        rw [List.map_eq_nil_iff.mp hvalues]
        rfl
      | some v =>
        dsimp only at hvalues
        by_cases hv : v = .undefined
        · rw [if_pos hv] at hvalues
          rw [List.map_eq_nil_iff.mp hvalues, hv]
          rfl
        · rw [if_neg hv] at hvalues
          obtain ⟨entry, rest, rfl, rfl, hrest⟩ := List.map_eq_cons_iff.mp hvalues
          rw [List.map_eq_nil_iff.mp hrest, List.count_cons_of_ne (by simpa using hv),
            List.count_cons_of_ne (Option.some_ne_none _)]
          rfl
    · rw [List.length_cons, List.length_cons] at hlength
      omega
  refine ⟨entries, hsorted, entries.length + 1, fun fuel hfuel => ⟨?_, ?_⟩⟩
  · obtain ⟨out, hrun, hout⟩ := exists_sortMergeSort induces_sortStringComparator (show entries.length < fuel by omega)
    rw [hrun, hout.unique byString_refl hsorted]
  · rw [sort, if_pos hlength, hreceiver]

end Whole

end Starlight
