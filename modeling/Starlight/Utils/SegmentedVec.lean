import Mathlib.Data.List.Sort
import Mathlib.Data.List.Perm.Basic
import Starlight.Lib.Transducer

/-!
# Segmented vectors

`SegmentedVec` keeps its elements in chunks, and finds the element of an index by dividing by the chunk
size. That is right as long as every chunk but the last is full. Appending and removing at the end keep
this; `retain` filters every chunk for itself and does not.
-/

namespace Starlight

variable {α β : Type}

/-- A pass of the loop of `retain_mut`: the elements, and how many were dropped so far. -/
def retainMutStep (f : β → Bool × β) (i : ℕ) (acc : List β × ℕ) : List β × ℕ :=
  match acc.1[i]? with
  | none => acc
  | some x =>
    let v := acc.1.set i (f x).2
    if !(f x).1 then (v, acc.2 + 1)
    else if acc.2 > 0 then
      ((v.set (i - acc.2) (f x).2).set i (v.getD (i - acc.2) (f x).2), acc.2)
    else (v, acc.2)

/-- `retain_mut`; the function may change the elements. -/
def retainMut (f : β → Bool × β) (v : List β) : List β :=
  let acc := (List.range v.length).foldl (fun acc i => retainMutStep f i acc) (v, 0)
  if acc.2 > 0 then acc.1.take (v.length - acc.2) else acc.1

structure SegmentedVec (α : Type) where
  chunks : List (List α)
  chunkSize : ℕ

namespace SegmentedVec

def withChunkSize (chunkSize : ℕ) : SegmentedVec α := ⟨[], chunkSize⟩

def retain (f : α → Bool) (v : SegmentedVec α) : SegmentedVec α :=
  { v with chunks := retainMut (fun elem => (!(elem.filter f).isEmpty, elem.filter f)) v.chunks }

def push (val : α) (v : SegmentedVec α) : SegmentedVec α :=
  let newChunk :=
    match v.chunks.getLast? with
    | some chunk => decide (chunk.length ≥ v.chunkSize)
    | none => true
  let chunks := if newChunk then v.chunks ++ [[]] else v.chunks
  { v with chunks := chunks.modify (chunks.length - 1) (· ++ [val]) }

def popLoop (chunks : List (List α)) : Option α × List (List α) :=
  match _h : chunks.getLast? with
  | none => (none, chunks)
  | some chunk =>
    match chunk.getLast? with
    | some popped => (some popped, chunks.modify (chunks.length - 1) List.dropLast)
    | none => popLoop chunks.dropLast
termination_by chunks.length
decreasing_by
  have hne : chunks ≠ [] := by rintro rfl; cases _h
  have := List.length_pos_of_ne_nil hne
  rw [List.length_dropLast]
  omega

def pop (v : SegmentedVec α) : Option α × SegmentedVec α :=
  ((popLoop v.chunks).1, { v with chunks := (popLoop v.chunks).2 })

def clear (v : SegmentedVec α) : SegmentedVec α := { v with chunks := [] }

def len (v : SegmentedVec α) : ℕ :=
  match v.chunks.getLast? with
  | some chunk => (v.chunks.length - 1) * v.chunkSize + chunk.length
  | none => 0

def get (v : SegmentedVec α) (idx : ℕ) : Option α :=
  match v.chunks[idx / v.chunkSize]? with
  | some chunk => chunk[idx % v.chunkSize]?
  | none => none

/-- `get_mut`: the element, and the vector when its caller has changed it by `f`. -/
def getMut (v : SegmentedVec α) (idx : ℕ) (f : α → α) : Option (α × SegmentedVec α) :=
  match v.chunks[idx / v.chunkSize]? with
  | some chunk =>
    match chunk[idx % v.chunkSize]? with
    | some a =>
      let chunks := v.chunks.modify (idx / v.chunkSize) fun c => c.modify (idx % v.chunkSize) f
      some (a, { v with chunks })
    | none => none
  | none => none

/-- `Iter`: the chunks to come and what is left of the current one. -/
structure Iter (α : Type) where
  chunks : List (List α)
  current : List α

def iter (v : SegmentedVec α) : Iter α := ⟨v.chunks, []⟩

/-- `Iter::next`; the call at its end is a recursion over the chunks. -/
def Iter.next : List (List α) → List α → Option (α × Iter α)
  | chunks, a :: current => some (a, ⟨chunks, current⟩)
  | chunk :: chunks, [] => next chunks chunk
  | [], [] => none

def Iter.nth : ℕ → Iter α → Option α
  | 0, it => (next it.chunks it.current).map Prod.fst
  | i + 1, it => (next it.chunks it.current).bind fun x => nth i x.2

inductive Op (α : Type) where
  | push (val : α)
  | pop
  | retain (f : α → Bool)
  | clear
  | getMut (idx : ℕ) (f : α → α)

/-- A call on a segmented vector, with the element it returns. -/
def machine : Transducer (Op α) (Option α) (SegmentedVec α) where
  step v
    | .push val => some (none, v.push val)
    | .pop => some v.pop
    | .retain f => some (none, v.retain f)
    | .clear => some (none, v.clear)
    | .getMut idx f =>
      match v.getMut idx f with
      | some (a, v) => some (some a, v)
      | none => some (none, v)

def listMachine : Transducer (Op α) (Option α) (List α) where
  step l
    | .push val => some (none, l ++ [val])
    | .pop => some (l.getLast?, l.dropLast)
    | .retain f => some (none, l.filter f)
    | .clear => some (none, [])
    | .getMut idx f => some (l[idx]?, l.modify idx f)

/-- The vector has the length and the elements of the list, by index and in order. -/
structure Agrees (v : SegmentedVec α) (l : List α) : Prop where
  len : v.len = l.length
  get : ∀ idx, v.get idx = l[idx]?
  iter : ∀ i, Iter.nth i v.iter = l[i]?

/-- A `retain` keeps or drops the whole of each chunk that a chunk with a kept element follows. -/
def Whole (v : SegmentedVec α) : Op α → Prop
  | .retain f => v.chunks.Pairwise fun c d =>
    (∃ a ∈ d, f a = true) → (∀ a ∈ c, f a = true) ∨ ∀ a ∈ c, f a = false
  | _ => True

/-! ### The loop of `retain_mut` -/

/-- The element as the function leaves it, if it is kept. -/
def kept? (f : β → Bool × β) (x : β) : Option β := if (f x).1 then some (f x).2 else none

/-- After `i` passes: what was kept, what was dropped, and what is to come. -/
def Passed (f : β → Bool × β) (v : List β) (i : ℕ) (acc : List β × ℕ) : Prop :=
  ∃ kept dropped, acc = (kept ++ dropped ++ v.drop i, dropped.length) ∧
    kept = (v.take i).filterMap (kept? f) ∧ kept.length + dropped.length = i

theorem passed_step {f : β → Bool × β} {v : List β} {i : ℕ} {acc : List β × ℕ}
    (h : Passed f v i acc) (hi : i < v.length) : Passed f v (i + 1) (retainMutStep f i acc) := by
  obtain ⟨kept, dropped, rfl, hkept, hlen⟩ := h
  obtain ⟨x, rest, hdrop, htake⟩ : ∃ x rest, v.drop i = x :: rest ∧
      v.take (i + 1) = v.take i ++ [x] ∧ v.drop (i + 1) = rest :=
    ⟨v[i], v.drop (i + 1), List.drop_eq_getElem_cons hi, (List.take_append_getElem hi).symm, rfl⟩
  have hget : (kept ++ dropped ++ x :: rest)[i]? = some x := by
    rw [List.getElem?_append_right (by simp; omega)]
    simp [← hlen]
  have hset : ∀ y, (kept ++ dropped ++ x :: rest).set i y = kept ++ dropped ++ y :: rest := by
    intro y
    rw [List.set_append_right _ _ (by simp; omega)]
    simp [← hlen]
  unfold retainMutStep Passed
  simp only [hdrop, hget, hset, htake, List.filterMap_append, ← hkept]
  by_cases hf : (f x).1 = true
  · cases dropped with
    | nil =>
      refine ⟨kept ++ [(f x).2], [], ?_, ?_, ?_⟩
      · simp [hf]
      · simp [kept?, hf]
      · simp at hlen ⊢
        omega
    | cons d ds =>
      refine ⟨kept ++ [(f x).2], ds ++ [d], ?_, ?_, ?_⟩
      · have hfirst : i - (ds.length + 1) = kept.length := by simp at hlen; omega
        simp only [hf, Bool.not_true, List.length_cons, hfirst]
        simp [← hlen]
      · simp [kept?, hf]
      · simp at hlen ⊢
        omega
  · refine ⟨kept, dropped ++ [(f x).2], ?_, ?_, ?_⟩
    · simp [hf]
    · simp [kept?, hf]
    · simp
      omega

theorem retainMut_eq (f : β → Bool × β) (v : List β) : retainMut f v = v.filterMap (kept? f) := by
  have hloop : ∀ i ≤ v.length,
      Passed f v i ((List.range i).foldl (fun acc i => retainMutStep f i acc) (v, 0)) := by
    intro i
    induction i with
    | zero => exact fun _ => ⟨[], [], rfl, rfl, rfl⟩
    | succ i ih =>
      intro hi
      rw [List.range_succ, List.foldl_append]
      exact passed_step (ih (by omega)) (by omega)
  obtain ⟨kept, dropped, hacc, hkept, hlen⟩ := hloop v.length (Nat.le_refl _)
  rw [retainMut, hacc]
  rw [List.take_length] at hkept
  have hsub : v.length - dropped.length = kept.length := by omega
  cases dropped with
  | nil => simp [hkept]
  | cons d ds =>
    rw [if_pos (show (d :: ds).length > 0 from Nat.succ_pos _), hsub, List.append_assoc,
      List.take_left, hkept]

/-! ### All chunks but the last are full -/

theorem modify_concat (init : List β) (c : β) (f : β → β) :
    (init ++ [c]).modify init.length f = init ++ [f c] := by
  induction init with
  | nil => rfl
  | cons d init ih => exact congrArg (d :: ·) ih

structure Filled (n : ℕ) (chunks : List (List α)) : Prop where
  full : chunks.Pairwise fun c _ => c.length = n
  le : ∀ c ∈ chunks, c.length ≤ n

namespace Filled

variable {n : ℕ} {c : List α} {chunks : List (List α)}

theorem tail (h : Filled n (c :: chunks)) : Filled n chunks :=
  ⟨h.full.of_cons, fun d hd => h.le d (List.mem_cons_of_mem _ hd)⟩

theorem head (h : Filled n (c :: chunks)) (hne : chunks ≠ []) : c.length = n := by
  obtain ⟨d, hd⟩ := List.exists_mem_of_ne_nil _ hne
  exact List.rel_of_pairwise_cons h.full hd

theorem concat_iff : Filled n (chunks ++ [c]) ↔
    (∀ d ∈ chunks, d.length = n) ∧ c.length ≤ n := by
  constructor
  · intro h
    exact ⟨fun d hd => (List.pairwise_append.mp h.full).2.2 d hd c (List.mem_singleton_self c),
      h.le c (by simp)⟩
  · rintro ⟨hfull, hle⟩
    refine ⟨List.pairwise_append.mpr ⟨List.Pairwise.imp_of_mem (fun {d _} hd _ _ => hfull d hd)
      (List.pairwise_of_forall fun _ _ => trivial), List.pairwise_singleton _ _,
      fun d hd _ _ => hfull d hd⟩, fun d hd => ?_⟩
    rcases List.mem_append.mp hd with hd | hd
    · exact (hfull d hd).le
    · exact List.mem_singleton.mp hd ▸ hle

theorem getElem? (h : Filled n chunks) (hn : 1 ≤ n) (idx : ℕ) :
    (chunks[idx / n]?.bind fun b => b[idx % n]?) = chunks.flatten[idx]? := by
  induction chunks generalizing idx with
  | nil => rfl
  | cons c chunks ih =>
    rw [List.flatten_cons]
    by_cases hidx : idx < n
    · rw [Nat.div_eq_of_lt hidx, Nat.mod_eq_of_lt hidx]
      by_cases hc : idx < c.length
      · rw [List.getElem?_append_left hc]
        rfl
      · have hnil : chunks = [] := by
          by_contra hne
          exact hc (h.head hne ▸ hidx)
        simp [hnil]
    · obtain ⟨k, rfl⟩ := Nat.exists_eq_add_of_le (not_lt.mp hidx)
      rw [Nat.add_div_left k hn, Nat.add_mod_left, List.getElem?_cons_succ, ih h.tail]
      by_cases hne : chunks = []
      · have hle := h.le c List.mem_cons_self
        subst hne
        rw [List.flatten_nil, List.append_nil, List.getElem?_eq_none (by omega : c.length ≤ n + k)]
        rfl
      · rw [List.getElem?_append_right (by rw [h.head hne]; omega), h.head hne,
          Nat.add_sub_cancel_left]

theorem of_lengths {chunks' : List (List α)} (h : Filled n chunks)
    (hlen : chunks'.map List.length = chunks.map List.length) : Filled n chunks' := by
  have hfull : (chunks.map List.length).Pairwise fun k _ => k = n := List.pairwise_map.mpr h.full
  have hle : ∀ k ∈ chunks.map List.length, k ≤ n := List.forall_mem_map.mpr h.le
  rw [← hlen] at hfull hle
  exact ⟨List.pairwise_map.mp hfull, List.forall_mem_map.mp hle⟩

theorem modify (h : Filled n chunks) (hn : 1 ≤ n) (idx : ℕ) (f : α → α) :
    Filled n (chunks.modify (idx / n) fun c => c.modify (idx % n) f) ∧
      (chunks.modify (idx / n) fun c => c.modify (idx % n) f).flatten =
        chunks.flatten.modify idx f := by
  have hfilled : Filled n (chunks.modify (idx / n) fun c => c.modify (idx % n) f) := by
    refine h.of_lengths (List.ext_getElem? fun i => ?_)
    rw [List.getElem?_map, List.getElem?_map, List.getElem?_modify]
    split <;> simp [Function.comp_def]
  refine ⟨hfilled, List.ext_getElem? fun i => ?_⟩
  rw [← hfilled.getElem? hn, List.getElem?_modify, List.getElem?_modify, ← h.getElem? hn]
  by_cases hi : idx = i
  · subst hi
    cases hc : chunks[idx / n]? <;> simp
  · by_cases hdiv : idx / n = i / n
    · have hmod : idx % n ≠ i % n := fun hmod =>
        hi (by rw [← Nat.div_add_mod idx n, ← Nat.div_add_mod i n, hdiv, hmod])
      cases hc : chunks[i / n]? <;> simp [hdiv, hi, hmod]
    · simp [hdiv, hi]

theorem len_eq (h : Filled n chunks) : len ⟨chunks, n⟩ = chunks.flatten.length := by
  rcases List.eq_nil_or_concat chunks with rfl | ⟨init, c, rfl⟩
  · rfl
  · rw [List.concat_eq_append] at h ⊢
    have hinit := (concat_iff.mp h).1
    have hlen : init.flatten.length = init.length * n := by
      clear h
      induction init with
      | nil => exact (Nat.zero_mul n).symm
      | cons d init ih =>
        rw [List.flatten_cons, List.length_append, hinit d List.mem_cons_self,
          ih fun d hd => hinit d (List.mem_cons_of_mem _ hd), List.length_cons, Nat.succ_mul,
          Nat.add_comm]
    rw [List.flatten_append, List.length_append, hlen]
    simp [len]

theorem push (h : Filled n chunks) (hn : 1 ≤ n) (val : α) :
    Filled n (SegmentedVec.push val ⟨chunks, n⟩).chunks ∧
      (SegmentedVec.push val ⟨chunks, n⟩).chunks.flatten = chunks.flatten ++ [val] := by
  rcases List.eq_nil_or_concat chunks with rfl | ⟨init, c, rfl⟩
  · exact ⟨⟨List.pairwise_singleton _ _, by simpa [SegmentedVec.push] using hn⟩, rfl⟩
  · rw [List.concat_eq_append] at h ⊢
    obtain ⟨hinit, hc⟩ := concat_iff.mp h
    by_cases hfull : n ≤ c.length
    · have hpush : (SegmentedVec.push val ⟨init ++ [c], n⟩).chunks = (init ++ [c]) ++ [[val]] := by
        simpa [SegmentedVec.push, hfull] using modify_concat (init ++ [c]) [] (· ++ [val])
      rw [hpush, concat_iff]
      refine ⟨⟨fun d hd => ?_, by simpa using hn⟩, by simp⟩
      rcases List.mem_append.mp hd with hd | hd
      · exact hinit d hd
      · exact List.mem_singleton.mp hd ▸ le_antisymm hc hfull
    · have hpush : (SegmentedVec.push val ⟨init ++ [c], n⟩).chunks = init ++ [c ++ [val]] := by
        simpa [SegmentedVec.push, hfull] using modify_concat init c (· ++ [val])
      rw [hpush, concat_iff]
      exact ⟨⟨hinit, by simp; omega⟩, by simp⟩

theorem popLoop (h : Filled n chunks) : Filled n (SegmentedVec.popLoop chunks).2 ∧
    (SegmentedVec.popLoop chunks).1 = chunks.flatten.getLast? ∧
      (SegmentedVec.popLoop chunks).2.flatten = chunks.flatten.dropLast := by
  fun_induction SegmentedVec.popLoop chunks with
  | case1 chunks hlast =>
    rw [List.getLast?_eq_none_iff.mp hlast]
    exact ⟨⟨.nil, by simp⟩, rfl, rfl⟩
  | case2 chunks chunk hlast a ha =>
    obtain ⟨init, rfl⟩ := List.getLast?_eq_some_iff.mp hlast
    obtain ⟨c, rfl⟩ := List.getLast?_eq_some_iff.mp ha
    obtain ⟨hinit, hc⟩ := concat_iff.mp h
    have hmod : (init ++ [c ++ [a]]).modify ((init ++ [c ++ [a]]).length - 1) List.dropLast =
        init ++ [c] := by simpa using modify_concat init (c ++ [a]) List.dropLast
    rw [hmod, concat_iff]
    simp at hc
    exact ⟨⟨hinit, by omega⟩, by simp, by simp [← List.append_assoc]⟩
  | case3 chunks chunk hlast ha ih =>
    obtain ⟨init, rfl⟩ := List.getLast?_eq_some_iff.mp hlast
    obtain rfl := List.getLast?_eq_none_iff.mp ha
    rw [List.dropLast_concat] at ih ⊢
    simpa using ih ⟨(List.pairwise_append.mp h.full).1, fun d hd => h.le d (by simp [hd])⟩

theorem retain {v : SegmentedVec α} (h : Filled v.chunkSize v.chunks) {f : α → Bool}
    (hf : v.Whole (.retain f)) : Filled v.chunkSize (v.retain f).chunks ∧
      (v.retain f).chunks.flatten = v.chunks.flatten.filter f := by
  have hchunks : (v.retain f).chunks = v.chunks.filterMap
      (kept? fun c => (!(c.filter f).isEmpty, c.filter f)) := retainMut_eq _ _
  have hkept : ∀ {c c' : List α}, kept? (fun c => (!(c.filter f).isEmpty, c.filter f)) c = some c' →
      c' = c.filter f ∧ ∃ a ∈ c, f a = true := by
    intro c c' hc
    unfold kept? at hc
    split at hc
    · next hne =>
      refine ⟨(Option.some.inj hc).symm, ?_⟩
      obtain ⟨a, ha⟩ := List.exists_mem_of_ne_nil (c.filter f) (by simpa using hne)
      exact ⟨a, List.mem_filter.mp ha⟩
    · cases hc
  rw [hchunks]
  refine ⟨⟨List.pairwise_filterMap.mpr ((h.full.and hf).imp fun {c d} hcd c' hc d' hd => ?_),
    fun c' hc' => ?_⟩, ?_⟩
  · obtain ⟨rfl, a, ha, hfa⟩ := hkept hc
    rcases hcd.2 (hkept hd).2 with hall | hnone
    · rw [List.filter_eq_self.mpr hall]
      exact hcd.1
    · rw [hnone a ha] at hfa
      cases hfa
  · obtain ⟨c, hc, hc'⟩ := List.mem_filterMap.mp hc'
    exact (hkept hc').1 ▸ (List.length_filter_le f c).trans (h.le c hc)
  · clear hf h hchunks
    induction v.chunks with
    | nil => rfl
    | cons c cs ih =>
      rw [List.filterMap_cons, List.flatten_cons, List.filter_append, ← ih]
      by_cases hc : c.filter f = [] <;> simp [kept?, hc]

end Filled

theorem Iter.next_eq (chunks : List (List α)) (current : List α) :
    (next chunks current).map (fun x => (x.1, x.2.current ++ x.2.chunks.flatten)) =
      match current ++ chunks.flatten with
      | a :: rest => some (a, rest)
      | [] => none := by
  fun_induction next chunks current with
  | case1 => rfl
  | case2 chunk chunks ih => exact ih
  | case3 => rfl

theorem Iter.nth_eq (i : ℕ) (it : Iter α) :
    Iter.nth i it = (it.current ++ it.chunks.flatten)[i]? := by
  induction i generalizing it with
  | zero | succ i ih =>
    have hnext := next_eq it.chunks it.current
    rw [Iter.nth]
    cases hl : it.current ++ it.chunks.flatten <;> rw [hl] at hnext <;>
      cases hx : next it.chunks it.current <;> rw [hx] at hnext <;> simp_all

structure Represents (n : ℕ) (v : SegmentedVec α) (l : List α) : Prop where
  size : v.chunkSize = n
  filled : Filled n v.chunks
  elements : v.chunks.flatten = l

theorem Represents.agrees {n : ℕ} (hn : 1 ≤ n) {v : SegmentedVec α} {l : List α}
    (h : Represents n v l) : Agrees v l := by
  obtain ⟨chunks, m⟩ := v
  obtain ⟨rfl, hfilled, rfl⟩ := h
  refine ⟨hfilled.len_eq, fun idx => ?_, fun i => Iter.nth_eq i _⟩
  rw [← hfilled.getElem? hn]
  unfold get
  cases chunks[idx / m]? <;> rfl

theorem Represents.step {n : ℕ} (hn : 1 ≤ n) {v : SegmentedVec α} {l : List α} {op : Op α}
    (h : Represents n v l) (hop : v.Whole op) :
    Option.Rel (fun x y => y.1 = x.1 ∧ Represents n x.2 y.2) (machine.step v op)
      (listMachine.step l op) := by
  obtain ⟨chunks, m⟩ := v
  obtain ⟨rfl, hfilled, rfl⟩ := h
  cases op with
  | push val =>
    obtain ⟨hpush, helems⟩ := hfilled.push hn val
    exact .some ⟨rfl, rfl, hpush, helems⟩
  | pop =>
    obtain ⟨hpop, hlast, helems⟩ := hfilled.popLoop
    exact .some ⟨hlast.symm, rfl, hpop, helems⟩
  | retain f =>
    obtain ⟨hretain, helems⟩ := Filled.retain hfilled hop
    exact .some ⟨rfl, rfl, hretain, helems⟩
  | clear => exact .some ⟨rfl, rfl, ⟨.nil, by simp [clear]⟩, rfl⟩
  | getMut idx f =>
    obtain ⟨hmod, helems⟩ := hfilled.modify hn idx f
    have hget := hfilled.getElem? hn idx
    have hpast : chunks.flatten[idx]? = none → chunks.flatten.modify idx f = chunks.flatten :=
      fun hnone => List.modify_eq_self (List.getElem?_eq_none_iff.mp hnone)
    cases ha : chunks[idx / m]?.bind fun b => b[idx % m]? with
    | none =>
      have hstep : machine.step ⟨chunks, m⟩ (.getMut idx f) = some (none, ⟨chunks, m⟩) := by
        cases hc : chunks[idx / m]? <;> simp_all [machine, getMut]
      rw [hstep]
      exact .some ⟨hget ▸ ha, rfl, hfilled, (hpast (hget ▸ ha)).symm⟩
    | some a =>
      obtain ⟨chunk, hc, ha'⟩ := Option.bind_eq_some_iff.mp ha
      simp only [machine, getMut, hc, ha']
      exact .some ⟨hget ▸ ha, rfl, hmod, helems⟩

end SegmentedVec

end Starlight
