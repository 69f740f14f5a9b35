import Starlight.Vm.Split

/-!
# The steps of a searcher

`RegexSearcher` turns the matches that an iterator delivers into steps that cover the haystack: a match
is a step, and so is a stretch between two matches. A match behind a stretch waits in `next_match` for
the call after the one that rejects the stretch.
-/

namespace Starlight

def SearchStep.match? : SearchStep → Option (ℕ × ℕ)
  | .isMatch a b => some (a, b)
  | _ => none

def SearchStep.reject? : SearchStep → Option (ℕ × ℕ)
  | .reject a b => some (a, b)
  | _ => none

def Match.range (m : Match) : ℕ × ℕ := (m.start, m.end_)

namespace RegexSearcher

def intoSearcher (haystack : List Char) (it : List Match) : RegexSearcher := ⟨haystack, it, 0, none⟩

def call : ℕ → RegexSearcher → SearchStep
  | 0, self => self.next.1
  | i + 1, self => call i self.next.2

/-- The matches are ordered and do not overlap, and they end within a haystack of length `n`. -/
def Delivered (n : ℕ) (ms : List Match) : Prop :=
  (∀ m ∈ ms, m.start ≤ m.end_ ∧ m.end_ ≤ n) ∧ ms.Pairwise fun m m' => m.end_ ≤ m'.start

/-- The steps follow one another from `a` to `b`, and none of them is `Done`. -/
def Contiguous : ℕ → List SearchStep → ℕ → Prop
  | a, [], b => a = b
  | a, .isMatch s e :: steps, b => s = a ∧ s ≤ e ∧ Contiguous e steps b
  | a, .reject s e :: steps, b => s = a ∧ s < e ∧ Contiguous e steps b
  | _, .done :: _, _ => False

def gaps (a n : ℕ) (ms : List Match) : List (ℕ × ℕ) :=
  ((a :: ms.map Match.end_).zip (ms.map Match.start ++ [n])).filter fun g => g.1 < g.2

def stepsFrom (n : ℕ) : ℕ → List Match → List SearchStep
  | last, [] => if last < n then [.reject last n] else []
  | last, m :: ms =>
    if m.start = last then .isMatch m.start m.end_ :: stepsFrom n m.end_ ms
    else .reject last m.start :: .isMatch m.start m.end_ :: stepsFrom n m.end_ ms

def rest (self : RegexSearcher) : List SearchStep :=
  match self.nextMatch with
  | some (s, e) => .isMatch s e :: stepsFrom (utf8Length self.haystack) e self.it
  | none => stepsFrom (utf8Length self.haystack) self.lastStepEnd self.it

/-- A call gives the first of the steps to come and leaves the others. -/
theorem next_eq (self : RegexSearcher) :
    self.next.1 = self.rest.head?.getD .done ∧ self.next.2.rest = self.rest.tail := by
  obtain ⟨haystack, it, last, nextMatch⟩ := self
  cases nextMatch with
  | some m => exact ⟨rfl, rfl⟩
  | none =>
    cases it with
    | nil =>
      by_cases hlast : last < utf8Length haystack
      · simp [next, rest, stepsFrom, hlast]
      · simp [next, rest, stepsFrom, hlast]
    | cons m it =>
      by_cases hs : m.start = last
      · simp [next, rest, stepsFrom, hs]
      · simp [next, rest, stepsFrom, hs]

theorem call_eq (i : ℕ) (self : RegexSearcher) : call i self = self.rest[i]?.getD .done := by
  induction i generalizing self with
  | zero => rw [call, (next_eq self).1, List.head?_eq_getElem?]
  | succ i ih => rw [call, ih, (next_eq self).2, List.getElem?_tail]

theorem Contiguous.done_notMem {a b : ℕ} {l : List SearchStep} (h : Contiguous a l b) :
    SearchStep.done ∉ l := by
  induction l generalizing a with
  | nil => exact List.not_mem_nil
  | cons step l ih =>
    cases step with
    | isMatch s e | reject s e => simpa using ih h.2.2
    | done => exact h.elim

theorem stepsFrom_spec {n last : ℕ} {ms : List Match} (h : Delivered n ms) (hlast : last ≤ n)
    (hfirst : ∀ m ∈ ms, last ≤ m.start) :
    Contiguous last (stepsFrom n last ms) n ∧
      (stepsFrom n last ms).filterMap SearchStep.match? = ms.map Match.range ∧
      (stepsFrom n last ms).filterMap SearchStep.reject? = gaps last n ms := by
  induction ms generalizing last with
  | nil =>
    by_cases hlt : last < n
    · simp [stepsFrom, gaps, Contiguous, SearchStep.match?, SearchStep.reject?, hlt]
    · obtain rfl : last = n := by omega
      simp [stepsFrom, gaps, Contiguous]
  | cons m ms ih =>
    obtain ⟨hbounds, hpair⟩ := h
    obtain ⟨hse, hen⟩ := hbounds m List.mem_cons_self
    obtain ⟨hcont, hmatch, hreject⟩ :=
      ih ⟨fun m hm => hbounds m (List.mem_cons_of_mem _ hm), hpair.of_cons⟩ hen
        fun m hm => List.rel_of_pairwise_cons hpair hm
    by_cases hs : m.start = last
    · have hgaps : gaps last n (m :: ms) = gaps m.end_ n ms := by simp [gaps, hs]
      rw [hgaps, stepsFrom, if_pos hs]
      exact ⟨⟨hs, hse, hcont⟩, congrArg (m.range :: ·) hmatch, hreject⟩
    · have hlt : last < m.start := lt_of_le_of_ne (hfirst m List.mem_cons_self) (Ne.symm hs)
      have hgaps : gaps last n (m :: ms) = (last, m.start) :: gaps m.end_ n ms := by
        simp [gaps, hlt]
      rw [hgaps, stepsFrom, if_neg hs]
      exact ⟨⟨rfl, hlt, rfl, hse, hcont⟩, congrArg (m.range :: ·) hmatch,
        congrArg ((last, m.start) :: ·) hreject⟩

/-- **The searcher partitions the haystack.** For matches that are ordered and do not overlap the calls
answer a list of steps and then `Done` for ever. The steps follow one another from 0 to the length of the
haystack; the matches among them are those delivered, and the rejected stretches are the gaps between
these. -/
theorem searcher_partitions {haystack : List Char} {ms : List Match}
    (h : Delivered (utf8Length haystack) ms) :
    ∃ l : List SearchStep,
      (∀ i, call i (intoSearcher haystack ms) = l[i]?.getD .done) ∧
      Contiguous 0 l (utf8Length haystack) ∧
      l.filterMap SearchStep.match? = ms.map Match.range ∧
      l.filterMap SearchStep.reject? = gaps 0 (utf8Length haystack) ms ∧
      ∀ i j, call i (intoSearcher haystack ms) = .done → i ≤ j →
        call j (intoSearcher haystack ms) = .done := by
  obtain ⟨hcont, hmatch, hreject⟩ := stepsFrom_spec h (Nat.zero_le _) fun m _ => Nat.zero_le m.start
  have hcall : ∀ i, call i (intoSearcher haystack ms) =
      (stepsFrom (utf8Length haystack) 0 ms)[i]?.getD .done := fun i => call_eq i _
  refine ⟨_, hcall, hcont, hmatch, hreject, fun i j hi hij => ?_⟩
  rw [hcall] at hi ⊢
  -- no step is `Done`, so the call that answers it is past the last step
  have hpast : (stepsFrom (utf8Length haystack) 0 ms).length ≤ i := by
    by_contra hlt
    rw [List.getElem?_eq_getElem (not_le.mp hlt)] at hi
    exact hcont.done_notMem (hi ▸ List.getElem_mem (not_le.mp hlt))
  rw [List.getElem?_eq_none (hpast.trans hij)]
  rfl

theorem searcher_partitions_two : ∃ l : List SearchStep,
    (∀ i, call i (intoSearcher ['a', 'b'] [⟨0, 0, []⟩, ⟨1, 2, []⟩]) = l[i]?.getD .done) ∧
      Contiguous 0 l 2 ∧ l.filterMap SearchStep.match? = [(0, 0), (1, 2)] ∧
        l.filterMap SearchStep.reject? = [(0, 1)] := by
  have h : Delivered (utf8Length ['a', 'b']) [⟨0, 0, []⟩, ⟨1, 2, []⟩] := ⟨by decide, by decide⟩
  obtain ⟨l, hcall, hcont, hmatch, hreject, _⟩ := searcher_partitions h
  exact ⟨l, hcall, hcont, hmatch, hreject⟩

end RegexSearcher

end Starlight
