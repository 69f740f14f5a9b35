import Starlight.Interpreter.Activation

/-!
# Activations are balanced

Whatever the program does, an activation that ends with a value or an exception leaves the frames as they
were when it started. The invariant of its loop is `Within`: the frames above those at the start are the
one that `eval_internal` pushed, marked `exit_on_return`, and others that are not.

The cursor is not the one at the start: `pop_frame` sets it to the operands' end of the frame below, and
the instruction that made the call may have popped operands of that frame since it last set the cursor.
-/

namespace Starlight.Interpreter

variable {V : Type}

/-! ### The frames of one activation -/

/-- The frames above `below` are those of one activation. -/
def Within (below : List CallFrame) (s : Stack V) : Prop :=
  ∃ gs e, s.frames = gs ++ e :: below ∧ (∀ g ∈ gs, g.exitOnReturn = false) ∧ e.exitOnReturn = true

/-- What an activation leaves that started with the frames `below`. -/
def Ends (below : List CallFrame) (r : Outcome) (t : Stack V) : Prop :=
  match r with
  | .suspended => ∃ e, t.frames = e :: below ∧ e.exitOnReturn = true
  | _ => t.frames = below ∧ t.cursor = Stack.topSp below

/-- The current frame is replaced by one of the same kind, and the others stay. -/
def SameTop (s s' : Stack V) : Prop :=
  ∀ f rest, s.frames = f :: rest →
    ∃ f', s'.frames = f' :: rest ∧ f'.exitOnReturn = f.exitOnReturn

theorem Within.congr {below : List CallFrame} {s s' : Stack V} (h : Within below s)
    (hfr : s'.frames = s.frames) : Within below s' := by
  obtain ⟨gs, e, hs, hgs, he⟩ := h
  exact ⟨gs, e, hfr.trans hs, hgs, he⟩

theorem Within.sameTop {below : List CallFrame} {s s' : Stack V} (h : Within below s)
    (ht : SameTop s s') : Within below s' := by
  obtain ⟨gs, e, hs, hgs, he⟩ := h
  cases gs with
  | nil =>
    obtain ⟨e', hs', he'⟩ := ht e below hs
    exact ⟨[], e', hs', List.forall_mem_nil _, he'.trans he⟩
  | cons g gs =>
    obtain ⟨g', hs', hg'⟩ := ht g _ hs
    obtain ⟨hg, hgs⟩ := List.forall_mem_cons.mp hgs
    exact ⟨g' :: gs, e, hs', List.forall_mem_cons.mpr ⟨hg'.trans hg, hgs⟩, he⟩

theorem within_push {below : List CallFrame} {s : Stack V} {f : CallFrame}
    (hs : s.frames = f :: below) (hf : f.exitOnReturn = true) : Within below s :=
  ⟨[], f, hs, List.forall_mem_nil _, hf⟩

/-! ### One step -/

theorem sameTop_push {s s' : Stack V} {v : V} (h : s.push v = some s') : SameTop s s' := by
  intro f rest hs
  rw [Stack.push, hs] at h
  cases h
  exact ⟨_, rfl, rfl⟩

theorem Instr.sameTop {i : Instr V} {s s' : Stack V} (h : i.step s = some s') : SameTop s s' := by
  cases i with
  | push v => exact sameTop_push h
  | sync =>
    intro f rest hs
    rw [Instr.step, Stack.sync, hs] at h
    cases h
    exact ⟨f, rfl, rfl⟩
  | pop =>
    intro f rest hs
    rw [Instr.step, Stack.pop, hs] at h
    obtain ⟨-, h⟩ := Option.ite_none_right_eq_some.mp h
    cases h
    exact ⟨_, rfl, rfl⟩
  | pushCatch =>
    intro f rest hs
    rw [Instr.step, Stack.pushCatch, hs] at h
    cases h
    exact ⟨_, rfl, rfl⟩
  | popCatch =>
    intro f rest hs
    rw [Instr.step, Stack.popCatch, hs] at h
    dsimp only at h
    split at h
    · cases h
    · cases h
      exact ⟨_, rfl, rfl⟩

theorem sameTop_handle {s s' : Stack V} {e : V} (h : s.handle e = some s') : SameTop s s' := by
  intro f rest hs
  rw [Stack.handle, hs] at h
  dsimp only at h
  split at h
  · cases h
  · obtain ⟨f', hs', hf'⟩ := sameTop_push h _ _ rfl
    exact ⟨f', hs', hf'⟩

theorem sameTop_restore {vs : List V} {handlers : List ℕ} {s s' : Stack V}
    (h : s.restore vs handlers = some s') : SameTop s s' := by
  induction vs generalizing s with
  | nil =>
    intro f rest hs
    rw [Stack.restore, hs] at h
    cases h
    exact ⟨_, rfl, rfl⟩
  | cons v vs ih =>
    intro f rest hs
    obtain ⟨s₁, hpush, hrest⟩ := Option.bind_eq_some_iff.mp h
    obtain ⟨f₁, hs₁, hf₁⟩ := sameTop_push hpush f rest hs
    obtain ⟨f₂, hs₂, hf₂⟩ := ih hrest f₁ rest hs₁
    exact ⟨f₂, hs₂, hf₂.trans hf₁⟩

theorem newFrame_cases {s s' : Stack V} (h : s.newFrame 0 = some s') :
    s'.frames = { sp := s.cursor, limit := s.cursor } :: s.frames := by
  obtain ⟨-, h⟩ := Option.ite_none_left_eq_some.mp h
  cases h
  rfl

theorem Within.callVm {below : List CallFrame} {s : Stack V} (h : Within below s) (tail : Bool) :
    Within below (s.callVm tail).2 := by
  obtain ⟨gs, e, hs, hgs, he⟩ := h
  have hdropped : ∃ f rest, s.frames = f :: rest ∧ (f.exitOnReturn = false → Within below
      { s with frames := rest, cursor := Stack.topSp rest }) := by
    cases gs with
    | nil => exact ⟨e, below, hs, fun hne => by rw [he] at hne; cases hne⟩
    | cons g gs =>
      exact ⟨g, gs ++ e :: below, hs,
        fun _ => ⟨gs, e, rfl, (List.forall_mem_cons.mp hgs).2, he⟩⟩
  obtain ⟨f, rest, hfr, hrest⟩ := hdropped
  rw [Stack.callVm, hfr]
  dsimp only
  -- The stack from which the new frame is pushed.
  have hbase : Within below (if !f.exitOnReturn && tail then
      { s with frames := rest, cursor := Stack.topSp rest } else s) := by
    split
    · next hcond =>
      rw [Bool.and_eq_true, Bool.not_eq_true'] at hcond
      exact hrest hcond.1
    · exact ⟨gs, e, hs, hgs, he⟩
  generalize (if !f.exitOnReturn && tail then
      { s with frames := rest, cursor := Stack.topSp rest } else s) = base at hbase ⊢
  split
  · exact hbase
  · next s' hnew =>
    obtain ⟨gs', e', hs', hgs', he'⟩ := hbase
    have hframes := newFrame_cases hnew
    refine ⟨{ sp := s'.cursor, limit := s'.cursor, exitOnReturn := false } :: gs', e', ?_,
      List.forall_mem_cons.mpr ⟨rfl, hgs'⟩, he'⟩
    dsimp only
    rw [hframes, List.tail_cons, hs', List.cons_append]

theorem Within.ret {below : List CallFrame} {s s' : Stack V} (h : Within below s) {v : V}
    {exits : Bool} (hr : s.ret v = some (exits, s')) :
    if exits then s'.frames = below ∧ s'.cursor = Stack.topSp below else Within below s' := by
  obtain ⟨gs, e, hs, hgs, he⟩ := h
  cases gs with
  | nil =>
    rw [List.nil_append] at hs
    simp only [Stack.ret, Stack.popFrame, hs, he, Bool.true_or, if_true, Option.bind_some] at hr
    cases hr
    exact ⟨rfl, rfl⟩
  | cons g gs =>
    have hg : g.exitOnReturn = false := hgs g List.mem_cons_self
    have hne : (gs ++ e :: below).isEmpty = false := by cases gs <;> rfl
    rw [List.cons_append] at hs
    simp only [Stack.ret, Stack.popFrame, hs, hg, hne, Bool.or_false, Option.bind_some] at hr
    obtain ⟨s₁, hpush, heq⟩ := Option.map_eq_some_iff.mp hr
    cases heq
    refine Within.sameTop ?_ (sameTop_push hpush)
    exact ⟨gs, e, rfl, (List.forall_mem_cons.mp hgs).2, he⟩

theorem Within.unwind {below : List CallFrame} {s : Stack V} (h : Within below s) :
    if s.unwind.1 then Within below s.unwind.2
    else s.unwind.2.frames = below ∧ s.unwind.2.cursor = Stack.topSp below := by
  obtain ⟨gs, e, hs, hgs, he⟩ := h
  rw [Stack.unwind, hs]
  induction gs generalizing s with
  | nil =>
    rw [List.nil_append, Stack.unwindFrom]
    split
    · exact within_push hs he
    · exact ⟨rfl, rfl⟩
  | cons g gs ih =>
    rw [List.cons_append, Stack.unwindFrom]
    split
    · exact ⟨g :: gs, e, hs, hgs, he⟩
    · rw [hgs g List.mem_cons_self]
      exact ih rfl (List.forall_mem_cons.mp hgs).2

/-! ### Whole runs -/

theorem Run.ends {below : List CallFrame} {s t : Stack V} {r : Outcome} (h : Run s r t)
    (hw : Within below s) : Ends below r t := by
  induction h generalizing below with
  | instr i hstep _ ih => exact ih (hw.sameTop (Instr.sameTop hstep))
  | call tail hcall _ ih =>
    have h' := hw.callVm tail
    rw [hcall] at h'
    exact ih h'
  | ret v hret _ ih => exact ih (hw.ret hret)
  | exit v hret => exact hw.ret hret
  | suspend hfr hexit =>
    obtain ⟨gs, e, hs, hgs, he⟩ := hw
    cases gs with
    | nil => exact ⟨e, hs, he⟩
    | cons g gs =>
      rw [hfr] at hs
      cases hs
      rw [hgs _ List.mem_cons_self] at hexit
      cases hexit
  | caught e hunw hhandle _ ih =>
    have h' := hw.unwind
    rw [hunw] at h'
    exact ih (Within.sameTop h' (sameTop_handle hhandle))
  | uncaught hunw =>
    have h' := hw.unwind
    rw [hunw] at h'
    exact h'
  | overflowCaught tail e hcall hunw hhandle _ ih =>
    have h₀ := hw.callVm tail
    rw [hcall] at h₀
    have h' := Within.unwind h₀
    rw [hunw] at h'
    exact ih (Within.sameTop h' (sameTop_handle hhandle))
  | overflowUncaught tail hcall hunw =>
    have h₀ := hw.callVm tail
    rw [hcall] at h₀
    have h' := Within.unwind h₀
    rw [hunw] at h'
    exact h'
  | @native s s₁ s₂ s₃ s₄ t r r' operands handlers hnew hrestore _ hresume _ ih₁ ih₂ =>
    have hinner : Ends s.frames r' s₃ :=
      ih₁ ((within_push (newFrame_cases hnew) rfl).sameTop (sameTop_restore hrestore))
    have hframes : s₄.frames = s.frames := by
      cases r' with
      | value | error =>
        cases hresume
        exact hinner.1
      | suspended =>
        obtain ⟨e, hs₃, -⟩ := hinner
        rw [Outcome.resume, Stack.popFrame, hs₃] at hresume
        cases hresume
        rfl
    exact ih₂ (hw.congr hframes)

/-- What `unwind` pops: frames without a handler, the last of them being the first that was entered from
native code, if it finds no handler before. -/
theorem unwindFrom_spec (frames : List CallFrame) (s : Stack V) (hs : s.frames = frames) :
    ((Stack.unwindFrom frames s).1 = true → ∃ popped f rest, frames = popped ++ f :: rest ∧
        (Stack.unwindFrom frames s).2.frames = f :: rest ∧ f.tryStack ≠ [] ∧
        ∀ g ∈ popped, g.tryStack = [] ∧ g.exitOnReturn = false) ∧
      ((Stack.unwindFrom frames s).1 = false → ∃ popped rest, frames = popped ++ rest ∧
        (Stack.unwindFrom frames s).2.frames = rest ∧ (∀ g ∈ popped, g.tryStack = []) ∧
        (∀ g ∈ popped.dropLast, g.exitOnReturn = false) ∧
        (rest = [] ∨ ∃ e ∈ popped.getLast?, e.exitOnReturn = true)) := by
  induction frames generalizing s with
  | nil =>
    exact ⟨(fun h => by cases h),
      fun _ => ⟨[], [], rfl, hs, List.forall_mem_nil _, List.forall_mem_nil _, .inl rfl⟩⟩
  | cons f rest ih =>
    rw [Stack.unwindFrom]
    by_cases hf : f.tryStack = []
    · rw [if_neg (not_not_intro hf)]
      by_cases hexit : f.exitOnReturn = true
      · rw [if_pos hexit]
        refine ⟨(fun h => by cases h), fun _ => ⟨[f], rest, rfl, rfl, ?_, ?_, .inr ⟨f, rfl, hexit⟩⟩⟩
        · exact List.forall_mem_singleton.mpr hf
        · exact List.forall_mem_nil _
      · rw [if_neg hexit]
        have hnot : f.exitOnReturn = false := Bool.eq_false_iff.mpr hexit
        obtain ⟨hfound, hlost⟩ := ih { s with frames := rest, cursor := Stack.topSp rest } rfl
        refine ⟨fun h => ?_, fun h => ?_⟩
        · obtain ⟨popped, k, rest', heq, hfr, hk, hpopped⟩ := hfound h
          exact ⟨f :: popped, k, rest', by rw [heq]; rfl, hfr, hk,
            List.forall_mem_cons.mpr ⟨⟨hf, hnot⟩, hpopped⟩⟩
        · obtain ⟨popped, rest', heq, hfr, htry, hdrop, hlast⟩ := hlost h
          refine ⟨f :: popped, rest', by rw [heq]; rfl, hfr,
            List.forall_mem_cons.mpr ⟨hf, htry⟩, ?_, ?_⟩
          · cases popped with
            | nil => exact List.forall_mem_nil _
            | cons k popped =>
              rw [List.dropLast_cons_cons]
              exact List.forall_mem_cons.mpr ⟨hnot, hdrop⟩
          · rcases hlast with hnil | ⟨e, he, hexit'⟩
            · exact .inl hnil
            · refine .inr ⟨e, ?_, hexit'⟩
              cases popped with
              | nil => cases he
              | cons k popped => rwa [List.getLast?_cons_cons]
    · rw [if_pos hf]
      exact ⟨fun _ => ⟨[], f, rest, rfl, hs, hf, List.forall_mem_nil _⟩,
        fun h => by cases h⟩

/-- **Activations are balanced.** However an activation ends, except at a yield, the frames are those at
its start, and the cursor is where the operands of the current frame end, unless the activation's own
frame did not fit. At a yield exactly its own frame is left. `unwind` stops at the innermost frame with a
handler and pops no frame below one that was entered from native code. -/
theorem activation_balanced (s : Stack V) :
    (∀ r t, EvalInternal s r t →
        (r = .suspended → ∃ f, t.frames = f :: s.frames ∧ f.exitOnReturn = true) ∧
        (r ≠ .suspended → t.frames = s.frames ∧
          (t.cursor = Stack.topSp s.frames ∨ s.newFrame 0 = none ∧ t.cursor = s.cursor))) ∧
      (s.unwind.1 = true → ∃ popped f rest, s.frames = popped ++ f :: rest ∧
        s.unwind.2.frames = f :: rest ∧ f.tryStack ≠ [] ∧
        ∀ g ∈ popped, g.tryStack = [] ∧ g.exitOnReturn = false) ∧
      (s.unwind.1 = false → ∃ popped rest, s.frames = popped ++ rest ∧
        s.unwind.2.frames = rest ∧ (∀ g ∈ popped, g.tryStack = []) ∧
        (∀ g ∈ popped.dropLast, g.exitOnReturn = false) ∧
        (rest = [] ∨ ∃ e ∈ popped.getLast?, e.exitOnReturn = true)) := by
  refine ⟨fun r t h => ?_, unwindFrom_spec s.frames s rfl⟩
  unfold EvalInternal at h
  cases hnew : s.newFrame 0 with
  | none =>
    rw [hnew] at h
    obtain ⟨rfl, rfl⟩ := h
    exact ⟨(fun hr => by cases hr), fun _ => ⟨rfl, .inr ⟨rfl, rfl⟩⟩⟩
  | some s₁ =>
    rw [hnew] at h
    have hends : Ends s.frames r t := h.ends (within_push (newFrame_cases hnew) rfl)
    cases r with
    | suspended => exact ⟨fun _ => hends, fun hne => absurd rfl hne⟩
    | value => exact ⟨(fun hr => by cases hr), fun _ => ⟨hends.1, .inl hends.2⟩⟩
    | error => exact ⟨(fun hr => by cases hr), fun _ => ⟨hends.1, .inl hends.2⟩⟩

/-- `OP_NEW` of a native function with one argument: the cursor is above the argument while a callback of
the function runs, and below it when the callback has returned. -/
theorem not_activation_balanced :
    ¬ ∀ (op : CallOp) (s s₀ t : Stack ℕ) (r : Outcome) (argc : ℕ), s.cursor = Stack.topSp s.frames →
        op.setup argc s = some s₀ → EvalInternal s₀ r t →
        t.frames = s₀.frames ∧ t.cursor = s₀.cursor := by
  intro h
  have hcur := (h .new oneArgument _ _ .value 1 rfl rfl (Run.exit 7 rfl)).2
  exact absurd hcur (by decide)

end Starlight.Interpreter
