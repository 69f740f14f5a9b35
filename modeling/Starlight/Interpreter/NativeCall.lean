import Mathlib.Data.Nat.Basic
import Starlight.Interpreter.Stack

/-!
# Arguments of native functions

The arguments of a native function stay on the stack of its caller, and the function may run code before
it reads them. `OP_CALL` moves the cursor below them, so that the code it runs pushes its operands over the
function, the receiver and then the arguments. `OP_NEW` leaves the cursor above them, but the first
activation that ends moves it down.
-/

namespace Starlight.Interpreter

variable {V W : Type}

/-! ### Moves without their operands -/

/-- The stack without its contents. -/
def Stack.shape (s : Stack V) : Stack Unit := { s with mem := fun _ => () }

/-- The move without its operand. -/
def Move.shape : Move V → Move Unit
  | enter => enter
  | leave => leave
  | sync => sync
  | push _ => push ()
  | pop => pop

theorem Move.shape_step (depth : ℕ) (m : Move V) (s : Stack V) :
    m.shape.step depth s.shape = (m.step depth s).map Stack.shape := by
  obtain ⟨mem, cursor, stop, frames⟩ := s
  cases m with
  | enter =>
    unfold Move.shape step Stack.newFrame Stack.shape
    dsimp only
    split <;> rfl
  | leave =>
    unfold Move.shape step Stack.popFrame Stack.shape
    dsimp only
    split
    · cases frames <;> rfl
    · rfl
  | sync =>
    unfold Move.shape step Stack.sync Stack.shape
    dsimp only
    split
    · cases frames <;> rfl
    · rfl
  | push v =>
    unfold Move.shape step Stack.push Stack.shape
    dsimp only
    split
    · cases frames <;> rfl
    · rfl
  | pop =>
    unfold Move.shape step Stack.pop Stack.shape
    dsimp only
    split
    · cases frames with
      | nil => rfl
      | cons f rest =>
        dsimp only
        split <;> rfl
    · rfl

theorem shape_run (depth : ℕ) (ms : List (Move V)) (s : Stack V) :
    run depth (ms.map Move.shape) s.shape = (run depth ms s).map Stack.shape := by
  induction ms generalizing s with
  | nil => rfl
  | cons m ms ih =>
    rw [List.map_cons, run, run, Move.shape_step]
    cases m.step depth s with
    | none => rfl
    | some s' => exact ih s'

/-! ### Where operands are pushed -/

def PushesBelow (bound depth : ℕ) : List (Move V) → Stack V → Prop
  | [], _ => True
  | m :: ms, s => (∀ v, m = .push v → ∀ f ∈ s.frames.head?, f.sp < bound) ∧
      ∀ s', m.step depth s = some s' → PushesBelow bound depth ms s'

theorem pushesBelow_shape (bound depth : ℕ) (ms : List (Move V)) (s : Stack V) :
    PushesBelow bound depth (ms.map Move.shape) s.shape ↔ PushesBelow bound depth ms s := by
  induction ms generalizing s with
  | nil => exact Iff.rfl
  | cons m ms ih =>
    refine and_congr ⟨fun h v hm => ?_, fun h v hm => ?_⟩ ?_
    · exact h () (by rw [hm]; rfl)
    · cases m <;> cases hm
      exact h _ rfl
    · rw [Move.shape_step]
      cases m.step depth s with
      | none =>
        refine ⟨fun _ s' hs => ?_, fun _ s' hs => ?_⟩
        · cases hs
        · cases hs
      | some s' =>
        refine ⟨fun h s'' hs => ?_, fun h s'' hs => ?_⟩
        · obtain rfl := Option.some_inj.mp hs
          exact (ih s').mp (h _ rfl)
        · obtain rfl := Option.some_inj.mp hs
          exact (ih s').mpr (h s' rfl)

/-! ### What a move does above a caller -/

theorem Move.step_cases {ns older : List CallFrame} {c : CallFrame} {s s' : Stack V} {m : Move V}
    (h : s.frames = ns ++ c :: older) (hs : m.step (older.length + 1) s = some s') :
    (m = .enter ∧ s'.frames = { sp := s.cursor, limit := s.cursor } :: ns ++ c :: older ∧ s'.mem = s.mem ∧
        s'.cursor = s.cursor) ∨
      ∃ f rest, ns = f :: rest ∧
        ((m = .leave ∧ s'.frames = rest ++ c :: older ∧ s'.mem = s.mem ∧
            s'.cursor = (rest.headD c).sp) ∨
          (m = .sync ∧ s'.frames = ns ++ c :: older ∧ s'.mem = s.mem ∧ s'.cursor = f.sp) ∨
          (∃ v, m = .push v ∧ s'.frames = { f with sp := f.sp + 1 } :: rest ++ c :: older ∧
            s'.mem = Function.update s.mem f.sp v ∧ s'.cursor = s.cursor) ∨
          (m = .pop ∧ f.limit < f.sp ∧
            s'.frames = { f with sp := f.sp - 1 } :: rest ++ c :: older ∧
            s'.mem = s.mem ∧ s'.cursor = s.cursor)) := by
  obtain ⟨mem, cursor, stop, frames⟩ := s
  dsimp only at h
  subst h
  have hdepth : older.length + 1 < (ns ++ c :: older).length → ∃ f rest, ns = f :: rest := by
    intro hlt
    cases ns with
    | nil => exact absurd hlt (Nat.lt_irrefl _)
    | cons f rest => exact ⟨f, rest, rfl⟩
  cases m with
  | enter =>
    obtain ⟨-, hs⟩ := Option.ite_none_left_eq_some.mp hs
    cases hs
    exact .inl ⟨rfl, rfl, rfl, rfl⟩
  | leave =>
    obtain ⟨hlt, hs⟩ := Option.ite_none_right_eq_some.mp hs
    obtain ⟨f, rest, rfl⟩ := hdepth hlt
    refine .inr ⟨f, rest, rfl, .inl ⟨rfl, ?_⟩⟩
    cases hs
    refine ⟨rfl, rfl, ?_⟩
    cases rest <;> rfl
  | sync =>
    obtain ⟨hlt, hs⟩ := Option.ite_none_right_eq_some.mp hs
    obtain ⟨f, rest, rfl⟩ := hdepth hlt
    cases hs
    exact .inr ⟨f, rest, rfl, .inr (.inl ⟨rfl, rfl, rfl, rfl⟩)⟩
  | push v =>
    obtain ⟨hlt, hs⟩ := Option.ite_none_right_eq_some.mp hs
    obtain ⟨f, rest, rfl⟩ := hdepth hlt
    cases hs
    exact .inr ⟨f, rest, rfl, .inr (.inr (.inl ⟨v, rfl, rfl, rfl, rfl⟩))⟩
  | pop =>
    obtain ⟨hlt, hs⟩ := Option.ite_none_right_eq_some.mp hs
    obtain ⟨f, rest, rfl⟩ := hdepth hlt
    obtain ⟨hlim, hs⟩ := Option.ite_none_right_eq_some.mp hs
    cases hs
    exact .inr ⟨f, rest, rfl, .inr (.inr (.inr ⟨rfl, hlim, rfl, rfl, rfl⟩))⟩

/-! ### Code that starts below the arguments -/

/-- The frames `ns` above the caller `c` start and end at or below the first argument `bound`. -/
structure Low (bound : ℕ) (ns : List CallFrame) (c : CallFrame) (older : List CallFrame)
    (s : Stack V) : Prop where
  frames : s.frames = ns ++ c :: older
  cursor : s.cursor ≤ bound
  ends : ∀ f ∈ c :: ns, f.sp ≤ bound

theorem low_caller {bound : ℕ} {older : List CallFrame} {c : CallFrame} {s : Stack V}
    (hfr : s.frames = c :: older) (hcur : s.cursor ≤ bound) (hc : c.sp ≤ bound) :
    Low bound [] c older s :=
  ⟨hfr, hcur, List.forall_mem_singleton.mpr hc⟩

theorem Low.step {bound : ℕ} {ns older : List CallFrame} {c : CallFrame} {s s' : Stack V}
    {m : Move V} (h : Low bound ns c older s) (hs : m.step (older.length + 1) s = some s')
    (hm : ∀ v, m = .push v → ∀ f ∈ s.frames.head?, f.sp < bound) :
    (∃ ns', Low bound ns' c older s') ∧ ∀ i, bound ≤ i → s'.mem i = s.mem i := by
  obtain ⟨hc, hns⟩ := List.forall_mem_cons.mp h.ends
  rcases Move.step_cases h.frames hs with ⟨-, hfr, hmem, hcur⟩ | ⟨f, rest, rfl, hcases⟩
  · refine ⟨⟨_, hfr, hcur ▸ h.cursor, ?_⟩, fun i _ => congrFun hmem i⟩
    exact List.forall_mem_cons.mpr ⟨hc, List.forall_mem_cons.mpr ⟨h.cursor, hns⟩⟩
  · obtain ⟨hf, hrest⟩ := List.forall_mem_cons.mp hns
    -- The top frame may be replaced by one that ends at or below `bound`.
    have htop : ∀ f' : CallFrame, f'.sp ≤ bound → ∀ g ∈ c :: f' :: rest, g.sp ≤ bound :=
      fun f' hf' => List.forall_mem_cons.mpr ⟨hc, List.forall_mem_cons.mpr ⟨hf', hrest⟩⟩
    rcases hcases with ⟨-, hfr, hmem, hcur⟩ | ⟨-, hfr, hmem, hcur⟩ | ⟨v, hv, hfr, hmem, hcur⟩ |
      ⟨-, -, hfr, hmem, hcur⟩
    · refine ⟨⟨rest, hfr, ?_, List.forall_mem_cons.mpr ⟨hc, hrest⟩⟩, fun i _ => congrFun hmem i⟩
      rw [hcur]
      cases rest with
      | nil => exact hc
      | cons g rest => exact hrest g List.mem_cons_self
    · exact ⟨⟨_, hfr, hcur ▸ hf, h.ends⟩, fun i _ => congrFun hmem i⟩
    · have hlt : f.sp < bound := hm v hv f (by rw [h.frames]; rfl)
      refine ⟨⟨_, hfr, hcur ▸ h.cursor, htop _ hlt⟩, fun i hi => ?_⟩
      rw [hmem, Function.update_of_ne (Nat.ne_of_gt (Nat.lt_of_lt_of_le hlt hi))]
    · exact ⟨⟨_, hfr, hcur ▸ h.cursor, htop _ (Nat.le_trans (Nat.sub_le _ _) hf)⟩,
        fun i _ => congrFun hmem i⟩

theorem Low.run {bound : ℕ} {ns older : List CallFrame} {c : CallFrame} {s t : Stack V}
    {ms : List (Move V)} (h : Low bound ns c older s)
    (hp : PushesBelow bound (older.length + 1) ms s)
    (hr : Interpreter.run (older.length + 1) ms s = some t) :
    ∀ i, bound ≤ i → t.mem i = s.mem i := by
  induction ms generalizing ns s with
  | nil =>
    cases hr
    exact fun i _ => rfl
  | cons m ms ih =>
    obtain ⟨s', hs, hr⟩ := Option.bind_eq_some_iff.mp hr
    obtain ⟨⟨ns', h'⟩, hmem⟩ := h.step hs hp.1
    exact fun i hi => (ih h' (hp.2 s' hs) hr i hi).trans (hmem i hi)

def PushesOnly (w : V) (ms : List (Move V)) : Prop :=
  ∀ v, Move.push v ∈ ms → v = w

theorem PushesOnly.run {w : V} {ns older : List CallFrame} {c : CallFrame} {s t : Stack V}
    {ms : List (Move V)} (h : PushesOnly w ms) (hfr : s.frames = ns ++ c :: older)
    (hr : Interpreter.run (older.length + 1) ms s = some t) {a : ℕ} (ha : s.mem a = w) :
    t.mem a = w := by
  induction ms generalizing ns s with
  | nil =>
    cases hr
    exact ha
  | cons m ms ih =>
    obtain ⟨s', hs, hr'⟩ := Option.bind_eq_some_iff.mp hr
    have hms : PushesOnly w ms := fun v hv => h v (List.mem_cons_of_mem m hv)
    rcases Move.step_cases hfr hs with ⟨-, hfr', hmem, -⟩ | ⟨f, rest, rfl, hcases⟩
    · exact ih hms hfr' hr' (hmem ▸ ha)
    · rcases hcases with ⟨-, hfr', hmem, -⟩ | ⟨-, hfr', hmem, -⟩ | ⟨v, rfl, hfr', hmem, -⟩ |
        ⟨-, -, hfr', hmem, -⟩
      · exact ih hms hfr' hr' (hmem ▸ ha)
      · exact ih hms hfr' hr' (hmem ▸ ha)
      · refine ih hms hfr' hr' ?_
        rw [hmem]
        by_cases haf : a = f.sp
        · rw [haf, Function.update_self]
          exact h v List.mem_cons_self
        · rw [Function.update_of_ne haf, ha]
      · exact ih hms hfr' hr' (hmem ▸ ha)

theorem Low.overwritten {bound : ℕ} {ns older : List CallFrame} {c : CallFrame} {s t : Stack V}
    {ms : List (Move V)} {w : V} (h : Low bound ns c older s) (hw : PushesOnly w ms)
    (hp : ¬ PushesBelow bound (older.length + 1) ms s)
    (hr : Interpreter.run (older.length + 1) ms s = some t) : t.mem bound = w := by
  induction ms generalizing ns s with
  | nil => exact absurd trivial hp
  | cons m ms ih =>
    obtain ⟨s', hs, hr'⟩ := Option.bind_eq_some_iff.mp hr
    have hms : PushesOnly w ms := fun v hv => hw v (List.mem_cons_of_mem m hv)
    by_cases hm : ∀ v, m = .push v → ∀ f ∈ s.frames.head?, f.sp < bound
    · obtain ⟨⟨ns', h'⟩, -⟩ := h.step hs hm
      refine ih h' hms (fun hp' => hp ⟨hm, fun s'' hs'' => ?_⟩) hr'
      obtain rfl := Option.some_inj.mp (hs.symm.trans hs'')
      exact hp'
    · push Not at hm
      obtain ⟨v, rfl, f, hf, hle⟩ := hm
      rcases Move.step_cases h.frames hs with ⟨hne, -⟩ | ⟨g, rest, rfl, hcases⟩
      · cases hne
      · rcases hcases with ⟨hne, -⟩ | ⟨hne, -⟩ | ⟨u, hu, hfr, hmem, -⟩ | ⟨hne, -⟩
        · cases hne
        · cases hne
        · cases hu
          rw [h.frames] at hf
          cases hf
          have heq : f.sp = bound :=
            Nat.le_antisymm (h.ends f (List.mem_cons_of_mem c List.mem_cons_self))
              hle
          refine hms.run hfr hr' ?_
          rw [hmem, heq, Function.update_self]
          exact hw v List.mem_cons_self
        · cases hne

/-! ### Code that starts above the arguments -/

/-- From the first return to the caller on, every operand is stored below `bound`. -/
def ReturnsBelow (bound depth : ℕ) : List (Move V) → Stack V → Prop
  | [], _ => True
  | m :: ms, s => ∀ s', m.step depth s = some s' →
      if s'.frames.length = depth then PushesBelow bound depth ms s'
      else ReturnsBelow bound depth ms s'

theorem returnsBelow_shape (bound depth : ℕ) (ms : List (Move V)) (s : Stack V) :
    ReturnsBelow bound depth (ms.map Move.shape) s.shape ↔ ReturnsBelow bound depth ms s := by
  induction ms generalizing s with
  | nil => exact Iff.rfl
  | cons m ms ih =>
    rw [List.map_cons, ReturnsBelow, ReturnsBelow, Move.shape_step]
    cases m.step depth s with
    | none =>
      refine ⟨fun _ s' hs => ?_, fun _ s' hs => ?_⟩
      · cases hs
      · cases hs
    | some s' =>
      have hiff : (if s'.frames.length = depth then
            PushesBelow bound depth (ms.map Move.shape) s'.shape
          else ReturnsBelow bound depth (ms.map Move.shape) s'.shape) ↔
          if s'.frames.length = depth then PushesBelow bound depth ms s'
          else ReturnsBelow bound depth ms s' := by
        split
        · exact pushesBelow_shape bound depth ms s'
        · exact ih s'
      refine ⟨fun h s'' hs => ?_, fun h s'' hs => ?_⟩
      · obtain rfl := Option.some_inj.mp hs
        exact hiff.mp (h _ rfl)
      · obtain rfl := Option.some_inj.mp hs
        exact hiff.mpr (h s' rfl)

/-- The next frame and those above the caller start at or above `bound`, the end of the arguments. -/
structure High (bound : ℕ) (ns : List CallFrame) (c : CallFrame) (older : List CallFrame)
    (s : Stack V) : Prop where
  frames : s.frames = ns ++ c :: older
  cursor : bound ≤ s.cursor
  limits : ∀ f ∈ ns, bound ≤ f.limit ∧ f.limit ≤ f.sp

theorem High.step {bound : ℕ} {ns older : List CallFrame} {c : CallFrame} {s s' : Stack V}
    {m : Move V} (h : High bound ns c older s) (hs : m.step (older.length + 1) s = some s') :
    ((∃ f ns', High bound (f :: ns') c older s') ∨ s'.frames = c :: older ∧ s'.cursor = c.sp) ∧
      ∀ i < bound, s'.mem i = s.mem i := by
  rcases Move.step_cases h.frames hs with ⟨-, hfr, hmem, hcur⟩ | ⟨f, rest, rfl, hcases⟩
  · refine ⟨.inl ⟨_, _, hfr, hcur ▸ h.cursor, ?_⟩, fun i _ => congrFun hmem i⟩
    exact List.forall_mem_cons.mpr ⟨⟨h.cursor, Nat.le_refl _⟩, h.limits⟩
  · obtain ⟨⟨hlim, hsp⟩, hrest⟩ := List.forall_mem_cons.mp h.limits
    have htop : ∀ f' : CallFrame, bound ≤ f'.limit ∧ f'.limit ≤ f'.sp →
        ∀ g ∈ f' :: rest, bound ≤ g.limit ∧ g.limit ≤ g.sp :=
      fun f' hf' => List.forall_mem_cons.mpr ⟨hf', hrest⟩
    rcases hcases with ⟨-, hfr, hmem, hcur⟩ | ⟨-, hfr, hmem, hcur⟩ | ⟨v, -, hfr, hmem, hcur⟩ |
      ⟨-, hlt, hfr, hmem, hcur⟩
    · refine ⟨?_, fun i _ => congrFun hmem i⟩
      cases rest with
      | nil => exact .inr ⟨hfr, hcur⟩
      | cons g rest =>
        obtain ⟨hg, hg'⟩ := hrest g List.mem_cons_self
        refine .inl ⟨g, rest, hfr, ?_, hrest⟩
        rw [hcur]
        exact Nat.le_trans hg hg'
    · exact ⟨.inl ⟨_, _, hfr, hcur ▸ Nat.le_trans hlim hsp, h.limits⟩, fun i _ => congrFun hmem i⟩
    · refine ⟨.inl ⟨_, _, hfr, hcur ▸ h.cursor, htop _ ⟨hlim, Nat.le_succ_of_le hsp⟩⟩,
        fun i hi => ?_⟩
      rw [hmem, Function.update_of_ne (Nat.ne_of_lt (by omega))]
    · exact ⟨.inl ⟨_, _, hfr, hcur ▸ h.cursor, htop _ ⟨hlim, Nat.le_sub_one_of_lt hlt⟩⟩,
        fun i _ => congrFun hmem i⟩

theorem High.length_ne {bound : ℕ} {f : CallFrame} {ns older : List CallFrame} {c : CallFrame}
    {s : Stack V} (h : High bound (f :: ns) c older s) : s.frames.length ≠ older.length + 1 := by
  rw [h.frames, List.length_append, List.length_cons, List.length_cons]
  omega

theorem High.run {first bound : ℕ} {ns older : List CallFrame} {c : CallFrame} {s t : Stack V}
    {ms : List (Move V)} (h : High bound ns c older s) (hc : c.sp ≤ first)
    (hp : ReturnsBelow first (older.length + 1) ms s)
    (hr : Interpreter.run (older.length + 1) ms s = some t) :
    ∀ i, first ≤ i → i < bound → t.mem i = s.mem i := by
  induction ms generalizing ns s with
  | nil =>
    cases hr
    exact fun i _ _ => rfl
  | cons m ms ih =>
    obtain ⟨s', hs, hr'⟩ := Option.bind_eq_some_iff.mp hr
    obtain ⟨hnext, hmem⟩ := h.step hs
    have hp' := hp s' hs
    intro i hi hlt
    rcases hnext with ⟨f, ns', h'⟩ | ⟨hfr, hcur⟩
    · rw [if_neg h'.length_ne] at hp'
      exact (ih h' hp' hr' i hi hlt).trans (hmem i hlt)
    · rw [if_pos (by rw [hfr]; rfl)] at hp'
      have hlow : Low first [] c older s' := low_caller hfr (hcur ▸ hc) hc
      exact (hlow.run hp' hr' i hi).trans (hmem i hlt)

theorem High.overwritten {first bound : ℕ} {ns older : List CallFrame} {c : CallFrame}
    {s t : Stack V} {ms : List (Move V)} {w : V} (h : High bound ns c older s)
    (hc : c.sp ≤ first) (hw : PushesOnly w ms)
    (hp : ¬ ReturnsBelow first (older.length + 1) ms s)
    (hr : Interpreter.run (older.length + 1) ms s = some t) : t.mem first = w := by
  induction ms generalizing ns s with
  | nil => exact absurd trivial hp
  | cons m ms ih =>
    obtain ⟨s', hs, hr'⟩ := Option.bind_eq_some_iff.mp hr
    have hms : PushesOnly w ms := fun v hv => hw v (List.mem_cons_of_mem m hv)
    have hp' : ¬ if s'.frames.length = older.length + 1 then
          PushesBelow first (older.length + 1) ms s'
        else ReturnsBelow first (older.length + 1) ms s' := by
      intro hall
      refine hp fun s'' hs'' => ?_
      obtain rfl := Option.some_inj.mp (hs.symm.trans hs'')
      exact hall
    obtain ⟨hnext, -⟩ := h.step hs
    rcases hnext with ⟨f, ns', h'⟩ | ⟨hfr, hcur⟩
    · rw [if_neg h'.length_ne] at hp'
      exact ih h' hms hp' hr'
    · rw [if_pos (by rw [hfr]; rfl)] at hp'
      have hlow : Low first [] c older s' := low_caller hfr (hcur ▸ hc) hc
      exact hlow.overwritten hms hp' hr'

/-! ### The two instructions -/

/-- The code that a native function runs keeps off the arguments: after `OP_CALL` it pushes nothing
from `first` on; after `OP_NEW` it has to do so only once it has returned to the caller. -/
def CallOp.Spares (op : CallOp) (first depth : ℕ) (ms : List (Move V)) (s : Stack V) : Prop :=
  match op with
  | call => PushesBelow first depth ms s
  | new => ReturnsBelow first depth ms s

theorem CallOp.spares_shape (op : CallOp) (first depth : ℕ) (ms : List (Move V)) (s : Stack V) :
    op.Spares first depth (ms.map Move.shape) s.shape ↔ op.Spares first depth ms s := by
  cases op with
  | call => exact pushesBelow_shape first depth ms s
  | new => exact returnsBelow_shape first depth ms s

theorem CallOp.setup_run (op : CallOp) {s s₀ t : Stack V} {f : CallFrame} {older : List CallFrame}
    {argc : ℕ} {ms : List (Move V)} (hf : s.frames = f :: older) (hargs : f.limit + 2 + argc ≤ f.sp)
    (hcur : s.cursor = f.sp) (hs₀ : op.setup argc s = some s₀)
    (hr : run (older.length + 1) ms s₀ = some t) :
    (op.Spares (f.sp - argc) (older.length + 1) ms s₀ →
        ∀ i < argc, t.mem (f.sp - argc + i) = s.mem (f.sp - argc + i)) ∧
      ∀ w, PushesOnly w ms → ¬ op.Spares (f.sp - argc) (older.length + 1) ms s₀ →
        t.mem (f.sp - argc) = w := by
  obtain ⟨mem, cursor, stop, frames⟩ := s
  dsimp only at hf hcur
  subst hf hcur
  cases hs₀
  have hle : f.sp - argc - 2 ≤ f.sp - argc := Nat.sub_le _ _
  cases op with
  | call =>
    have hlow : Low (f.sp - argc) [] { f with sp := f.sp - argc - 2 } older
        ⟨mem, f.sp - argc - 2, stop, { f with sp := f.sp - argc - 2 } :: older⟩ :=
      low_caller rfl hle hle
    exact ⟨fun hp i _ => hlow.run hp hr _ (Nat.le_add_right _ _),
      fun w hw hp => hlow.overwritten hw hp hr⟩
  | new =>
    have hhigh : High f.sp [] { f with sp := f.sp - argc - 2 } older
        ⟨mem, f.sp, stop, { f with sp := f.sp - argc - 2 } :: older⟩ :=
      ⟨rfl, Nat.le_refl _, List.forall_mem_nil _⟩
    refine ⟨fun hp i hi => ?_, fun w hw hp => hhigh.overwritten hle hw hp hr⟩
    exact hhigh.run hle hp hr _ (Nat.le_add_right _ _) (by omega)

def Move.fill (v : V) : Move W → Move V
  | enter => enter
  | leave => leave
  | sync => sync
  | push _ => push v
  | pop => pop

theorem map_shape_fill (v : V) (ms : List (Move Unit)) :
    (ms.map (Move.fill v)).map Move.shape = ms := by
  rw [List.map_map]
  refine (List.map_congr_left fun m _ => ?_).trans (List.map_id ms)
  cases m <;> rfl

theorem pushesOnly_fill (v : V) (ms : List (Move Unit)) :
    PushesOnly v (ms.map (Move.fill v)) := by
  intro u hu
  obtain ⟨m, -, hm⟩ := List.mem_map.mp hu
  cases m with
  | push x =>
    cases hm
    rfl
  | enter | leave | sync | pop => cases hm

/-- **When a native function reads the arguments it was called with.** Whatever the operands are that
the code it has run so far pushes, the arguments are those that the caller pushed, if and only if
there are none or that code spares them. -/
theorem arguments_intact_iff [Nontrivial V] (op : CallOp) (undefined : V) {s s₀ : Stack V}
    {f : CallFrame} {older : List CallFrame} {argc : ℕ} {ms : List (Move Unit)}
    (hf : s.frames = f :: older) (hargs : f.limit + 2 + argc ≤ f.sp) (hcur : s.cursor = f.sp)
    (hs₀ : op.setup argc s = some s₀) (hms : (run (older.length + 1) ms s₀.shape).isSome) :
    (∀ (acts : List (Move V)) (t : Stack V), acts.map Move.shape = ms →
        run (older.length + 1) acts s₀ = some t →
        ∀ i < argc, argumentsAt undefined (f.sp - argc) argc t i = s.mem (f.sp - argc + i)) ↔
      argc = 0 ∨ op.Spares (f.sp - argc) (older.length + 1) ms s₀.shape := by
  constructor
  · intro h
    rcases Nat.eq_zero_or_pos argc with hzero | hpos
    · exact .inl hzero
    refine .inr (Classical.byContradiction fun hp => ?_)
    -- Push only a value that differs from the first argument.
    obtain ⟨w, hw⟩ := exists_ne (s.mem (f.sp - argc))
    have hshape := shape_run (older.length + 1) (ms.map (Move.fill w)) s₀
    rw [map_shape_fill] at hshape
    rw [hshape, Option.isSome_map] at hms
    obtain ⟨t, ht⟩ := Option.isSome_iff_exists.mp hms
    have hp' : ¬ op.Spares (f.sp - argc) (older.length + 1) (ms.map (Move.fill w)) s₀ := by
      rw [← op.spares_shape, map_shape_fill]
      exact hp
    have hread := h _ t (map_shape_fill w ms) ht 0 hpos
    rw [argumentsAt, if_pos hpos, Nat.add_zero,
      (op.setup_run hf hargs hcur hs₀ ht).2 w (pushesOnly_fill w ms) hp'] at hread
    exact hw hread
  · rintro (rfl | hp) acts t rfl ht i hi
    · exact absurd hi (Nat.not_lt_zero i)
    · rw [argumentsAt, if_pos hi]
      exact (op.setup_run hf hargs hcur hs₀ ht).1 ((op.spares_shape _ _ acts s₀).mp hp) i hi

/-- A frame with one argument, below it the function and the receiver. -/
def oneArgument : Stack ℕ where
  mem a := 10 * a
  cursor := 3
  stop := 16
  frames := [{ sp := 3, limit := 0 }]

theorem arguments_intact_iff_oneArgument :
    (∀ (acts : List (Move ℕ)) (t : Stack ℕ),
        acts.map Move.shape = [.enter, .sync, .push (), .push (), .leave] →
        run 1 acts { oneArgument with cursor := 0, frames := [{ sp := 0, limit := 0 }] } = some t →
        ∀ i < 1, argumentsAt 0 2 1 t i = 10 * (2 + i)) ↔
      1 = 0 ∨ CallOp.call.Spares 2 1 [.enter, .sync, .push (), .push (), .leave]
        (Stack.shape { oneArgument with cursor := 0, frames := [{ sp := 0, limit := 0 }] }) :=
  arguments_intact_iff .call 0 (f := { sp := 3, limit := 0 }) (s := oneArgument) rfl (by decide) rfl rfl rfl

/-- Code that pushes three operands pushes the third one over the argument. -/
theorem not_arguments_intact :
    ¬ ∀ (op : CallOp) (s s₀ t : Stack ℕ) (f : CallFrame) (older : List CallFrame) (argc : ℕ)
        (acts : List (Move ℕ)), s.frames = f :: older → f.limit + 2 + argc ≤ f.sp →
        s.cursor = f.sp → op.setup argc s = some s₀ → run (older.length + 1) acts s₀ = some t →
        ∀ i < argc, argumentsAt 0 (f.sp - argc) argc t i = s.mem (f.sp - argc + i) := by
  intro h
  have hread := h .call oneArgument _ _ { sp := 3, limit := 0 } [] 1
    [.enter, .sync, .push 7, .push 8, .push 9] rfl (by decide) rfl rfl rfl 0 Nat.one_pos
  exact absurd hread (by decide)

end Starlight.Interpreter
