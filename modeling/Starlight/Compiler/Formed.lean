import Starlight.Compiler.Encoding
import Starlight.Compiler.ExpressionScopes

/-!
# Well-formed code

`CodeBlock.Indexed` says that the indices of the instructions of a code block lie within its
tables, and that its feedback cells are used one after the other. While a function is compiled, the
same holds of the code so far (`Formed`), and the jumps that the loops around the current statement
wait to patch are still jumps.

What the compiler remembers between two steps, an index that it got from a table or the address of a
jump, is a `Fact`; facts stay true. `Forms q Γ x Δ` says that a piece `x` of the compiler keeps the
state formed when the facts `Γ` are known, that its result comes with the facts `Δ`, and that `x` leaves
the scopes as they are if `q` holds.
-/

namespace Starlight

/-! ### The tables of a code block -/

namespace CodeBlock

/-- `c` is `b` or one of the functions in `b`, at any depth. -/
inductive Contains : CodeBlock → CodeBlock → Prop where
  | self (b : CodeBlock) : Contains b b
  | inner {b c d : CodeBlock} : c ∈ b.codes → Contains c d → Contains b d

end CodeBlock

/-- The feedback cell that an instruction uses. -/
def Instr.fdbk? : Instr → Option ℕ
  | .getById _ _ fdbk | .putById _ fdbk => some fdbk
  | _ => none

/-- What may be known while a function is compiled, and stays true: indices into the tables of the
code block, an address at which a jump was emitted, and that a nested function is well formed. -/
inductive Fact where
  | name (ix : ℕ)
  | literal (ix : ℕ)
  | function (ix : ℕ)
  | hole (p : ℕ)
  | block (b : CodeBlock)

/-- The table entries that an instruction refers to. -/
def Instr.needs : Instr → List Fact
  | .pushLiteral ix => [.literal ix]
  | .getFunction ix => [.function ix]
  | .getById _ name _ | .putById name _ | .deleteById name => [.name name]
  | _ => []

/-- The indices of an instruction are within the tables of the block. -/
def Instr.Indexed (b : CodeBlock) : Instr → Prop
  | .pushLiteral ix => ix < b.literals.length
  | .getFunction ix => ix < b.codes.length
  | .getById _ name fdbk | .putById name fdbk => name < b.names.length ∧ fdbk < b.feedback
  | .deleteById name => name < b.names.length
  | _ => True

/-- Every index lies within its table, and the feedback cells are used one after the other. -/
structure CodeBlock.Indexed (b : CodeBlock) : Prop where
  instrs : ∀ i ∈ b.code, i.Indexed b
  feedback : b.code.filterMap Instr.fdbk? = List.range b.feedback

/-- The same of a block and the functions in it. -/
def CodeBlock.WellFormed (b : CodeBlock) : Prop := ∀ c, b.Contains c → c.Indexed

def Fact.Holds (s : ByteCompiler) : Fact → Prop
  | .name ix => ix < s.names.length
  | .literal ix => ix < s.literals.length
  | .function ix => ix < s.codes.length
  | .hole p => ∃ op offset, fetch s.code p = some (.jump op offset)
  | .block b => b.WellFormed

theorem mem_setAt {c : List Instr} {p : ℕ} {i j : Instr} (h : i ∈ setAt c p j) : i ∈ c ∨ i = j := by
  induction c generalizing p with
  | nil => cases h
  | cons k c ih =>
    rw [setAt] at h
    split at h
    · rcases List.mem_cons.mp h with rfl | h
      · exact .inr rfl
      · exact .inl (List.mem_cons_of_mem k h)
    · split at h
      · exact .inl h
      · rcases List.mem_cons.mp h with rfl | h
        · exact .inl List.mem_cons_self
        · exact (ih h).imp_left (List.mem_cons_of_mem k)

theorem filterMap_setAt {c : List Instr} {p : ℕ} {i j : Instr} (h : fetch c p = some i)
    (hi : i.fdbk? = none) (hj : j.fdbk? = none) :
    (setAt c p j).filterMap Instr.fdbk? = c.filterMap Instr.fdbk? := by
  induction c generalizing p with
  | nil => rfl
  | cons k c ih =>
    rw [fetch] at h
    rw [setAt]
    split at h
    · next hp =>
      obtain rfl := Option.some_inj.mp h
      rw [if_pos hp, List.filterMap_cons_none hi, List.filterMap_cons_none hj]
    · next hp =>
      split at h
      · cases h
      · next hk =>
        rw [if_neg hp, if_neg hk, List.filterMap_cons, List.filterMap_cons, ih h]

namespace ByteCompiler

variable {α β : Type} {s s' : ByteCompiler} {q : Prop}

/-- The state of the compiler while it emits well-formed code. -/
structure Formed (s : ByteCompiler) : Prop where
  needs : ∀ i ∈ s.code, ∀ f ∈ i.needs, Fact.Holds s f
  feedback : s.code.filterMap Instr.fdbk? = List.range s.feedback
  codes : ∀ b ∈ s.codes, b.WellFormed
  fmap : ∀ name ix, s.fmap.lookup name = some ix → Fact.Holds s (.function ix)
  lci : ∀ info ∈ s.lci, ∀ p ∈ info.breaks ++ info.continues, Fact.Holds s (.hole p.pos)

/-- What is known stays true. -/
def Grows (s s' : ByteCompiler) : Prop := ∀ f, Fact.Holds s f → Fact.Holds s' f

theorem Grows.refl (s : ByteCompiler) : Grows s s := fun _ h => h

theorem Grows.trans {s'' : ByteCompiler} (h₁ : Grows s s') (h₂ : Grows s' s'') : Grows s s'' :=
  fun f hf => h₂ f (h₁ f hf)

/-- When the facts `Γ` are known, `x` keeps the state formed, and its result has the facts `Δ`. If `q` holds,
as it does of expressions, `x` leaves the scopes as they are. -/
def Forms (q : Prop) (Γ : List Fact) (x : Comp α) (Δ : α → List Fact) : Prop :=
  (∀ s, Formed s → (∀ f ∈ Γ, Fact.Holds s f) →
    (x s).Sat (fun a s' => Formed s' ∧ Grows s s' ∧ ∀ f ∈ Δ a, Fact.Holds s' f) fun _ _ => True) ∧
  (q → KeepsScopes x)

/-- The same without facts. -/
abbrev Fine (q : Prop) (x : Comp α) : Prop := Forms q [] x fun _ => []

variable {Γ Γ' : List Fact} {x : Comp α} {Δ : α → List Fact} {Θ : β → List Fact}

/-! ### Rules -/

theorem Forms.mono (h : Forms q Γ x Δ) (hΓ : ∀ f ∈ Γ, f ∈ Γ') : Forms q Γ' x Δ :=
  ⟨fun s hs hf => h.1 s hs fun f hm => hf f (hΓ f hm), h.2⟩

theorem Forms.loose (h : Forms q Γ x Δ) : Forms False Γ x Δ := ⟨h.1, False.elim⟩

theorem Forms.fine (h : Forms q [] x Δ) : Forms q Γ x Δ := h.mono fun _ hf => by cases hf

theorem Forms.bind {f : α → Comp β} (hx : Forms q Γ x Δ) (hf : ∀ a, Forms q (Δ a ++ Γ) (f a) Θ) :
    Forms q Γ (x >>= f) Θ := by
  refine ⟨fun s hs hΓ => ?_, fun hq => (hx.2 hq).seq fun a => (hf a).2 hq⟩
  refine Result.Sat.bind (hx.1 s hs hΓ) fun a s' ⟨hs', hg, hΔ⟩ => ?_
  refine ((hf a).1 s' hs' fun g hm => ?_).mono (fun b s'' h => ⟨h.1, hg.trans h.2.1, h.2.2⟩)
    fun _ _ _ => trivial
  rcases List.mem_append.mp hm with hm | hm
  · exact hΔ g hm
  · exact hg g (hΓ g hm)

theorem Forms.seq {f : α → Comp β} (hx : Fine q x) (hf : ∀ a, Forms q Γ (f a) Θ) :
    Forms q Γ (x >>= f) Θ :=
  hx.fine.bind hf

theorem Forms.pure {a : α} (h : ∀ f ∈ Δ a, f ∈ Γ) : Forms q Γ (pure a : Comp α) Δ :=
  ⟨fun s hs hf => ⟨hs, Grows.refl s, fun f hm => hf f (h f hm)⟩, fun _ => keepsScopes_pure a⟩

theorem fine_pure (a : α) : Fine q (pure a : Comp α) := Forms.pure fun _ h => h

theorem forms_fail (e : CompileError) : Forms q Γ (Exec.fail e : Comp α) Δ :=
  ⟨fun _ _ _ => trivial, fun _ => keepsScopes_fail e⟩

theorem forms_gets (g : ByteCompiler → α) : Fine q (Exec.gets g : Comp α) :=
  ⟨fun s hs _ => ⟨hs, Grows.refl s, fun _ hm => by cases hm⟩, fun _ => keepsScopes_gets g⟩

theorem Forms.ite {c : Prop} [Decidable c] {y : Comp α} (hx : c → Forms q Γ x Δ)
    (hy : ¬ c → Forms q Γ y Δ) : Forms q Γ (if c then x else y) Δ := by
  split
  · next h => exact hx h
  · next h => exact hy h

/-! ### The primitives -/

/-- The parts of the state that facts are about. -/
def Same (s s' : ByteCompiler) : Prop :=
  s'.code = s.code ∧ s'.feedback = s.feedback ∧ s'.names = s.names ∧ s'.literals = s.literals ∧
    s'.codes = s.codes ∧ s'.fmap = s.fmap ∧ s'.lci = s.lci

theorem Same.grows (h : Same s s') : Grows s s' := by
  obtain ⟨hcode, -, hnames, hliterals, hcodes, -, -⟩ := h
  intro f hf
  cases f with
  | name ix => exact (congrArg (ix < List.length ·) hnames).mpr hf
  | literal ix => exact (congrArg (ix < List.length ·) hliterals).mpr hf
  | function ix => exact (congrArg (ix < List.length ·) hcodes).mpr hf
  | hole p =>
    obtain ⟨op, offset, hfetch⟩ := hf
    exact ⟨op, offset, by rw [hcode]; exact hfetch⟩
  | block b => exact hf

theorem Formed.same (hs : Formed s) (h : Same s s') : Formed s' := by
  have hg := h.grows
  obtain ⟨hcode, hfeedback, -, -, hcodes, hfmap, hlci⟩ := h
  refine ⟨fun i hi f hf => hg f (hs.needs i (hcode ▸ hi) f hf), ?_, fun b hb => hs.codes b (hcodes ▸ hb),
    fun name ix hix => hg _ (hs.fmap name ix (hfmap ▸ hix)),
    fun info hinfo p hp => hg _ (hs.lci info (hlci ▸ hinfo) p hp)⟩
  rw [hcode, hfeedback]
  exact hs.feedback

theorem fine_modify {g : ByteCompiler → ByteCompiler} (h : ∀ s, Same s (g s)) :
    Fine False (Exec.modify g) :=
  ⟨fun s hs _ => ⟨hs.same (h s), (h s).grows, fun _ hm => by cases hm⟩, False.elim⟩

theorem grows_append (is : List Instr) (n : ℕ) :
    Grows s { s with code := s.code ++ is, feedback := n } := by
  intro f hf
  cases f with
  | hole p =>
    obtain ⟨op, offset, hfetch⟩ := hf
    exact ⟨op, offset, by rw [fetch_append_left (fetch_lt hfetch)]; exact hfetch⟩
  | name ix | literal ix | function ix | block b => exact hf

theorem Formed.append (hs : Formed s) {l : List Instr} {n : ℕ}
    (hn : ∀ i ∈ l, ∀ f ∈ i.needs, Fact.Holds s f)
    (hf : List.range s.feedback ++ l.filterMap Instr.fdbk? = List.range n) :
    Formed { s with code := s.code ++ l, feedback := n } := by
  have hg : Grows s { s with code := s.code ++ l, feedback := n } := grows_append l n
  refine ⟨fun i hi f hfi => hg f ?_, ?_, hs.codes, fun name ix hix => hg _ (hs.fmap name ix hix),
    fun info hinfo p hp => hg _ (hs.lci info hinfo p hp)⟩
  · rcases List.mem_append.mp hi with hi | hi
    · exact hs.needs i hi f hfi
    · exact hn i hi f hfi
  · rw [List.filterMap_append, hs.feedback]
    exact hf

theorem forms_emit {i : Instr} (hi : i.fdbk? = none) (hn : ∀ f ∈ i.needs, f ∈ Γ) :
    Forms q Γ (emit i) fun _ => [] := by
  refine ⟨fun s hs hΓ => ?_, fun _ => keepsScopes_emit i⟩
  refine ⟨hs.append (l := [i]) (n := s.feedback) (fun j hj f hf => ?_) ?_, grows_append [i] s.feedback,
    fun _ hm => by cases hm⟩
  · obtain rfl := List.mem_singleton.mp hj
    exact hΓ f (hn f hf)
  · rw [List.filterMap_cons_none hi, List.filterMap_nil, List.append_nil]

theorem fine_emit {i : Instr} (hi : i.fdbk? = none) (hn : i.needs = []) : Fine q (emit i) :=
  forms_emit hi fun _ hf => hn ▸ hf

theorem Forms.emit {i : Instr} (hi : i.fdbk? = none) (hn : i.needs = [])
    (hx : Forms q Γ x Δ) : Forms q Γ (emit i >>= fun _ => x) Δ :=
  Forms.seq (fine_emit hi hn) fun _ => hx

theorem forms_emitFeedback {i : ℕ → Instr} (hi : ∀ n, (i n).fdbk? = some n)
    (hn : ∀ n, ∀ f ∈ (i n).needs, f ∈ Γ) : Forms q Γ (emitFeedback i) fun _ => [] := by
  refine ⟨fun s hs hΓ => ?_, fun _ => keepsScopes_emitFeedback i⟩
  refine ⟨hs.append (l := [i s.feedback]) (n := s.feedback + 1) (fun j hj f hf => ?_) ?_,
    grows_append [i s.feedback] (s.feedback + 1), fun _ hm => by cases hm⟩
  · obtain rfl := List.mem_singleton.mp hj
    exact hΓ f (hn _ f hf)
  · rw [List.filterMap_cons_some (hi _), List.filterMap_nil, List.range_succ]

theorem fine_hole (placeholder op : JumpOp) :
    Forms q [] (hole placeholder op) fun p => [.hole p.pos] := by
  refine ⟨fun s hs _ => ?_, fun _ => keepsScopes_hole _ _⟩
  have hformed := hs.append (l := [.jump placeholder 0]) (n := s.feedback)
    (fun j hj _ hf => by obtain rfl := List.mem_singleton.mp hj; cases hf)
    (List.append_nil _)
  have hg : Grows s _ := grows_append [.jump placeholder 0] s.feedback
  have hsame : Same { s with code := s.code ++ [.jump placeholder 0], feedback := s.feedback }
      { s with code := s.code ++ [.jump placeholder 0], holes := s.holes ++ [s.size] } :=
    ⟨rfl, rfl, rfl, rfl, rfl, rfl, rfl⟩
  refine ⟨hformed.same hsame, hg.trans hsame.grows, fun f hm => ?_⟩
  obtain rfl := List.mem_singleton.mp hm
  exact ⟨placeholder, 0, fetch_concat s.code _⟩

theorem forms_patch {p : Patch} (hp : Fact.hole p.pos ∈ Γ) : Forms q Γ (patch p) fun _ => [] := by
  refine ⟨fun s hs hΓ => ?_, fun _ => keepsScopes_modify (fun _ => rfl) fun _ => rfl⟩
  obtain ⟨op, offset, hfetch⟩ := hΓ _ hp
  generalize hj : Instr.jump p.op (BitVec.ofNat 32 (s.size - (p.pos + 5))) = j
  have hsize : Sized.size j = Sized.size (Instr.jump op offset) := by rw [← hj]; rfl
  have hneeds : ∀ i ∈ setAt s.code p.pos j, i ∈ s.code ∨ i = j := fun i => mem_setAt
  have hg : Grows s { s with code := setAt s.code p.pos j, filled := s.filled ++ [p.pos] } := by
    intro f hf
    cases f with
    | hole q =>
      by_cases hq : q = p.pos
      · subst hq
        exact ⟨p.op, _, by rw [fetch_setAt_self hfetch, ← hj]⟩
      · obtain ⟨op', offset', hfetch'⟩ := hf
        exact ⟨op', offset', by rw [fetch_setAt_ne hfetch hsize hq]; exact hfetch'⟩
    | name ix | literal ix | function ix | block b => exact hf
  have hrun : patch p s =
      .ok () { s with code := setAt s.code p.pos j, filled := s.filled ++ [p.pos] } := by
    rw [← hj]
    rfl
  rw [hrun]
  refine ⟨⟨fun i hi f hf => ?_, ?_, hs.codes, fun name ix hix => hg _ (hs.fmap name ix hix),
    fun info hinfo q hq => hg _ (hs.lci info hinfo q hq)⟩, hg, fun _ hm => by cases hm⟩
  · rcases hneeds i hi with hi | rfl
    · exact hg f (hs.needs i hi f hf)
    · rw [← hj] at hf
      cases hf
  · exact (filterMap_setAt hfetch rfl (by rw [← hj]; rfl)).trans hs.feedback

theorem fine_goto (target : ℕ) : Fine False (goto target) := by
  refine ⟨fun s hs _ => ?_, False.elim⟩
  refine ⟨hs.append (n := s.feedback) (fun j hj f hf => ?_) (List.append_nil _),
    grows_append _ s.feedback, fun _ hm => by cases hm⟩
  obtain rfl := List.mem_singleton.mp hj
  cases hf

theorem forms_patchAll {ps : List Patch} (h : ∀ p ∈ ps, Fact.hole p.pos ∈ Γ) :
    Forms q Γ (patchAll ps) fun _ => [] := by
  induction ps with
  | nil => exact (fine_pure ()).fine
  | cons p ps ih =>
    obtain ⟨hp, hps⟩ := List.forall_mem_cons.mp h
    exact (ih hps).bind fun _ => forms_patch hp

/-! ### Tables -/

theorem lt_length_append {γ : Type} {l m : List γ} {n : ℕ} (h : n < l.length) :
    n < (l ++ m).length :=
  lt_of_lt_of_le h (by rw [List.length_append]; exact Nat.le_add_right _ _)

theorem lt_length_concat {γ : Type} (l : List γ) (a : γ) : l.length < (l ++ [a]).length := by
  rw [List.length_append]
  exact Nat.lt_succ_self _

theorem grows_names (l : List Symbol) : Grows s { s with names := s.names ++ l } := by
  intro f hf
  cases f with
  | name ix => exact lt_length_append hf
  | literal ix | function ix | hole p | block b => exact hf

theorem grows_literals (l : List Val) : Grows s { s with literals := s.literals ++ l } := by
  intro f hf
  cases f with
  | literal ix => exact lt_length_append hf
  | name ix | function ix | hole p | block b => exact hf

theorem Formed.grow (hs : Formed s) (hg : Grows s s') (hcode : s'.code = s.code)
    (hfeedback : s'.feedback = s.feedback) (hcodes : ∀ b ∈ s'.codes, b.WellFormed)
    (hfmap : s'.fmap = s.fmap) (hlci : s'.lci = s.lci) : Formed s' := by
  refine ⟨fun i hi f hf => hg f (hs.needs i (hcode ▸ hi) f hf), ?_, hcodes,
    fun name ix hix => hg _ (hs.fmap name ix (hfmap ▸ hix)),
    fun info hinfo p hp => hg _ (hs.lci info (hlci ▸ hinfo) p hp)⟩
  rw [hcode, hfeedback]
  exact hs.feedback

theorem forms_getSym (name : Symbol) : Forms q [] (getSym name) fun ix => [.name ix] := by
  refine ⟨fun s hs _ => ?_, fun _ => keepsScopes_getSym name⟩
  unfold getSym
  split
  · next ix hix =>
    refine ⟨hs, Grows.refl s, fun f hm => ?_⟩
    obtain rfl := List.mem_singleton.mp hm
    exact (List.findIdx?_eq_some_iff_findIdx_eq.mp hix).1
  · refine ⟨hs.grow (grows_names [name]) rfl rfl hs.codes rfl rfl, grows_names [name], fun f hm => ?_⟩
    obtain rfl := List.mem_singleton.mp hm
    exact lt_length_concat _ _

theorem forms_getVal2 (val : Val) : Forms q [] (getVal2 val) fun ix => [.literal ix] := by
  refine ⟨fun s hs _ => ?_, fun _ => keepsScopes_getVal2 val⟩
  refine ⟨hs.grow (grows_literals [val]) rfl rfl hs.codes rfl rfl, grows_literals [val], fun f hm => ?_⟩
  obtain rfl := List.mem_singleton.mp hm
  exact lt_length_concat _ _

theorem forms_getVal (val : Val) : Forms q [] (getVal val) fun ix => [.literal ix] := by
  refine ⟨fun s hs hΓ => ?_, fun _ => keepsScopes_getVal val⟩
  unfold getVal
  split
  · next ix hix =>
    refine ⟨hs, Grows.refl s, fun f hm => ?_⟩
    obtain rfl := List.mem_singleton.mp hm
    exact (List.findIdx?_eq_some_iff_findIdx_eq.mp hix).1
  · exact (forms_getVal2 (q := q) val).1 s hs hΓ

/-! ### Scopes and loops -/

theorem fine_pushScope : Fine False pushScope := fine_modify fun _ => ⟨rfl, rfl, rfl, rfl, rfl, rfl, rfl⟩

theorem fine_popScope (cx : Ctx) : Fine False (popScope cx) := by
  refine ⟨fun s hs _ => ?_, False.elim⟩
  unfold popScope
  split
  · trivial
  · have hsame : ∀ sc scs l, Same s { s with scope := sc, parents := scs, variableFreelist := l } :=
      fun _ _ _ => ⟨rfl, rfl, rfl, rfl, rfl, rfl, rfl⟩
    exact ⟨hs.same (hsame _ _ _), (hsame _ _ _).grows, fun _ hm => by cases hm⟩

theorem fine_inScope (cx : Ctx) {x : Comp Unit} (hx : Fine q x) :
    Fine q (do pushScope; x; popScope cx) :=
  ⟨(Forms.seq fine_pushScope fun _ => Forms.seq hx.loose fun _ => fine_popScope cx).1,
    fun hq => keepsScopes_inScope cx (hx.2 hq)⟩

theorem fine_addVar (name : String) (kind : VariableKind) (dontFree : Bool) (ix : ℕ) :
    Fine False (addVar name kind dontFree ix) := by
  refine ⟨fun s hs _ => ?_, False.elim⟩
  have hsame : ∀ sc bs, Same s { s with scope := sc, bindings := bs } :=
    fun _ _ => ⟨rfl, rfl, rfl, rfl, rfl, rfl, rfl⟩
  exact ⟨hs.same (hsame _ _), (hsame _ _).grows, fun _ hm => by cases hm⟩

theorem grows_lci (l : List LoopControlInfo) : Grows s { s with lci := l } := by
  intro f hf
  cases f <;> exact hf

theorem Formed.withLci (hs : Formed s) {l : List LoopControlInfo}
    (h : ∀ info ∈ l, ∀ p ∈ info.breaks ++ info.continues, (Fact.hole p.pos).Holds s) :
    Formed { s with lci := l } :=
  ⟨fun i hi f hf => grows_lci l f (hs.needs i hi f hf), hs.feedback, hs.codes, hs.fmap, h⟩

theorem fine_pushLci : Fine False pushLci := by
  refine ⟨fun s hs _ => ?_, False.elim⟩
  refine ⟨hs.withLci (l := ⟨[], []⟩ :: s.lci) ?_, grows_lci _, fun _ hm => by cases hm⟩
  exact List.forall_mem_cons.mpr ⟨List.forall_mem_nil _, hs.lci⟩

theorem fine_lci {f : List LoopControlInfo → Comp α} (hnil : Fine False (f []))
    (hcons : ∀ info rest s, s.lci = info :: rest → Formed s → Formed { s with lci := rest } →
      (f (info :: rest) s).Sat (fun _ s' => Formed s' ∧ Grows s s') fun _ _ => True) :
    Fine False ((Exec.gets fun s : ByteCompiler => s.lci) >>= f) := by
  refine ⟨fun s hs hΓ => ?_, False.elim⟩
  rw [Exec.gets_bind]
  cases hl : s.lci with
  | nil => exact hnil.1 s hs hΓ
  | cons info rest =>
    refine (hcons info rest s hl hs ?_).mono
      (fun a s' h => ⟨h.1, h.2, fun _ hm => by cases hm⟩) fun _ _ _ => trivial
    exact hs.withLci fun i hi => hs.lci i (hl ▸ List.mem_cons_of_mem info hi)

/-- The jumps `ps` wait for their targets. -/
def holesOf (ps : List Patch) : List Fact := ps.map fun p => .hole p.pos

theorem forms_patchAll_holes (ps : List Patch) : Forms q (holesOf ps) (patchAll ps) fun _ => [] :=
  forms_patchAll fun p hp => List.mem_map.mpr ⟨p, hp, rfl⟩

theorem fine_popLci : Fine False popLci := by
  refine fine_lci (forms_fail _) fun info rest s hl hs hrest => ?_
  have hholes : ∀ f ∈ holesOf info.breaks, f.Holds { s with lci := rest } := by
    intro f hf
    obtain ⟨p, hp, rfl⟩ := List.mem_map.mp hf
    exact hs.lci info (hl ▸ List.mem_cons_self) p (List.mem_append_left _ hp)
  exact ((forms_patchAll_holes (q := False) info.breaks).1 _ hrest hholes).mono
    (fun _ s' h => ⟨h.1, (grows_lci rest).trans h.2.1⟩) fun _ _ _ => trivial

theorem fine_patchContinues : Fine False patchContinues := by
  refine fine_lci (forms_fail _) fun info rest s hl hs _ => ?_
  have hinfo := hs.lci info (hl ▸ List.mem_cons_self)
  have hformed : Formed { s with lci := { info with continues := [] } :: rest } := by
    refine hs.withLci (List.forall_mem_cons.mpr ⟨fun p hp => ?_, fun i hi => ?_⟩)
    · rw [List.append_nil] at hp
      exact hinfo p (List.mem_append_left _ hp)
    · exact hs.lci i (hl ▸ List.mem_cons_of_mem info hi)
  have hholes : ∀ f ∈ holesOf info.continues,
      f.Holds { s with lci := { info with continues := [] } :: rest } := by
    intro f hf
    obtain ⟨p, hp, rfl⟩ := List.mem_map.mp hf
    exact hinfo p (List.mem_append_right _ hp)
  exact ((forms_patchAll_holes (q := False) info.continues).1 _ hformed hholes).mono
    (fun _ s' h => ⟨h.1, (grows_lci _).trans h.2.1⟩) fun _ _ _ => trivial

theorem Formed.pushPatch (hs : Formed s) {info info' : LoopControlInfo} {rest : List LoopControlInfo}
    (hl : s.lci = info :: rest) {p : Patch} (hp : Fact.Holds s (.hole p.pos))
    (hmem : ∀ q ∈ info'.breaks ++ info'.continues, q ∈ info.breaks ++ info.continues ∨ q = p) :
    Formed { s with lci := info' :: rest } := by
  refine hs.withLci (List.forall_mem_cons.mpr ⟨fun q hq => ?_, fun i hi => ?_⟩)
  · rcases hmem q hq with hq | rfl
    · exact hs.lci info (hl ▸ List.mem_cons_self) q hq
    · exact hp
  · exact hs.lci i (hl ▸ List.mem_cons_of_mem info hi)

theorem forms_pushBreak {p : Patch} (hp : Fact.hole p.pos ∈ Γ) : Forms False Γ (pushBreak p) fun _ => [] := by
  refine ⟨fun s hs hΓ => ?_, False.elim⟩
  unfold pushBreak
  split
  · trivial
  · next info rest hl =>
    refine ⟨hs.pushPatch hl (hΓ _ hp) fun q hq => ?_, grows_lci _, fun _ hm => by cases hm⟩
    simp only [List.mem_append, List.mem_singleton] at hq ⊢
    tauto

theorem forms_pushContinue {p : Patch} (hp : Fact.hole p.pos ∈ Γ) :
    Forms False Γ (pushContinue p) fun _ => [] := by
  refine ⟨fun s hs hΓ => ?_, False.elim⟩
  unfold pushContinue
  split
  · trivial
  · next info rest hl =>
    refine ⟨hs.pushPatch hl (hΓ _ hp) fun q hq => ?_, grows_lci _, fun _ hm => by cases hm⟩
    simp only [List.mem_append, List.mem_singleton] at hq ⊢
    tauto

/-! ### Functions -/

theorem wellFormed_new (name : String) : (CodeBlock.new name).WellFormed := by
  intro c hc
  cases hc with
  | self => exact ⟨List.forall_mem_nil _, rfl⟩
  | inner hmem => cases hmem

theorem grows_codes (l : List CodeBlock) (hl : s.codes.length ≤ l.length) :
    Grows s { s with codes := l } := by
  intro f hf
  cases f with
  | function ix => exact lt_of_lt_of_le hf hl
  | name ix | literal ix | hole p | block b => exact hf

theorem forms_pushCode {block : CodeBlock} (hb : Fact.block block ∈ Γ) :
    Forms q Γ (pushCode block) fun ix => [.function ix] := by
  refine ⟨fun s hs hΓ => ?_, fun _ => keepsScopes_pushCode block⟩
  have hg : Grows s { s with codes := s.codes ++ [block] } :=
    grows_codes _ (by rw [List.length_append]; exact Nat.le_add_right _ _)
  refine ⟨hs.grow hg rfl rfl (List.forall_mem_append.mpr ⟨hs.codes, ?_⟩) rfl rfl, hg, fun f hm => ?_⟩
  · exact List.forall_mem_singleton.mpr (hΓ _ hb)
  · obtain rfl := List.mem_singleton.mp hm
    exact lt_length_concat _ _

theorem forms_pushNew (name : String) : Forms q [] (pushCode (.new name)) fun ix => [.function ix] := by
  refine ⟨fun s hs _ => ?_, fun _ => keepsScopes_pushCode _⟩
  have hΓ : ∀ f ∈ [Fact.block (.new name)], f.Holds s :=
    List.forall_mem_singleton.mpr (wellFormed_new name)
  exact (forms_pushCode (q := q) List.mem_cons_self).1 s hs hΓ

theorem forms_setCode {block : CodeBlock} (hb : Fact.block block ∈ Γ) (ix : ℕ) :
    Forms q Γ (setCode ix block) fun _ => [] := by
  refine ⟨fun s hs hΓ => ?_, fun _ => keepsScopes_modify (fun _ => rfl) fun _ => rfl⟩
  have hg : Grows s { s with codes := s.codes.set ix block } := grows_codes _ List.length_set.ge
  refine ⟨hs.grow hg rfl rfl (fun b hmem => ?_) rfl rfl, hg, fun _ hm => by cases hm⟩
  rcases List.mem_or_eq_of_mem_set hmem with hmem | rfl
  · exact hs.codes b hmem
  · exact hΓ _ hb

theorem Formed.wellFormed (hs : Formed s) : s.toCodeBlock.WellFormed := by
  intro c hc
  cases hc with
  | inner hmem hc => exact hs.codes _ hmem c hc
  | self =>
    refine ⟨fun i hi => ?_, hs.feedback⟩
    have hneeds := hs.needs i hi
    have hfdbk : ∀ n, i.fdbk? = some n → n < s.feedback := by
      intro n hn
      rw [← List.mem_range, ← hs.feedback]
      exact List.mem_filterMap.mpr ⟨i, hi, hn⟩
    cases i with
    | pushLiteral ix | getFunction ix => exact hneeds _ List.mem_cons_self
    | getById try_ name fdbk
    | putById name fdbk => exact ⟨hneeds _ List.mem_cons_self, hfdbk fdbk rfl⟩
    | deleteById name => exact hneeds _ List.mem_cons_self
    | _ => trivial

theorem forms_nested {init : ByteCompiler → ByteCompiler} {x : Comp Unit} (hx : Fine False x)
    (hinit : ∀ s, Formed (init s)) : Forms q [] (nested init x) fun b => [.block b] := by
  refine ⟨fun s hs _ => ?_, fun _ => keepsScopes_nested init x⟩
  have hrun := hx.1 (init s) (hinit s) (List.forall_mem_nil _)
  unfold nested
  cases hres : x (init s) with
  | ok a s' =>
    rw [hres] at hrun
    refine ⟨hs, Grows.refl s, fun f hm => ?_⟩
    obtain rfl := List.mem_singleton.mp hm
    exact hrun.1.wellFormed
  | error e s' => trivial
  | stuck =>
    rw [hres] at hrun
    exact hrun
  | diverge => trivial

theorem formed_inner (name : String) (isGenerator : Bool) (s : ByteCompiler) :
    Formed (inner name isGenerator s) where
  needs := List.forall_mem_nil _
  feedback := rfl
  codes := List.forall_mem_nil _
  fmap _ _ h := by cases h
  lci := List.forall_mem_nil _

end ByteCompiler

end Starlight
