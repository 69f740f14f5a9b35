import Starlight.Vm.PropertyKey
import Starlight.Lib.Transducer

/-!
# The interner and the symbols of a script

The symbol table gives every text a name and every name a text. The counter of the names has 32 bits and
wraps around, so the two maps are inverse just as long as no more than `2 ^ 32` texts are interned.

`Symbol(d)` and `Symbol.for(k)` intern their text as any string key is interned, and only the well-known
symbols are private. So a symbol that a script makes is the key that its text is.
-/

namespace Starlight

namespace SymbolTable

variable {t : SymbolTable} {text : String} {id : SymbolId}

/-- The name that the call `i` of a sequence of calls of `intern` returns. -/
def nameOf (texts : List String) (i : ℕ) : SymbolId :=
  ((new.internAll (texts.take i)).intern (texts.getD i "")).1

/-- Equal names are names of equal texts, and in the table that the calls leave the description of each
name is its text. -/
def InternerLaw (texts : List String) : Prop :=
  ∀ i < texts.length,
    (∀ j < texts.length, nameOf texts i = nameOf texts j ↔ texts.getD i "" = texts.getD j "") ∧
      (new.internAll texts).description (.key (nameOf texts i)) = some (texts.getD i "")

theorem symbols_intern : (t.intern text).2.symbols text = some (t.intern text).1 := by
  unfold intern
  cases h : t.symbols text with
  | some key => exact h
  | none => exact add_symbols_self

theorem symbols_intern_of_some {text' : String} (h : t.symbols text' = some id) :
    (t.intern text).2.symbols text' = some id := by
  unfold intern
  cases hs : t.symbols text with
  | some key => exact h
  | none =>
    refine (add_symbols_of_ne ?_).trans h
    rintro rfl
    rw [hs] at h
    cases h

theorem symbols_internAll_of_some (h : t.symbols text = some id) (texts : List String) :
    (t.internAll texts).symbols text = some id := by
  induction texts generalizing t with
  | nil => exact h
  | cons text' texts ih => exact ih (symbols_intern_of_some h)

/-- A call returns the name that the text has in every later table. -/
theorem symbols_nameOf {texts : List String} {i : ℕ} (hi : i < texts.length) :
    (new.internAll texts).symbols (texts.getD i "") = some (nameOf texts i) := by
  have hsplit : texts = texts.take i ++ texts.getD i "" :: texts.drop (i + 1) := by
    rw [List.getD_eq_getElem?_getD, List.getElem?_eq_getElem hi, Option.getD_some, ← List.drop_eq_getElem_cons hi, List.take_append_drop]
  have hlater : ((new.internAll (texts.take i)).intern (texts.getD i "")).2.internAll
      (texts.drop (i + 1)) = new.internAll texts := by
    conv_rhs => rw [hsplit, internAll, List.foldl_append]
    rfl
  rw [← hlater]
  exact symbols_internAll_of_some symbols_intern _

theorem card_le_of_internerLaw {texts : List String} (h : InternerLaw texts) :
    texts.toFinset.card ≤ 2 ^ 32 := by
  have hidx : ∀ text ∈ texts.toFinset, texts.idxOf text < texts.length ∧
      texts.getD (texts.idxOf text) "" = text := by
    intro text htext
    have hlt := List.idxOf_lt_length_of_mem (List.mem_toFinset.mp htext)
    exact ⟨hlt, by simp [List.getElem?_eq_getElem hlt]⟩
  have hinj : Set.InjOn (fun text => (nameOf texts (texts.idxOf text)).toFin) texts.toFinset := by
    intro text htext text' htext' heq
    obtain ⟨hlt, hget⟩ := hidx text htext
    obtain ⟨hlt', hget'⟩ := hidx text' htext'
    rw [← hget, ← hget']
    exact ((h _ hlt).1 _ hlt').mp (BitVec.toFin_inj.mp heq)
  exact (Finset.card_le_card_of_injOn _ (fun _ _ => Finset.mem_univ _) hinj).trans
    (Fintype.card_fin _).le

/-- **The interner.** For every sequence of calls the table is injective, describes every name by its text
and keeps the names it has given, just when no more than `2 ^ 32` different texts are interned. -/
theorem internerLaw_iff (texts : List String) :
    InternerLaw texts ↔ texts.toFinset.card ≤ 2 ^ 32 := by
  refine ⟨card_le_of_internerLaw, fun h i hi => ?_⟩
  have hids : ∀ {j}, j < texts.length →
      (new.internAll texts).ids (nameOf texts j) = some (texts.getD j "") := fun hj =>
    ((formed_internAll texts h).handedOut (symbols_nameOf hj)).1
  refine ⟨fun j hj => ⟨fun heq => ?_, fun heq => ?_⟩, hids hi⟩
  · exact Option.some.inj ((hids hi).symm.trans (heq ▸ hids hj))
  · exact Option.some.inj ((symbols_nameOf hi).symm.trans (heq ▸ symbols_nameOf hj))

/-- With `2 ^ 32 + 1` texts two have one name. -/
theorem not_internerLaw :
    ¬ InternerLaw ((List.range (2 ^ 32 + 1)).map fun n => String.ofList (List.replicate n 'a')) := by
  intro h
  have hinj : Function.Injective fun n => String.ofList (List.replicate n 'a') := by
    intro m n heq
    simpa using congrArg String.length heq
  have hcard := card_le_of_internerLaw h
  rw [List.toFinset_card_of_nodup (List.nodup_range.map hinj), List.length_map,
    List.length_range] at hcard
  omega

end SymbolTable

/-! ### The symbols of a script -/

/-- What a script does with keys, behind the conversions to strings. -/
inductive SymbolCall where
  | symbol (d : String)
  | symbolFor (k : String)
  | wellKnown (name : String)
  | stringKey (text : String)

/-- The call does not make a symbol from a text of the script. -/
def SymbolCall.Fixed : SymbolCall → Prop
  | .symbol _ | .symbolFor _ => False
  | .wellKnown _ | .stringKey _ => True

structure SymbolContext where
  table : SymbolTable
  registry : TableSymbol → Option ℕ
  cells : ℕ → TableSymbol
  nextCell : ℕ

namespace SymbolContext

open Conversions

def new : SymbolContext := ⟨.new, fun _ => none, fun _ => .index 0, 0⟩

def intern (s : SymbolContext) (text : String) : TableSymbol × SymbolContext :=
  (s.table.internStr text).map id fun table => { s with table }

def newSymbol (s : SymbolContext) (sym : TableSymbol) : JsValue × SymbolContext :=
  (.symbol s.nextCell,
    { s with cells := Function.update s.cells s.nextCell sym, nextCell := s.nextCell + 1 })

def symbolCtor (s : SymbolContext) (arg : String) : JsValue × SymbolContext :=
  (s.intern arg).2.newSymbol (s.intern arg).1

def symbolFor (s : SymbolContext) (arg : String) : JsValue × SymbolContext :=
  let (sym, s) := s.intern arg
  match s.registry sym with
  | some cell => (.symbol cell, s)
  | none =>
    ((s.newSymbol sym).1,
      { (s.newSymbol sym).2 with registry := Function.update s.registry sym (some s.nextCell) })

def priv : TableSymbol → TableSymbol
  | .key id => .priv id
  | sym => sym

def wellKnown (s : SymbolContext) (name : String) : JsValue × SymbolContext :=
  (s.intern ("Symbol." ++ name)).2.newSymbol (priv (s.intern ("Symbol." ++ name)).1)

def keyOf (s : SymbolContext) (v : JsValue) : Except Failure TableSymbol :=
  (primitiveToSymbol s.cells s.table v).map Prod.fst

def symbolKeyFor (objects : ℕ → String ⊕ ℕ) (s : SymbolContext) :
    JsValue → Except String (Option String)
  | .object o =>
    match objects o with
    | .inl name => .error ("Expected class 'Symbol' but found '" ++ name ++ "'")
    | .inr cell => .ok (s.table.description (s.cells cell))
  | _ => .error "Expected object"

def machine : Transducer SymbolCall JsValue SymbolContext where
  step s
    | .symbol d => some (s.symbolCtor d)
    | .symbolFor k => some (s.symbolFor k)
    | .wellKnown name => some (s.wellKnown name)
    | .stringKey text => some (.string 0 text, (s.intern text).2)

structure SeparateKeys (objects : ℕ → String ⊕ ℕ) (s : SymbolContext)
    (made : List (SymbolCall × JsValue)) : Prop where
  distinct : ∀ {i j : ℕ} {d d' v v'}, made[i]? = some (.symbol d, v) →
    made[j]? = some (.symbol d', v') → i ≠ j → s.keyOf v ≠ s.keyOf v'
  separate : ∀ {call v}, (call, v) ∈ made → (∀ text, call ≠ .stringKey text) →
    (∀ cell text, s.keyOf v ≠ s.keyOf (.string cell text)) ∧ ∀ i, s.keyOf v ≠ .ok (.index i)
  registered : ∀ {k k' v v'}, (.symbolFor k, v) ∈ made → (.symbolFor k', v') ∈ made →
    (v = v' ↔ k = k')
  keyFor : ∀ {k v}, (.symbolFor k, v) ∈ made → symbolKeyFor objects s v = .ok (some k)

variable {s s' : SymbolContext} {call : SymbolCall} {v : JsValue} {text : String}

def Made (s : SymbolContext) : SymbolCall → JsValue → Prop
  | .symbol d, v | .symbolFor d, v => ∃ cell id, v = .symbol cell ∧ cell < s.nextCell ∧
    s.cells cell = .key id ∧ s.table.symbols d = some id
  | .wellKnown _, v => ∃ cell id, v = .symbol cell ∧ cell < s.nextCell ∧ s.cells cell = .priv id
  | .stringKey _, _ => True

/-- Cells and names stay as they are. -/
structure Extends (s s' : SymbolContext) : Prop where
  nextCell : s.nextCell ≤ s'.nextCell
  cells : ∀ cell < s.nextCell, s'.cells cell = s.cells cell
  symbols : ∀ {text id}, s.table.symbols text = some id → s'.table.symbols text = some id

theorem Extends.made (h : Extends s s') (hv : s.Made call v) : s'.Made call v := by
  have key : ∀ {d}, (∃ cell id, v = .symbol cell ∧ cell < s.nextCell ∧ s.cells cell = .key id ∧
      s.table.symbols d = some id) → ∃ cell id, v = .symbol cell ∧ cell < s'.nextCell ∧
        s'.cells cell = .key id ∧ s'.table.symbols d = some id := by
    rintro d ⟨cell, id, hv, hlt, hcell, hsym⟩
    exact ⟨cell, id, hv, hlt.trans_le h.nextCell, (h.cells cell hlt).trans hcell, h.symbols hsym⟩
  cases call with
  | symbol d => exact key hv
  | symbolFor k => exact key hv
  | wellKnown name =>
    obtain ⟨cell, id, hv, hlt, hcell⟩ := hv
    exact ⟨cell, id, hv, hlt.trans_le h.nextCell, (h.cells cell hlt).trans hcell⟩
  | stringKey text => trivial

theorem extends_intern (s : SymbolContext) (text : String) : Extends s (s.intern text).2 :=
  ⟨le_rfl, fun _ _ => rfl, SymbolTable.symbols_intern_of_some⟩

theorem extends_newSymbol (s : SymbolContext) (sym : TableSymbol) :
    Extends s (s.newSymbol sym).2 :=
  ⟨Nat.le_succ _, fun _ hlt => Function.update_of_ne hlt.ne _ _, id⟩

theorem Extends.trans {s'' : SymbolContext} (h : Extends s s') (h' : Extends s' s'') :
    Extends s s'' :=
  ⟨h.nextCell.trans h'.nextCell,
    fun cell hlt => (h'.cells cell (hlt.trans_le h.nextCell)).trans (h.cells cell hlt),
    fun hsym => h'.symbols (h.symbols hsym)⟩

/-- The registry gives each key a cell that holds it. -/
def Registered (s : SymbolContext) : Prop :=
  ∀ sym cell, s.registry sym = some cell → cell < s.nextCell ∧ s.cells cell = sym

theorem Registered.newSymbol (h : s.Registered) (sym : TableSymbol) :
    (s.newSymbol sym).2.Registered := fun sym' cell hreg => by
  obtain ⟨hlt, hcell⟩ := h sym' cell hreg
  exact ⟨Nat.lt_succ_of_lt hlt, (Function.update_of_ne hlt.ne _ _).trans hcell⟩

theorem step_made (h : s.Registered) {x : JsValue × SymbolContext}
    (hx : machine.step s call = some x) : x.2.Registered ∧ Extends s x.2 ∧ x.2.Made call x.1 := by
  have hi := extends_intern s
  cases call with
  | symbol d =>
    obtain rfl := Option.some.inj hx
    exact ⟨Registered.newSymbol (s := (s.intern d).2) h _, (hi d).trans (extends_newSymbol _ _),
      _, _, rfl, Nat.lt_succ_self _, Function.update_self .., SymbolTable.symbols_intern⟩
  | symbolFor k =>
    obtain rfl := Option.some.inj hx
    have hsym : (s.table.intern k).2.symbols k = some (s.table.intern k).1 :=
      SymbolTable.symbols_intern
    unfold SymbolContext.symbolFor
    cases hreg : (s.intern k).2.registry (s.intern k).1 with
    | some cell =>
      obtain ⟨hlt, hcell⟩ := h _ cell hreg
      simp only [hreg]
      exact ⟨h, hi k, cell, _, rfl, hlt, hcell, hsym⟩
    | none =>
      simp only [hreg]
      refine ⟨fun sym cell hcell => ?_, (hi k).trans ⟨Nat.le_succ _,
        fun _ hlt => Function.update_of_ne hlt.ne _ _, id⟩, _, _, rfl, Nat.lt_succ_self _,
        Function.update_self .., hsym⟩
      dsimp only at hcell
      rw [Function.update_apply] at hcell
      split at hcell
      · next heq =>
        obtain rfl := Option.some.inj hcell
        exact ⟨Nat.lt_succ_self _, (Function.update_self ..).trans heq.symm⟩
      · exact Registered.newSymbol (s := (s.intern k).2) h _ sym cell hcell
  | wellKnown name =>
    obtain rfl := Option.some.inj hx
    exact ⟨Registered.newSymbol (s := (s.intern _).2) h _, (hi _).trans (extends_newSymbol _ _),
      _, _, rfl, Nat.lt_succ_self _, Function.update_self ..⟩
  | stringKey text =>
    obtain rfl := Option.some.inj hx
    exact ⟨h, hi text, trivial⟩

theorem run_made (h : s.Registered) {calls : List SymbolCall} {y : List JsValue × SymbolContext}
    (hy : machine.run s calls = some y) :
    Extends s y.2 ∧ ∀ x ∈ calls.zip y.1, y.2.Made x.1 x.2 := by
  induction calls generalizing s y with
  | nil =>
    cases hy
    exact ⟨⟨le_rfl, fun _ _ => rfl, id⟩, by simp⟩
  | cons call calls ih =>
    obtain ⟨x, hx, hy⟩ := Option.bind_eq_some_iff.mp hy
    obtain ⟨y', hy', rfl⟩ := Option.map_eq_some_iff.mp hy
    obtain ⟨hreg, hext, hmade⟩ := step_made h hx
    obtain ⟨hext', hmade'⟩ := ih hreg hy'
    refine ⟨hext.trans hext', fun z hz => ?_⟩
    rw [List.zip_cons_cons] at hz
    rcases List.mem_cons.mp hz with rfl | hz
    · exact hext'.made hmade
    · exact hmade' z hz

/-- A symbol made of a text addresses the property that the text addresses. -/
theorem keyOf_eq {cell : ℕ} {id : SymbolId} (hcell : s.cells cell = .key id)
    (hsym : s.table.symbols text = some id) : s.keyOf (.symbol cell) = s.keyOf (.string 0 text) := by
  change Except.ok (s.cells cell) = Except.ok (.key (s.table.intern text).1)
  rw [hcell, SymbolTable.intern, hsym]

theorem exists_run (s : SymbolContext) (calls : List SymbolCall) :
    ∃ answers s', machine.run s calls = some (answers, s') ∧ answers.length = calls.length := by
  induction calls generalizing s with
  | nil => exact ⟨[], s, rfl, rfl⟩
  | cons call calls ih =>
    obtain ⟨x, hx⟩ : ∃ x, machine.step s call = some x := by cases call <;> exact ⟨_, rfl⟩
    obtain ⟨answers, s', hrun, hlen⟩ := ih x.2
    exact ⟨x.1 :: answers, s', by rw [Transducer.run, hx, Option.bind_some, hrun]; rfl,
      congrArg (· + 1) hlen⟩

/-- **Symbols as keys.** The symbols of a run are keys of their own just when none of them is made by
`Symbol(d)` or `Symbol.for(k)`: such a symbol addresses the property of the string it is made of. -/
theorem separateKeys_iff (objects : ℕ → String ⊕ ℕ) (calls : List SymbolCall) :
    ∃ answers s, machine.run new calls = some (answers, s) ∧
      (SeparateKeys objects s (calls.zip answers) ↔ ∀ call ∈ calls, call.Fixed) := by
  obtain ⟨answers, s, hrun, hlen⟩ := exists_run new calls
  have hmade := (run_made (s := new) (fun _ _ h => nomatch h) hrun).2
  refine ⟨answers, s, hrun, fun h call hcall => ?_, fun h => ?_⟩
  · obtain ⟨i, hi, rfl⟩ := List.mem_iff_getElem.mp hcall
    have hi' : i < answers.length := hlen ▸ hi
    have hpair : (calls[i], answers[i]) ∈ calls.zip answers := by
      rw [← List.getElem_zip (h := by simp [hlen, hi])]
      exact List.getElem_mem _
    have hcollides : ∀ {d v}, (∃ cell id, v = JsValue.symbol cell ∧ cell < s.nextCell ∧
        s.cells cell = .key id ∧ s.table.symbols d = some id) →
          s.keyOf v = s.keyOf (.string 0 d) := by
      rintro d v ⟨cell, id, rfl, -, hcell, hsym⟩
      exact keyOf_eq hcell hsym
    have hkey := hmade _ hpair
    cases hc : calls[i] with
    | symbol d =>
      rw [hc] at hpair hkey
      exact (h.separate hpair (fun _ => nofun)).1 0 d (hcollides hkey)
    | symbolFor k =>
      rw [hc] at hpair hkey
      exact (h.separate hpair (fun _ => nofun)).1 0 k (hcollides hkey)
    | wellKnown name => trivial
    | stringKey text => trivial
  · have hfixed : ∀ {call v}, (call, v) ∈ calls.zip answers → call.Fixed := fun hmem =>
      h _ (List.of_mem_zip hmem).1
    refine ⟨fun hi => ?_, fun {call v} hmem hnot => ?_, fun hmem => ?_, fun hmem => ?_⟩
    · exact (hfixed (List.mem_of_getElem? hi)).elim
    · have hkey := hmade _ hmem
      have hfix := hfixed hmem
      cases call with
      | wellKnown name =>
        obtain ⟨cell, id, rfl, -, hcell⟩ := hkey
        have hpriv : s.keyOf (.symbol cell) = .ok (.priv id) := congrArg Except.ok hcell
        refine ⟨fun _ _ heq => ?_, fun _ heq => ?_⟩
        · exact nomatch (Except.ok.inj (hpriv.symm.trans heq) : TableSymbol.priv id = .key _)
        · exact nomatch (Except.ok.inj (hpriv.symm.trans heq) : TableSymbol.priv id = .index _)
      | stringKey text => exact absurd rfl (hnot text)
      | symbol d => exact hfix.elim
      | symbolFor k => exact hfix.elim
    · exact (hfixed hmem).elim
    · exact (hfixed hmem).elim

/-- `o[Symbol("a")]` is `o.a`, and `Symbol.keyFor` of a symbol of the registry throws. -/
theorem not_separateKeys :
    ∃ answers s, machine.run new [.symbol "a"] = some (answers, s) ∧
      s.keyOf (answers.getD 0 .undefined) = s.keyOf (.string 0 "a") ∧
        ¬ SeparateKeys (fun _ => .inl "Object") s ([.symbol "a"].zip answers) := by
  refine ⟨_, _, rfl, rfl, fun h => ?_⟩
  exact (h.separate List.mem_cons_self fun _ => nofun).1 0 "a" rfl

end SymbolContext

end Starlight
