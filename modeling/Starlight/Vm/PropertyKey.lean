import Starlight.Vm.Conversions

/-!
# Property keys

`to_symbol` makes the key of a property of a value. A number that is a `u32` becomes an index, everything
else is interned as a string, and an interned string is never an index. A key that came from a number and
one that came from its text are therefore different keys. For all other values the key is that of the text
and its description is the text.

The symbol table hands out 32-bit names, so a text keeps its name while no more than `2 ^ 32` texts are
interned.
-/

namespace Starlight

abbrev SymbolId := BitVec 32

inductive TableSymbol where
  | key (id : SymbolId)
  | priv (id : SymbolId)
  | index (i : BitVec 32)
deriving DecidableEq

/-! ### The symbol table -/

structure SymbolTable where
  symbols : String → Option SymbolId
  ids : SymbolId → Option String
  nextKey : SymbolId

namespace SymbolTable

def new : SymbolTable := ⟨fun _ => none, fun _ => none, 128⟩

/-- The table with a text under the next name. The counter wraps around. -/
def add (t : SymbolTable) (text : String) : SymbolTable where
  symbols := Function.update t.symbols text (some t.nextKey)
  ids := Function.update t.ids t.nextKey (some text)
  nextKey := t.nextKey + 1

def intern (t : SymbolTable) (text : String) : SymbolId × SymbolTable :=
  match t.symbols text with
  | some key => (key, t)
  | none => (t.nextKey, t.add text)

/-- `Context::description`; `none` where the table is asked for a name that it does not have. -/
def description (t : SymbolTable) : TableSymbol → Option String
  | .key id | .priv id => t.ids id
  | .index i => some (Nat.repr i.toNat)

def internStr (t : SymbolTable) (text : String) : TableSymbol × SymbolTable :=
  (t.intern text).map .key id

def internAll (t : SymbolTable) (texts : List String) : SymbolTable :=
  texts.foldl (fun t text => (t.intern text).2) t

/-- The name of the text, if it has one, still stands for the text. -/
def Keeps (t : SymbolTable) (text : String) : Prop :=
  ∀ id, t.symbols text = some id → t.ids id = some text

variable {t : SymbolTable} {text text' : String} {id : SymbolId}

@[simp] theorem add_symbols_self : (t.add text).symbols text = some t.nextKey := Function.update_self ..

theorem add_symbols_of_ne (h : text' ≠ text) : (t.add text).symbols text' = t.symbols text' :=
  Function.update_of_ne h ..

@[simp] theorem add_ids_self : (t.add text).ids t.nextKey = some text := Function.update_self ..

theorem add_ids_of_ne (h : id ≠ t.nextKey) : (t.add text).ids id = t.ids id :=
  Function.update_of_ne h ..

theorem description_internStr :
    (t.internStr text).2.description (t.internStr text).1 = some text ↔ t.Keeps text := by
  unfold internStr intern Keeps
  cases h : t.symbols text with
  | some key => exact ⟨fun hd id hid => Option.some.inj hid ▸ hd, fun hk => hk key rfl⟩
  | none => exact iff_of_true (Function.update_self ..) nofun

/-- The texts in `seen` have names of their own, those that were handed out. -/
structure Formed (t : SymbolTable) (seen : Finset String) : Prop where
  nextKey : t.nextKey = BitVec.ofNat 32 (128 + seen.card)
  mem_seen : ∀ {text}, t.symbols text ≠ none ↔ text ∈ seen
  handedOut : ∀ {text id}, t.symbols text = some id →
    t.ids id = some text ∧ ∃ n < seen.card, id = BitVec.ofNat 32 (128 + n)

theorem formed_new : new.Formed ∅ where
  nextKey := rfl
  mem_seen := iff_of_false (fun h => h rfl) (Finset.notMem_empty _)
  handedOut h := nomatch h

theorem Formed.intern {seen : Finset String} (h : t.Formed seen) (text : String)
    (hcard : (insert text seen).card ≤ 2 ^ 32) : (t.intern text).2.Formed (insert text seen) := by
  unfold SymbolTable.intern
  cases hs : t.symbols text with
  | some key =>
    have hmem : text ∈ seen := h.mem_seen.mp (by rw [hs]; exact Option.some_ne_none _)
    rwa [Finset.insert_eq_of_mem hmem]
  | none =>
    have hmem : text ∉ seen := fun hmem => h.mem_seen.mpr hmem hs
    rw [Finset.card_insert_of_notMem hmem] at hcard
    refine ⟨?_, fun {text'} => ?_, fun {text' id} hid => ?_⟩
    · rw [Finset.card_insert_of_notMem hmem, ← Nat.add_assoc, BitVec.ofNat_add _ 1, ← h.nextKey]
      rfl
    · rw [Finset.mem_insert, ← h.mem_seen]
      by_cases heq : text' = text
      · subst heq
        rw [add_symbols_self]
        exact iff_of_true (Option.some_ne_none _) (.inl rfl)
      · rw [add_symbols_of_ne heq]
        exact (or_iff_right heq).symm
    · rw [Finset.card_insert_of_notMem hmem]
      by_cases heq : text' = text
      · subst heq
        obtain rfl := Option.some.inj (add_symbols_self.symm.trans hid)
        exact ⟨add_ids_self, seen.card, Nat.lt_succ_self _, h.nextKey⟩
      · obtain ⟨hids, n, hn, rfl⟩ := h.handedOut ((add_symbols_of_ne heq).symm.trans hid)
        refine ⟨(add_ids_of_ne ?_).trans hids, n, by omega, rfl⟩
        -- the names are consecutive and there are fewer than `2 ^ 32` between the two
        rw [h.nextKey, ne_eq, ← BitVec.toNat_inj, BitVec.toNat_ofNat, BitVec.toNat_ofNat]
        omega

theorem formed_internAll (texts : List String) (h : texts.toFinset.card ≤ 2 ^ 32) :
    (new.internAll texts).Formed texts.toFinset := by
  induction texts using List.reverseRecOn with
  | nil => exact formed_new
  | append_singleton texts text ih =>
    have hset : (texts ++ [text]).toFinset = insert text texts.toFinset := by
      ext text'
      simp
    rw [hset] at h ⊢
    rw [internAll, List.foldl_append]
    exact (ih ((Finset.card_le_card (Finset.subset_insert _ _)).trans h)).intern text h

theorem keeps_internAll (texts : List String) (h : texts.toFinset.card ≤ 2 ^ 32) (text : String) :
    (new.internAll texts).Keeps text := fun _ hid =>
  ((formed_internAll texts h).handedOut hid).1

end SymbolTable

/-! ### Keys of values -/

namespace Conversions

variable (c : Conversions) (cells : ℕ → TableSymbol) (t : SymbolTable)

/-- `to_symbol` of what is not an object. A symbol cell holds its key. -/
def primitiveToSymbol (v : JsValue) : Except Failure (TableSymbol × SymbolTable) :=
  match v with
  | .symbol cell => .ok (cells cell, t)
  | .int32 _ | .double _ =>
    let n := v.getNumber
    if (F64.ofInt n.toU32).eq n then .ok (.index (BitVec.ofNat 32 n.toU32), t)
    else .ok (t.internStr (numberToString n))
  | .string _ s => .ok (t.internStr s)
  | .null => .ok (t.internStr "null")
  | .bool b => .ok (t.internStr (if b then "true" else "false"))
  | .undefined => .ok (t.internStr "undefined")
  | _ => .error .unreachable

def toSymbol : ℕ → JsValue → Option (Except Failure (TableSymbol × SymbolTable))
  | 0, .object _ => none
  | conversions + 1, .object o =>
    match c.objectToPrimitive o .string with
    | .ok val => toSymbol conversions val
    | .error e => some (.error e)
  | _, v => some (primitiveToSymbol cells t v)

/-- The conversions of a value for a string come to a value that is not an object. -/
inductive ComesTo : JsValue → JsValue → Prop where
  | primitive {p : JsValue} (h : p.isJsObject = false) : ComesTo p p
  | object {o : ℕ} {v p : JsValue} (h : c.objectToPrimitive o .string = .ok v) (hv : ComesTo v p) :
      ComesTo (.object o) p

variable {c cells t} {v p : JsValue} {text : String}

theorem toString_primitive (h : p.isJsObject = false) (conversions : ℕ) :
    c.toString conversions p = some (primitiveToString p) := by
  cases p <;> cases conversions <;> first | rfl | cases h

theorem toSymbol_primitive (h : p.isJsObject = false) (conversions : ℕ) :
    c.toSymbol cells t conversions p = some (primitiveToSymbol cells t p) := by
  cases p <;> cases conversions <;> first | rfl | cases h

theorem ComesTo.toString_toSymbol (h : ComesTo c v p) : ∃ conversions,
    c.toString conversions v = some (primitiveToString p) ∧
      c.toSymbol cells t conversions v = some (primitiveToSymbol cells t p) := by
  induction h with
  | primitive h => exact ⟨0, toString_primitive h 0, toSymbol_primitive h 0⟩
  | @object o v p h _ ih =>
    obtain ⟨conversions, hs, hk⟩ := ih
    refine ⟨conversions + 1, ?_, ?_⟩
    · rw [toString, h]
      exact hs
    · rw [toSymbol, h]
      exact hk

theorem comesTo_of_toString {conversions : ℕ} (h : c.toString conversions v = some (.ok text)) :
    ∃ p, ComesTo c v p ∧ primitiveToString p = .ok text ∧
      c.toSymbol cells t conversions v = some (primitiveToSymbol cells t p) := by
  induction conversions generalizing v with
  | zero =>
    have hv : v.isJsObject = false := by
      cases v <;> first | rfl | cases h
    rw [toString_primitive hv] at h
    exact ⟨v, .primitive hv, Option.some.inj h, toSymbol_primitive hv 0⟩
  | succ conversions ih =>
    cases hv : v.isJsObject with
    | false =>
      rw [toString_primitive hv] at h
      exact ⟨v, .primitive hv, Option.some.inj h, toSymbol_primitive hv _⟩
    | true =>
      cases v <;> try cases hv
      next o =>
      rw [toString] at h
      cases ho : c.objectToPrimitive o .string with
      | error e => rw [ho] at h; cases h
      | ok w =>
        rw [ho] at h
        obtain ⟨p, hp, htext, hkey⟩ := ih h
        refine ⟨p, .object ho hp, htext, ?_⟩
        rw [toSymbol, ho]
        exact hkey

end Conversions

def CanonicalIndex (text : String) : Prop := ∃ i ≤ 2 ^ 32 - 2, text = Nat.repr i

namespace JsValue

/-- The value is a `u32`: `n as u32 as f64 == n`. -/
def IsIndexNumber (v : JsValue) : Prop :=
  v.isNumber = true ∧ (F64.ofInt v.getNumber.toU32).eq v.getNumber = true

def IsIndexKey (v : JsValue) : Prop :=
  v.IsIndexNumber ∨ v.isString = true ∧ CanonicalIndex v.getText

end JsValue

section

open Conversions JsValue

variable {c : Conversions} {cells : ℕ → TableSymbol} {t : SymbolTable} {v p : JsValue} {text : String}

theorem isIndexKey_of_canonical (h : primitiveToString p = .ok text) (hc : CanonicalIndex text) :
    p.IsIndexKey := by
  obtain ⟨i, hi, rfl⟩ := hc
  have hnumber : ∀ d : F64, numberToString d = Nat.repr i → (F64.ofInt d.toU32).eq d = true := by
    intro d hd
    rw [eq_of_numberToString (by omega) hd, toU32_ofInt (by omega)]
    exact decide_eq_true rfl
  have hword : ∀ {s : String}, (∃ ch ∈ s.toList, ch.isDigit = false) → s ≠ Nat.repr i := by
    rintro s ⟨ch, hch, hdigit⟩ rfl
    exact absurd ((isDigit_of_mem_repr hch).symm.trans hdigit) (by decide)
  cases p with
  | int32 j | double d => exact .inl ⟨rfl, hnumber _ (Except.ok.inj h)⟩
  | string cell s => exact .inr ⟨rfl, i, hi, Except.ok.inj h⟩
  | undefined => exact absurd (Except.ok.inj h) (hword ⟨'u', .head _, rfl⟩)
  | null => exact absurd (Except.ok.inj h) (hword ⟨'n', .head _, rfl⟩)
  | bool b =>
    cases b with
    | true => exact absurd (Except.ok.inj h) (hword ⟨'t', .head _, rfl⟩)
    | false => exact absurd (Except.ok.inj h) (hword ⟨'f', .head _, rfl⟩)
  | _ => cases h

theorem primitiveToSymbol_of_not_index (hp : ¬ p.IsIndexNumber)
    (h : primitiveToString p = .ok text) : primitiveToSymbol cells t p = .ok (t.internStr text) := by
  cases p with
  | int32 i | double d =>
    obtain rfl := Except.ok.inj h
    exact if_neg fun heq => hp ⟨rfl, heq⟩
  | string cell s | undefined | null | bool b => rw [← Except.ok.inj h]; rfl
  | _ => cases h

theorem primitiveToSymbol_of_index (hp : p.IsIndexNumber) :
    ∃ i, primitiveToSymbol cells t p = .ok (.index i, t) := by
  cases p <;> first
    | exact ⟨_, if_pos hp.2⟩
    | exact nomatch hp.1

/-- A value and its text have one key, an index just when the text is an array index, and the description
of the key is the text. -/
def KeyOfText (c : Conversions) (cells : ℕ → TableSymbol) (t : SymbolTable) (v : JsValue) : Prop :=
  ∀ conversions text, c.toString conversions v = some (.ok text) →
    (∀ cell, c.toSymbol cells t conversions v = c.toSymbol cells t conversions (.string cell text)) ∧
    ((∃ i, (t.internStr text).1 = .index i) ↔ CanonicalIndex text) ∧
    ∀ sym t', c.toSymbol cells t conversions v = some (.ok (sym, t')) → t'.description sym = some text

/-- **Property keys.** The key of a value is that of its text, with the text as its description, just when
the value is neither a number that is a `u32` nor the text of an array index, and the text has kept its
name. Texts keep their names while no more than `2 ^ 32` of them are interned. -/
theorem keyOfText_iff (c : Conversions) (cells : ℕ → TableSymbol) (t : SymbolTable) (v : JsValue) :
    (KeyOfText c cells t v ↔ ∀ p text, ComesTo c v p →
      primitiveToString p = .ok text → ¬ p.IsIndexKey ∧ t.Keeps text) ∧
    ∀ texts : List String, texts.toFinset.card ≤ 2 ^ 32 →
      ∀ text, (SymbolTable.new.internAll texts).Keeps text := by
  refine ⟨⟨fun h p text hp htext => ?_, fun h conversions text hs => ?_⟩,
    SymbolTable.keeps_internAll⟩
  · obtain ⟨conversions, hs, hk⟩ : ∃ conversions, c.toString conversions v = some (primitiveToString p) ∧
        c.toSymbol cells t conversions v = some (primitiveToSymbol cells t p) := hp.toString_toSymbol
    obtain ⟨hkey, hindex, hdesc⟩ := h conversions text (htext ▸ hs)
    -- the value and its text have one key, and that of a text is never an index
    have hsym : primitiveToSymbol cells t p = .ok (t.internStr text) := by
      have hstring : ∀ conversions, c.toSymbol cells t conversions (.string 0 text) =
          some (.ok (t.internStr text)) := toSymbol_primitive rfl
      exact Option.some.inj (hk.symm.trans ((hkey 0).trans (hstring conversions)))
    have hcanonical : ¬ CanonicalIndex text := fun hc => by
      obtain ⟨i, hi⟩ := hindex.mpr hc
      cases hi
    refine ⟨?_, SymbolTable.description_internStr.mp (hdesc _ _ (hk.trans (congrArg some hsym)))⟩
    rintro (hnum | ⟨hstr, hc⟩)
    · obtain ⟨i, hi⟩ : ∃ i, primitiveToSymbol cells t p = .ok (.index i, t) :=
        primitiveToSymbol_of_index hnum
      cases Except.ok.inj (hi.symm.trans hsym)
    · cases p <;> try cases hstr
      obtain rfl := Except.ok.inj htext
      exact hcanonical hc
  · obtain ⟨p, hp, htext, hk⟩ := comesTo_of_toString hs
    obtain ⟨hindex, hkeeps⟩ := h p text hp htext
    have hsym : primitiveToSymbol cells t p = .ok (t.internStr text) :=
      primitiveToSymbol_of_not_index (fun h => hindex (.inl h)) htext
    refine ⟨fun cell => ?_, iff_of_false ?_ fun hc => hindex (isIndexKey_of_canonical htext hc), ?_⟩
    · rw [hk, hsym, toSymbol_primitive (p := .string cell text) rfl]
      rfl
    · rintro ⟨i, hi⟩
      cases hi
    · intro sym t' h'
      rw [hk, hsym] at h'
      obtain ⟨rfl, rfl⟩ := Prod.mk.inj (Except.ok.inj (Option.some.inj h'))
      exact SymbolTable.description_internStr.mpr hkeeps

/-- `o[5]` and `o["5"]` are different properties. -/
theorem toSymbol_five :
    primitiveToString (.int32 5) = .ok "5" ∧ CanonicalIndex "5" ∧
      primitiveToSymbol (fun _ => .index 0) .new (.int32 5) = .ok (.index 5, .new) ∧
      (SymbolTable.new.internStr "5").1 = .key 128 := by
  have htext : numberToString (F64.ofInt 5) = "5" := by decide +kernel
  exact ⟨congrArg Except.ok htext, ⟨5, by decide, rfl⟩, rfl, rfl⟩

end

end Starlight
