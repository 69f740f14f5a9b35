import Starlight.Modules.Loader

/-!
# Modules are evaluated once

The table is filled when a body has run to its end, under the path as the import spells it. So the
loader returns, and runs each body once, if no file imports itself through others and each file is
imported under one spelling; `Loadable` states this for the paths that a session uses.
-/

namespace Starlight.Modules

variable {File Source W E : Type} {fs : FileSystem File Source} {compile : Compiler Source W E}
  {keys : Set String} {mains spent : List File} {f g : File} {k rel name : String}
  {c c' c'' : Context File W E}

/-! ### The graph of imports -/

/-- The names that a file imports, if it can be read and compiled. -/
def importsOf (fs : FileSystem File Source) (compile : Compiler Source W E) (f : File) :
    List String :=
  match fs.readToString f with
  | .error _ => []
  | .ok source =>
    match compile source with
    | .error _ => []
    | .ok body => importNames body

def Imports (fs : FileSystem File Source) (compile : Compiler Source W E) (g f : File) : Prop :=
  ∃ name ∈ importsOf fs compile f, fs.canonicalize (modulePath (fs.parent f) name) = .ok g

/-- The paths under which the files of a session are imported, and the main programs: each file has one
path, none imports itself through others, and a main program is no module. -/
structure Loadable (fs : FileSystem File Source) (compile : Compiler Source W E) (keys : Set String)
    (mains : List File) : Prop where
  closed : ∀ {f}, (f ∈ mains ∨ ∃ k ∈ keys, fs.canonicalize k = .ok f) →
    ∀ name ∈ importsOf fs compile f, modulePath (fs.parent f) name ∈ keys
  one_spelling : ∀ {k k' f}, k ∈ keys → k' ∈ keys → fs.canonicalize k = .ok f →
    fs.canonicalize k' = .ok f → k = k'
  acyclic : ∀ {k f}, k ∈ keys → fs.canonicalize k = .ok f → Acc (Imports fs compile) f
  mains_apart : ∀ {k f}, k ∈ keys → f ∈ mains → fs.canonicalize k ≠ .ok f

/-! ### What holds between the loads -/

/-- The table has a module object for the path. -/
def Context.Initialized (c : Context File W E) (k : String) : Prop :=
  ∃ module, c.modules k = some (.initialized module)

/-- Only paths of the files that `below` allows have entries that were not there before, and these are
module objects. -/
def Extends (fs : FileSystem File Source) (below : File → Prop) (c c' : Context File W E) : Prop :=
  ∀ k, c'.modules k = c.modules k ∨
    ∃ g, fs.canonicalize k = .ok g ∧ below g ∧ ¬ c.Initialized k ∧ c'.Initialized k

theorem Extends.refl (below : File → Prop) (c : Context File W E) : Extends fs below c c :=
  fun _ => .inl rfl

theorem Extends.trans {below : File → Prop} (h : Extends fs below c c')
    (h' : Extends fs below c' c'') : Extends fs below c c'' := by
  intro k
  rcases h' k with h' | ⟨g, hg, hb, hno, hi⟩
  · rcases h k with h | ⟨g, hg, hb, hno, hi⟩
    · exact .inl (h'.trans h)
    · refine .inr ⟨g, hg, hb, hno, ?_⟩
      unfold Context.Initialized
      rwa [h']
  · refine .inr ⟨g, hg, hb, fun hc => hno ?_, hi⟩
    rcases h k with h | ⟨-, -, -, hno', -⟩
    · unfold Context.Initialized
      rwa [h]
    · exact absurd hc hno'

theorem Extends.mono {below below' : File → Prop} (h : Extends fs below c c')
    (hb : ∀ g, below g → below' g) : Extends fs below' c c' := fun k =>
  (h k).imp id fun ⟨g, hg, hbg, hr⟩ => ⟨g, hg, hb g hbg, hr⟩

theorem mem_observe {e e' : Event File} : e ∈ (c.observe e').log ↔ e ∈ c.log ∨ e = e' := by
  unfold Context.observe
  rw [List.mem_append, List.mem_singleton]

theorem moduleLoad_not_found (compile : Compiler Source W E) {e : String}
    (he : fs.canonicalize (modulePath rel name) = .error e) (c : Context File W E) :
    ∃ e', ∀ m, 1 ≤ m → moduleLoad fs compile m rel name c = some (.error e', c) := by
  refine ⟨.referenceError s!"Module '{modulePath rel name}' not found: '{e}'", fun m hm => ?_⟩
  obtain ⟨m, rfl⟩ := Nat.exists_eq_add_of_le' hm
  unfold moduleLoad
  dsimp only
  rw [he]

theorem not_transGen_self (hacc : Acc (Imports fs compile) f) :
    ¬ Relation.TransGen (Imports fs compile) f f := by
  have htrans := hacc.transGen
  clear hacc
  induction htrans with
  | intro f _ ih => exact fun h => ih f h h

theorem modules_of_effect {run : Effect W E} {e : Option E} (h : c.effect run = (c', e)) :
    c'.modules = c.modules := (congrArg (fun x => x.1.modules) h).symm

theorem modules_of_initialized (hk : c.Initialized (modulePath rel name)) {m : ℕ}
    {r : Except (JsError E) ℕ} (h : moduleLoad fs compile m rel name c = some (r, c')) :
    c'.modules = c.modules := by
  obtain ⟨x, hx⟩ := hk
  cases m with
  | zero => cases h
  | succ m =>
    unfold moduleLoad at h
    dsimp only at h
    split at h
    · cases h
      rfl
    · rw [hx] at h
      cases h
      rfl

theorem modules_of_runBody {items : List (Item W E)} {m : ℕ} {r : Except (JsError E) Unit}
    (hinit : ∀ name ∈ importNames items, c.Initialized (modulePath rel name))
    (h : runBody (moduleLoad fs compile m) rel items c = some (r, c')) : c'.modules = c.modules := by
  induction items generalizing c with
  | nil => cases h; rfl
  | cons item items ih =>
    have hrest : ∀ {c₁ : Context File W E}, c₁.modules = c.modules →
        (∀ name ∈ importNames items, name ∈ importNames (item :: items)) →
        runBody (moduleLoad fs compile m) rel items c₁ = some (r, c') → c'.modules = c.modules := by
      intro c₁ hm hsub h₁
      refine (ih (fun name hn => ?_) h₁).trans hm
      unfold Context.Initialized
      rw [hm]
      exact hinit name (hsub name hn)
    cases item with
    | stmt run =>
      unfold runBody at h
      split at h
      · next heq => cases h; exact modules_of_effect heq
      · next heq => exact hrest (modules_of_effect heq) (fun _ => id) h
    | import_ name bind =>
      have hname := hinit name (List.mem_cons_self ..)
      unfold runBody at h
      split at h
      · cases h
      · next heq => cases h; exact modules_of_initialized hname heq
      · next heq =>
        have hm := modules_of_initialized hname heq
        split at h
        · next heq' => cases h; exact (modules_of_effect heq').trans hm
        · next heq' =>
          exact hrest ((modules_of_effect heq').trans hm) (fun _ => List.mem_cons_of_mem _) h

theorem modules_of_error {m : ℕ} {e : JsError E}
    (hinit : ∀ f, fs.canonicalize (modulePath rel name) = .ok f → ∀ name' ∈ importsOf fs compile f,
      c.Initialized (modulePath (fs.parent f) name'))
    (h : moduleLoad fs compile m rel name c = some (.error e, c')) : c'.modules = c.modules := by
  cases m with
  | zero => cases h
  | succ m =>
    unfold moduleLoad at h
    dsimp only at h
    split at h
    · cases h
      rfl
    next f hcan =>
    split at h
    · cases h
    · split at h
      · next heq =>
        cases h
        exact modules_of_effect (c := { c with next := c.next + 1 }) heq
      · cases h
    · split at h
      · cases h; rfl
      next source hread =>
      split at h
      · cases h; rfl
      next body hcomp =>
      split at h
      · cases h
      · next heq =>
        cases h
        have himports : importsOf fs compile f = importNames body := by
          unfold importsOf
          rw [hread]
          dsimp only
          rw [hcomp]
        exact (modules_of_runBody (c := ({ c with next := c.next + 1 } : Context File W E).observe
          (.started f)) (fun name' hn => hinit f hcan name' (himports ▸ hn)) heq : _ = c.modules)
      · cases h

variable [DecidableEq File]

/-- The bodies that were started and the module objects that were received fit the table. The files
`spent` are those whose bodies are running, and the main programs. -/
structure Inv (fs : FileSystem File Source) (keys : Set String) (spent : List File)
    (c : Context File W E) : Prop where
  once : ∀ f, c.log.count (.started f) ≤ c.log.count (.threw f) + 1
  unspent : ∀ f, f ∉ spent → (∀ k ∈ keys, fs.canonicalize k = .ok f → ¬ c.Initialized k) →
    c.log.count (.started f) ≤ c.log.count (.threw f)
  same : ∀ f module, .imported f module ∈ c.log →
    ∃ k ∈ keys, fs.canonicalize k = .ok f ∧ c.modules k = some (.initialized module)

theorem Inv.congr (h : Inv fs keys spent c) (hm : c'.modules = c.modules) (hl : c'.log = c.log) :
    Inv fs keys spent c' := by
  refine ⟨fun f => ?_, fun f hf hno => ?_, fun f module he => ?_⟩
  · rw [hl]
    exact h.once f
  · rw [hl]
    refine h.unspent f hf fun k hk hkf hi => hno k hk hkf ?_
    unfold Context.Initialized
    rwa [hm]
  · rw [hl] at he
    rw [hm]
    exact h.same f module he

@[simp] theorem count_observe (c : Context File W E) (e e' : Event File) :
    (c.observe e).log.count e' = c.log.count e' + if e = e' then 1 else 0 := by
  unfold Context.observe
  rw [List.count_append, List.count_singleton]
  simp only [beq_iff_eq]

theorem Inv.start (h : Inv fs keys spent c) (hf : f ∉ spent)
    (hno : ∀ k ∈ keys, fs.canonicalize k = .ok f → ¬ c.Initialized k) :
    Inv fs keys (f :: spent) (c.observe (.started f)) := by
  have hle := h.unspent f hf hno
  refine ⟨fun g => ?_, fun g hg hno' => ?_, fun g module he => ?_⟩
  · simp only [count_observe, Event.started.injEq, reduceCtorEq, if_false, Nat.add_zero]
    split
    · next hfg => exact hfg ▸ Nat.succ_le_succ hle
    · exact h.once g
  · obtain ⟨hne, hg⟩ := not_or.mp (mt List.mem_cons.mpr hg)
    simp only [count_observe, Event.started.injEq, Ne.symm hne, reduceCtorEq, if_false, Nat.add_zero]
    exact h.unspent g hg hno'
  · exact h.same g module ((mem_observe.mp he).resolve_right fun hc => nomatch hc)

theorem Inv.throw (h : Inv fs keys (f :: spent) c) : Inv fs keys spent (c.observe (.threw f)) := by
  refine ⟨fun g => ?_, fun g hg hno => ?_, fun g module he => ?_⟩
  · simp only [count_observe, reduceCtorEq, if_false, Nat.add_zero]
    exact (h.once g).trans (Nat.succ_le_succ (Nat.le_add_right _ _))
  · simp only [count_observe, Event.threw.injEq, reduceCtorEq, if_false, Nat.add_zero]
    split
    · next hfg => exact hfg ▸ h.once f
    · next hfg =>
      refine h.unspent g (fun hc => ?_) hno
      rcases List.mem_cons.mp hc with hc | hc
      · exact hfg hc.symm
      · exact hg hc
  · exact h.same g module ((mem_observe.mp he).resolve_right fun hc => nomatch hc)

theorem Inv.receive (h : Inv fs keys spent c) (hk : k ∈ keys) (hkf : fs.canonicalize k = .ok f)
    {module : ℕ} (hm : c.modules k = some (.initialized module)) :
    Inv fs keys spent (c.observe (.imported f module)) := by
  refine ⟨fun g => ?_, fun g hg hno => ?_, fun g module' he => ?_⟩
  · simp only [count_observe, reduceCtorEq, if_false, Nat.add_zero]
    exact h.once g
  · simp only [count_observe, reduceCtorEq, if_false, Nat.add_zero]
    exact h.unspent g hg hno
  · rcases mem_observe.mp he with he | he
    · exact h.same g module' he
    · cases he
      exact ⟨k, hk, hkf, hm⟩

theorem Inv.insert {finished : List File} (h : Inv fs keys (finished ++ spent) c) (hk : k ∈ keys)
    (hkf : fs.canonicalize k = .ok f) (hfin : ∀ g ∈ finished, g = f) (hno : ¬ c.Initialized k)
    (module : ℕ) : Inv fs keys spent (c.insert k module) := by
  have hins : ∀ k', (c.insert k module).modules k' =
      if k' = k then some (.initialized module) else c.modules k' :=
    fun k' => Function.update_apply _ _ _ _
  refine ⟨h.once, fun g hg hno' => ?_, fun g module' he => ?_⟩
  · have hgf : g ≠ f := by
      rintro rfl
      exact hno' k hk hkf ⟨module, by rw [hins, if_pos rfl]⟩
    refine h.unspent g (fun hc => ?_) fun k' hk' hkg hi => hno' k' hk' hkg ?_
    · rcases List.mem_append.mp hc with hc | hc
      · exact hgf (hfin g hc)
      · exact hg hc
    · unfold Context.Initialized
      rw [hins]
      split
      · exact ⟨module, rfl⟩
      · exact hi
  · obtain ⟨k', hk', hkg, hm⟩ := h.same g module' he
    refine ⟨k', hk', hkg, ?_⟩
    rw [hins, if_neg]
    · exact hm
    · rintro rfl
      exact hno ⟨module', hm⟩

/-! ### The recursion over the imports -/

/-- The spent files import `f`, directly or not, or are no modules. -/
def Apart (fs : FileSystem File Source) (compile : Compiler Source W E) (keys : Set String)
    (spent : List File) (f : File) : Prop :=
  ∀ g ∈ spent, Relation.TransGen (Imports fs compile) f g ∨ ∀ k ∈ keys, fs.canonicalize k ≠ .ok g

/-- The loader returns for every path of file `f`, whatever the fuel from some amount on; only the file
and those that it imports, directly or not, get entries, and the path itself gets none on an error. -/
def Loads (fs : FileSystem File Source) (compile : Compiler Source W E) (keys : Set String)
    (f : File) : Prop :=
  ∀ rel name, modulePath rel name ∈ keys → fs.canonicalize (modulePath rel name) = .ok f →
    ∀ (spent : List File) (c : Context File W E), Inv fs keys spent c →
      Apart fs compile keys spent f →
        ∃ n r c', (∀ m, n ≤ m → moduleLoad fs compile m rel name c = some (r, c')) ∧
          Inv fs keys spent c' ∧
          Extends fs (fun g => Relation.ReflTransGen (Imports fs compile) g f) c c' ∧
          ∀ e, r = .error e → c'.modules (modulePath rel name) = c.modules (modulePath rel name)

theorem runBody_spec {below : File → Prop} (items : List (Item W E))
    (himports : ∀ name ∈ importNames items, modulePath rel name ∈ keys ∧
      ∀ g, fs.canonicalize (modulePath rel name) = .ok g → Loads fs compile keys g ∧
        Apart fs compile keys spent g ∧ ∀ h, Relation.ReflTransGen (Imports fs compile) h g → below h)
    (hinv : Inv fs keys spent c) :
    ∃ n r c', (∀ m, n ≤ m → runBody (moduleLoad fs compile m) rel items c = some (r, c')) ∧
      Inv fs keys spent c' ∧ Extends fs below c c' := by
  induction items generalizing c with
  | nil => exact ⟨0, .ok (), c, fun _ _ => rfl, hinv, Extends.refl below c⟩
  | cons item items ih =>
    -- after the effect of a statement the rest of the body runs, unless it throws
    have heffect : ∀ {c₁ : Context File W E} (run : Effect W E), Inv fs keys spent c₁ →
        (∀ name ∈ importNames items, name ∈ importNames (item :: items)) →
        ∃ n r c', (∀ m, n ≤ m →
            runBody (moduleLoad fs compile m) rel (.stmt run :: items) c₁ = some (r, c')) ∧
          Inv fs keys spent c' ∧ Extends fs below c₁ c' := by
      intro c₁ run hinv₁ hsub
      have hinv₂ : Inv fs keys spent (c₁.effect run).1 := hinv₁.congr rfl rfl
      have hsame : Extends fs below c₁ (c₁.effect run).1 := fun _ => .inl rfl
      cases he : (run c₁.world).2 with
      | some e =>
        refine ⟨0, .error (.value e), (c₁.effect run).1, fun _ _ => ?_, hinv₂, hsame⟩
        unfold runBody Context.effect
        rw [he]
      | none =>
        obtain ⟨n, r, c', hrun, hinv', hext⟩ :=
          @ih (c₁.effect run).1 (fun name hn => himports name (hsub name hn)) hinv₂
        refine ⟨n, r, c', fun m hm => ?_, hinv', hsame.trans hext⟩
        rw [← hrun m hm]
        conv_lhs => unfold runBody Context.effect
        rw [he]
        rfl
    cases item with
    | stmt run => exact heffect run hinv fun _ => id
    | import_ name bind =>
      obtain ⟨hkey, hfile⟩ := himports name (List.mem_cons_self ..)
      cases hcan : fs.canonicalize (modulePath rel name) with
      | error e =>
        obtain ⟨e', he'⟩ := moduleLoad_not_found compile hcan c
        refine ⟨1, .error e', c, fun m hm => ?_, hinv, Extends.refl below c⟩
        unfold runBody
        rw [he' m hm]
      | ok g =>
        obtain ⟨hloads, hapart, hbelow⟩ := hfile g hcan
        obtain ⟨n, r, c₁, hload, hinv₁, hext₁, -⟩ := hloads rel name hkey hcan spent c hinv hapart
        have hext₁ := hext₁.mono hbelow
        cases r with
        | error e =>
          refine ⟨n, .error e, c₁, fun m hm => ?_, hinv₁, hext₁⟩
          unfold runBody
          rw [hload m hm]
        | ok module =>
          obtain ⟨n', r, c₂, hrun, hinv₂, hext₂⟩ :=
            heffect (bind module) hinv₁ fun _ => List.mem_cons_of_mem _
          refine ⟨max n n', r, c₂, fun m hm => ?_, hinv₂, hext₁.trans hext₂⟩
          unfold runBody
          rw [hload m (le_trans (le_max_left n n') hm)]
          exact hrun m (le_trans (le_max_right n n') hm)

theorem Loadable.loads_body (h : Loadable fs compile keys mains) (ih : ∀ g, Imports fs compile g f → Loads fs compile keys g)
    {source : Source} {body : List (Item W E)} (hread : fs.readToString f = .ok source)
    (hcomp : compile source = .ok body) (hfile : f ∈ mains ∨ ∃ k ∈ keys, fs.canonicalize k = .ok f)
    (hf : f ∉ spent) (hno : ∀ k ∈ keys, fs.canonicalize k = .ok f → ¬ c.Initialized k)
    (hinv : Inv fs keys spent c) (hapart : Apart fs compile keys spent f) :
    ∃ n r c', (∀ m, n ≤ m → runBody (moduleLoad fs compile m) (fs.parent f) body
        (c.observe (.started f)) = some (r, c')) ∧
      Inv fs keys (f :: spent) c' ∧
      Extends fs (fun g => Relation.TransGen (Imports fs compile) g f) c c' := by
  have himports : importsOf fs compile f = importNames body := by
    unfold importsOf
    rw [hread]
    dsimp only
    rw [hcomp]
  refine runBody_spec body (fun name hn => ⟨h.closed hfile name (himports ▸ hn), fun g hg => ?_⟩)
    (hinv.start hf hno)
  have himp : Imports fs compile g f := ⟨name, himports ▸ hn, hg⟩
  refine ⟨ih g himp, fun g' hg' => ?_, fun g' hg' => Relation.TransGen.tail' hg' himp⟩
  rcases List.mem_cons.mp hg' with rfl | hg'
  · exact .inl (.single himp)
  · exact (hapart g' hg').imp (.head himp) id

/-- What a load makes of the outcome of the body. -/
def afterBody (f : File) (spath : String) (module : ℕ) : Outcome File W E Unit → Outcome File W E ℕ
  | none => none
  | some (.error e, c) => some (.error e, c.observe (.threw f))
  | some (.ok (), c) => some (.ok module, (c.insert spath module).observe (.imported f module))

theorem Loadable.loads (h : Loadable fs compile keys mains) (hacc : Acc (Imports fs compile) f) :
    Loads fs compile keys f := by
  induction hacc with
  | intro f hsub ih =>
  intro rel name hkey hcan spent c hinv hapart
  have hacc := Acc.intro f hsub
  obtain ⟨c₁, hc₁⟩ : ∃ c₁ : Context File W E, c₁ = { c with next := c.next + 1 } := ⟨_, rfl⟩
  have hmods : c₁.modules = c.modules := hc₁ ▸ rfl
  have hinv₁ : Inv fs keys spent c₁ := hinv.congr hmods (hc₁ ▸ rfl)
  have hrefl : Relation.ReflTransGen (Imports fs compile) f f := .refl
  have hsame : ∀ {c' : Context File W E}, c'.modules = c.modules →
      Extends fs (fun g => Relation.ReflTransGen (Imports fs compile) g f) c c' :=
    fun heq k => .inl (congrFun heq k)
  -- the new entry of the table is that of the path itself
  have hnew : ∀ {c' : Context File W E}, Extends fs
      (fun g => Relation.ReflTransGen (Imports fs compile) g f) c c' → ¬ c.Initialized (modulePath rel name) →
      Extends fs (fun g => Relation.ReflTransGen (Imports fs compile) g f) c
        ((c'.insert (modulePath rel name) c.next).observe (.imported f c.next)) := by
    intro c' hext hno k
    by_cases hk : k = modulePath rel name
    · exact .inr ⟨f, hk ▸ hcan, hrefl, hk ▸ hno, c.next, by
        rw [hk]; exact Function.update_self _ _ _⟩
    · have hkeep : ((c'.insert (modulePath rel name) c.next).observe
          (.imported f c.next)).modules k = c'.modules k := Function.update_of_ne hk _ _
      unfold Context.Initialized
      rw [hkeep]
      exact hext k
  cases hm : c₁.modules (modulePath rel name) with
  | some kind =>
    cases kind with
    | initialized x =>
      refine ⟨1, .ok x, c₁.observe (.imported f x), fun m hle => ?_, hinv₁.receive hkey hcan hm,
        hsame hmods, nofun⟩
      obtain ⟨m, rfl⟩ := Nat.exists_eq_add_of_le' hle
      unfold moduleLoad
      dsimp only
      rw [hcan]
      dsimp only
      rw [← hc₁, ← hmods, hm]
    | nativeUninit init =>
      have hno : ¬ c₁.Initialized (modulePath rel name) := fun ⟨x, hx⟩ => by
        cases hm.symm.trans hx
      have hinv₂ : Inv fs keys spent (c₁.effect (init c.next)).1 := hinv₁.congr rfl rfl
      cases he : (init c.next c₁.world).2 with
      | some e =>
        refine ⟨1, .error (.value e), (c₁.effect (init c.next)).1, fun m hle => ?_, hinv₂,
          hsame hmods, fun _ _ => congrFun hmods _⟩
        obtain ⟨m, rfl⟩ := Nat.exists_eq_add_of_le' hle
        unfold moduleLoad
        dsimp only
        rw [hcan]
        dsimp only
        rw [← hc₁, ← hmods, hm]
        dsimp only [Context.effect]
        rw [he]
      | none =>
        have hins := @Inv.insert _ _ _ _ fs keys spent f (modulePath rel name) _ _ [] hinv₂ hkey hcan
          nofun hno c.next
        refine ⟨1, .ok c.next, _, fun m hle => ?_,
          hins.receive hkey hcan (Function.update_self _ _ _),
          hnew (hsame hmods) fun hc => hno (by unfold Context.Initialized; rwa [hmods]), nofun⟩
        obtain ⟨m, rfl⟩ := Nat.exists_eq_add_of_le' hle
        unfold moduleLoad
        dsimp only
        rw [hcan]
        dsimp only
        rw [← hc₁, ← hmods, hm]
        dsimp only [Context.effect]
        rw [he]
  | none =>
    have hnone : ¬ c₁.Initialized (modulePath rel name) := fun ⟨x, hx⟩ => by cases hm.symm.trans hx
    have hround : ∀ {n : ℕ} {r : Except (JsError E) ℕ} {c' : Context File W E},
        (∀ m, n ≤ m → (match fs.readToString f with
          | .error e => some (.error (.typeError
              s!"Failed to read module '{modulePath rel name}': {e}"), c₁)
          | .ok source => match compile source with
            | .error e => some (.error e, c₁)
            | .ok body => afterBody f (modulePath rel name) c.next
                (runBody (moduleLoad fs compile m) (fs.parent f) body (c₁.observe (.started f)))) =
            some (r, c')) →
        ∀ m, n + 1 ≤ m → moduleLoad fs compile m rel name c = some (r, c') := by
      intro n r c' heq m hle
      obtain ⟨m, rfl⟩ := Nat.exists_eq_add_of_le' (Nat.le_of_add_left_le hle)
      unfold moduleLoad
      dsimp only
      rw [hcan]
      dsimp only
      rw [← hc₁, ← hmods, hm]
      exact heq m (Nat.le_of_succ_le_succ hle)
    cases hread : fs.readToString f with
    | error e =>
      refine ⟨1, .error (.typeError s!"Failed to read module '{modulePath rel name}': {e}"), c₁,
        hround fun m _ => ?_, hinv₁, hsame hmods, fun _ _ => congrFun hmods _⟩
      rw [hread]
    | ok source =>
      cases hcomp : compile source with
      | error e =>
        refine ⟨1, .error e, c₁, hround fun m _ => ?_, hinv₁, hsame hmods,
          fun _ _ => congrFun hmods _⟩
        rw [hread]
        dsimp only
        rw [hcomp]
      | ok body =>
        have hno : ∀ k ∈ keys, fs.canonicalize k = .ok f → ¬ c₁.Initialized k := fun k hk hkf =>
          h.one_spelling hkey hk hcan hkf ▸ hnone
        have hf : f ∉ spent := fun hc => (hapart f hc).elim (not_transGen_self hacc)
          fun hc => hc _ hkey hcan
        obtain ⟨n, r, c₂, hrun, hinv₂, hext⟩ := h.loads_body ih hread hcomp
          (.inr ⟨_, hkey, hcan⟩) hf hno hinv₁ hapart
        -- the files below do not touch the entry of this one
        have hkeep : c₂.modules (modulePath rel name) = c₁.modules (modulePath rel name) := by
          rcases hext (modulePath rel name) with heq | ⟨g, hg, hbelow, -⟩
          · exact heq
          · obtain rfl := Except.ok.inj (hg.symm.trans hcan)
            exact absurd hbelow (not_transGen_self hacc)
        have hext' : Extends fs (fun g => Relation.ReflTransGen (Imports fs compile) g f) c c₂ :=
          (hsame hmods).trans (hext.mono fun _ => Relation.TransGen.to_reflTransGen)
        cases r with
        | error e =>
          refine ⟨n + 1, .error e, c₂.observe (.threw f), hround fun m hle => ?_, hinv₂.throw,
            hext', fun _ _ => hkeep.trans (congrFun hmods _)⟩
          rw [hread]
          dsimp only
          rw [hcomp]
          dsimp only
          rw [hrun m hle]
          rfl
        | ok _ =>
          have hnone₂ : ¬ c₂.Initialized (modulePath rel name) := by
            unfold Context.Initialized
            rwa [hkeep]
          have hins := @Inv.insert _ _ _ _ fs keys spent f (modulePath rel name) _ _ [f] hinv₂ hkey
            hcan (fun g hg => List.mem_singleton.mp hg) hnone₂ c.next
          refine ⟨n + 1, .ok c.next, _, hround fun m hle => ?_,
            hins.receive hkey hcan (Function.update_self _ _ _),
            hnew hext' fun hc => hnone (by unfold Context.Initialized; rwa [hmods]), nofun⟩
          rw [hread]
          dsimp only
          rw [hcomp]
          dsimp only
          rw [hrun m hle]
          rfl

/-! ### Sessions -/

theorem Inv.mono {spent' : List File} (h : Inv fs keys spent c) (hsub : ∀ g ∈ spent, g ∈ spent') :
    Inv fs keys spent' c :=
  ⟨h.once, fun f hf => h.unspent f fun hc => hf (hsub f hc), h.same⟩

/-- The computation returns `a`, whatever the fuel from some amount on. -/
def Returns {α : Type} (run : ℕ → Option α) (a : α) : Prop := ∃ n, ∀ m, n ≤ m → run m = some a

theorem Returns.map {α β : Type} {run : ℕ → Option α} {a : α} (h : Returns run a) (g : α → β) :
    Returns (fun m => (run m).map g) (g a) :=
  h.imp fun _ hn m hm => congrArg (Option.map g) (hn m hm)

def Request.mainFile : Request File → Option File
  | .main f => some f
  | .load _ _ => none

/-- The requests are for main programs, each one once, and for paths of the session. -/
structure Requested (keys : Set String) (mains : List File) (requests : List (Request File)) :
    Prop where
  nodup : (requests.filterMap Request.mainFile).Nodup
  main_mem : ∀ {f}, .main f ∈ requests → f ∈ mains
  load_mem : ∀ {rel name}, .load rel name ∈ requests → modulePath rel name ∈ keys

theorem Loadable.runMain_spec (h : Loadable fs compile keys mains) (hf : f ∈ mains)
    (hspent : f ∉ spent) (hmains : ∀ g ∈ spent, g ∈ mains) (hinv : Inv fs keys spent c) :
    ∃ r c', Returns (fun m => runMain fs compile m f c) (r, c') ∧ Inv fs keys (f :: spent) c' := by
  have hinv' : Inv fs keys (f :: spent) c := hinv.mono fun g => List.mem_cons_of_mem f
  cases hread : fs.readToString f with
  | error e =>
    refine ⟨.error (.typeError e), c, ⟨0, fun m _ => ?_⟩, hinv'⟩
    unfold runMain
    rw [hread]
  | ok source =>
    cases hcomp : compile source with
    | error e =>
      refine ⟨.error e, c, ⟨0, fun m _ => ?_⟩, hinv'⟩
      unfold runMain
      rw [hread]
      dsimp only
      rw [hcomp]
    | ok body =>
      have hloads : ∀ g, Imports fs compile g f → Loads fs compile keys g := by
        rintro g ⟨name, hn, hg⟩
        exact h.loads (h.acyclic (h.closed (.inl hf) name hn) hg)
      have hinv₁ : Inv fs keys spent { c with next := c.next + 1 } := hinv.congr rfl rfl
      obtain ⟨n, r, c', hrun, hinv₂, -⟩ := h.loads_body hloads hread hcomp (.inl hf) hspent
        (fun k hk hkf => absurd hkf (h.mains_apart hk hf)) hinv₁
        fun g hg => .inr fun k hk => h.mains_apart hk (hmains g hg)
      cases r with
      | error e =>
        refine ⟨.error e, c'.observe (.threw f), ⟨n, fun m hle => ?_⟩,
          hinv₂.throw.mono fun g => List.mem_cons_of_mem f⟩
        unfold runMain
        rw [hread]
        dsimp only
        rw [hcomp]
        dsimp only
        rw [hrun m hle]
      | ok _ =>
        refine ⟨.ok (), c', ⟨n, fun m hle => ?_⟩, hinv₂⟩
        unfold runMain
        rw [hread]
        dsimp only
        rw [hcomp]
        dsimp only
        rw [hrun m hle]

theorem Loadable.moduleLoad_spec (h : Loadable fs compile keys mains)
    (hkey : modulePath rel name ∈ keys) (hmains : ∀ g ∈ spent, g ∈ mains)
    (hinv : Inv fs keys spent c) :
    ∃ r c', Returns (fun m => moduleLoad fs compile m rel name c) (r, c') ∧ Inv fs keys spent c' ∧
      ∀ e, r = .error e → c'.modules (modulePath rel name) = c.modules (modulePath rel name) := by
  cases hcan : fs.canonicalize (modulePath rel name) with
  | error e =>
    obtain ⟨e', he'⟩ := moduleLoad_not_found compile hcan c
    exact ⟨.error e', c, ⟨1, he'⟩, hinv, fun _ _ => rfl⟩
  | ok f =>
    obtain ⟨n, r, c', hload, hinv', -, hkeep⟩ := h.loads (h.acyclic hkey hcan) rel name hkey hcan spent
      c hinv fun g hg => .inr fun k hk => h.mains_apart hk (hmains g hg)
    exact ⟨r, c', ⟨n, hload⟩, hinv', hkeep⟩

/-- **The run lemma.** The induction is on the requests; `spent` are the main programs so far. -/
theorem Loadable.session_spec (h : Loadable fs compile keys mains) {requests : List (Request File)}
    (hreq : Requested keys mains requests) (hmains : ∀ g ∈ spent, g ∈ mains)
    (hspent : ∀ f, .main f ∈ requests → f ∉ spent) (hinv : Inv fs keys spent c) :
    ∃ c', Returns (fun m => session fs compile m requests c) c' ∧
      ∃ spent' : List File, (∀ g ∈ spent', g ∈ mains) ∧ Inv fs keys spent' c' := by
  induction requests generalizing c spent with
  | nil => exact ⟨c, ⟨0, fun _ _ => rfl⟩, spent, hmains, hinv⟩
  | cons request requests ih =>
    have hreq' : Requested keys mains requests := by
      refine ⟨?_, fun hf => hreq.main_mem (List.mem_cons_of_mem _ hf),
        fun hl => hreq.load_mem (List.mem_cons_of_mem _ hl)⟩
      have hnd := hreq.nodup
      cases request with
      | main f => exact (List.nodup_cons.mp hnd).2
      | load rel name => exact hnd
    -- one request, then the others
    have hcons : ∀ {c₁ : Context File W E} {c'}, Returns (fun m => request.exec fs compile m c) c₁ →
        Returns (fun m => session fs compile m requests c₁) c' →
          Returns (fun m => session fs compile m (request :: requests) c) c' := by
      rintro c₁ c' ⟨n, hn⟩ ⟨n', hn'⟩
      refine ⟨max n n', fun m hm => ?_⟩
      have h₁ : request.exec fs compile m c = some c₁ := hn m (le_trans (le_max_left n n') hm)
      dsimp only [session]
      rw [h₁]
      exact hn' m (le_trans (le_max_right n n') hm)
    cases request with
    | main f =>
      have hf := hreq.main_mem (List.mem_cons_self ..)
      obtain ⟨r, c₁, hrun, hinv₁⟩ := h.runMain_spec hf (hspent f (List.mem_cons_self ..)) hmains hinv
      obtain ⟨c', hret, hrest⟩ := ih hreq' (fun g hg => (List.mem_cons.mp hg).elim (· ▸ hf) (hmains g))
        (fun g hg hc => by
          rcases List.mem_cons.mp hc with rfl | hc
          · exact (List.nodup_cons.mp hreq.nodup).1 (List.mem_filterMap.mpr ⟨_, hg, rfl⟩)
          · exact hspent g (List.mem_cons_of_mem _ hg) hc) hinv₁
      exact ⟨c', hcons (hrun.map Prod.snd) hret, hrest⟩
    | load rel name =>
      obtain ⟨r, c₁, hrun, hinv₁, -⟩ :=
        h.moduleLoad_spec (hreq.load_mem (List.mem_cons_self ..)) hmains hinv
      obtain ⟨c', hret, hrest⟩ := ih hreq' hmains
        (fun g hg => hspent g (List.mem_cons_of_mem _ hg)) hinv₁
      exact ⟨c', hcons (hrun.map Prod.snd) hret, hrest⟩

/-- Each body runs once, further runs only after it has thrown, and all imports of a file receive one
module object. -/
def EvaluatedOnce (log : List (Event File)) : Prop :=
  (∀ f, log.count (.started f) ≤ log.count (.threw f) + 1) ∧
    ∀ f module module', .imported f module ∈ log → .imported f module' ∈ log → module = module'

/-- **Modules are evaluated once.** Every session in which each file has one spelling and none imports
itself through others returns; its bodies run once and its imports agree. A further load returns too;
if it fails, it leaves no entry for its path, and none at all if the body imports only modules that are
in the table. -/
theorem modules_evaluated_once (h : Loadable fs compile keys mains) {requests : List (Request File)}
    (hreq : Requested keys mains requests) (hlog : c.log = []) :
    ∃ c', Returns (fun m => session fs compile m requests c) c' ∧ EvaluatedOnce c'.log ∧
      ∀ rel name, modulePath rel name ∈ keys →
        ∃ r c'', Returns (fun m => moduleLoad fs compile m rel name c') (r, c'') ∧
          EvaluatedOnce c''.log ∧
          ∀ e, r = .error e →
            c''.modules (modulePath rel name) = c'.modules (modulePath rel name) ∧
            ((∀ f, fs.canonicalize (modulePath rel name) = .ok f →
              ∀ name' ∈ importsOf fs compile f, c'.Initialized (modulePath (fs.parent f) name')) →
                c''.modules = c'.modules) := by
  have honce : ∀ {spent : List File} {c : Context File W E}, Inv fs keys spent c →
      EvaluatedOnce c.log := by
    refine fun hinv => ⟨hinv.once, fun f module module' hm hm' => ?_⟩
    obtain ⟨k, hk, hkf, hmod⟩ := hinv.same f module hm
    obtain ⟨k', hk', hkf', hmod'⟩ := hinv.same f module' hm'
    obtain rfl := h.one_spelling hk hk' hkf hkf'
    cases hmod.symm.trans hmod'
    rfl
  have hinv : Inv fs keys [] c := by
    refine ⟨fun f => ?_, fun f _ _ => ?_, fun f module he => ?_⟩
    · rw [hlog]; exact Nat.zero_le _
    · rw [hlog]; exact Nat.zero_le _
    · rw [hlog] at he; cases he
  obtain ⟨c', hret, spent, hmains, hinv'⟩ := h.session_spec hreq
    (fun _ hg => absurd hg List.not_mem_nil) (fun _ _ => List.not_mem_nil) hinv
  refine ⟨c', hret, honce hinv', fun rel name hkey => ?_⟩
  obtain ⟨r, c'', hload, hinv'', hkeep⟩ := h.moduleLoad_spec hkey hmains hinv'
  refine ⟨r, c'', hload, honce hinv'', fun e he => ⟨hkeep e he, fun hall => ?_⟩⟩
  obtain ⟨n, hn⟩ := hload
  exact modules_of_error hall (he ▸ hn n le_rfl)

/-- Two files: the main program `true` imports `false` as `b.js`. -/
def twoFiles : FileSystem Bool Bool where
  canonicalize path := if path = "b.js" then .ok false else .error "no such file"
  parent _ := ""
  readToString f := .ok f

def twoBodies : Compiler Bool Unit Unit
  | true => .ok [.import_ "b.js" fun _ w => (w, none)]
  | false => .ok []

/-- A context without modules. -/
def emptyContext (File : Type) : Context File Unit Unit :=
  { modules := fun _ => none, next := 0, world := (), log := [] }

theorem loadable_two : Loadable twoFiles twoBodies (Set.singleton "b.js") [true] := by
  have hfile : ∀ {f}, twoFiles.canonicalize "b.js" = .ok f → f = false := by
    intro f h
    cases h
    rfl
  have hleaf : ∀ g, ¬ Imports twoFiles twoBodies g false := by
    rintro g ⟨name, hn, -⟩
    cases hn
  refine ⟨fun {f} _ name hn => ?_, fun hk hk' _ _ => hk.trans hk'.symm, fun {k f} hk hf => ?_,
    fun {k f} hk hf hc => ?_⟩
  · cases f with
    | false => cases hn
    | true => exact List.mem_singleton.mp hn
  · obtain rfl : k = "b.js" := hk
    rw [hfile hf]
    exact Acc.intro _ fun g hg => absurd hg (hleaf g)
  · obtain rfl : k = "b.js" := hk
    rw [hfile hc] at hf
    cases List.mem_singleton.mp hf

theorem modules_evaluated_once_two : ∃ c',
    Returns (fun m => session twoFiles twoBodies m [.main true, .load "" "b.js"]
      (emptyContext Bool)) c' ∧ EvaluatedOnce c'.log := by
  have hreq : Requested (Set.singleton "b.js") [true] [.main true, .load "" "b.js"] := by
    refine ⟨by decide, fun {f} hf => ?_, fun {rel name} hl => ?_⟩
    · cases hf with
      | head => exact List.mem_singleton_self true
      | tail _ hf => cases List.mem_singleton.mp hf
    · cases hl with
      | tail _ hl => cases List.mem_singleton.mp hl; rfl
  obtain ⟨c', hret, honce, -⟩ := modules_evaluated_once loadable_two hreq
    (c := emptyContext Bool) rfl
  exact ⟨c', hret, honce⟩

def oneFile : FileSystem Unit Unit where
  canonicalize _ := .ok ()
  parent _ := ""
  readToString _ := .ok ()

/-- Its body imports the file itself. -/
def selfImport : Compiler Unit Unit Unit := fun _ => .ok [.import_ "a.js" fun _ w => (w, none)]

theorem moduleLoad_selfImport (m : ℕ) (rel name : String) (c : Context Unit Unit Unit)
    (hc : ∀ k, c.modules k = none) : moduleLoad oneFile selfImport m rel name c = none := by
  induction m generalizing rel name c with
  | zero => rfl
  | succ m ih =>
    have hbody : runBody (moduleLoad oneFile selfImport m) "" [.import_ "a.js" fun _ w => (w, none)]
        (({ c with next := c.next + 1 } : Context Unit Unit Unit).observe (.started ())) = none := by
      unfold runBody
      rw [ih]
      exact hc
    unfold moduleLoad
    dsimp only [oneFile, selfImport]
    rw [hc]
    dsimp only
    unfold oneFile at hbody
    rw [hbody]

/-- A file that imports itself is loaded again and again. -/
theorem not_modules_evaluated_once : ¬ ∀ (fs : FileSystem Unit Unit) (compile : Compiler Unit Unit Unit)
    (requests : List (Request Unit)), ∃ c',
      Returns (fun m => session fs compile m requests (emptyContext Unit)) c' ∧
        EvaluatedOnce c'.log := by
  intro h
  obtain ⟨c', ⟨n, hn⟩, -⟩ := h oneFile selfImport [.load "" "a.js"]
  have hnone : session oneFile selfImport n [.load "" "a.js"] (emptyContext Unit) = none := by
    unfold session Request.exec
    dsimp only
    rw [moduleLoad_selfImport n _ _ _ fun _ => rfl]
    rfl
  cases hnone.symm.trans (hn n le_rfl)

/-- A file without imports that is imported under two spellings runs twice and has two modules. -/
example : (session oneFile (fun _ => .ok []) 1 [.load "" "a.js", .load "" "./a.js"]
    (emptyContext Unit)).map Context.log =
      some [.started (), .imported () 0, .started (), .imported () 1] := by decide

end Starlight.Modules
