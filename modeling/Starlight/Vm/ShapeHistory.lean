import Starlight.Vm.ShapeRuns

/-!
# Lookups, sharing and the dictionary limit

What a structure says of a name is the last addition or change of it in the history that led to the
structure, and the times at which tables are built do not matter. Performing a sequence of additions
again leads to the same structures. The count that is to bound a chain of shared structures does not: it
is at most one.
-/

namespace Starlight

namespace Shapes

/-- What `get_own_property_names` calls its collector with. -/
def Collects (σ : Shapes) (s : ℕ) (all : Bool) (name : Symbol) (offset : ℕ) : Prop :=
  (σ.allocateTableIfNeeded s).1 = true ∧
    ∃ e, ((σ.allocateTableIfNeeded s).2.tableOf s).lookup name = some e ∧
      (all || e.attrs.enumerable) = true ∧ e.offset = offset

structure Shows (σ : Shapes) (s : ℕ) (x : Member) : Prop where
  get : ∀ n, (σ.get s n).1 = Change.find n x.history
  slots : σ.getSlotsSize s = x.slots
  names : ∀ all n offset, σ.Collects s all n offset ↔
    ∃ e, Change.find n x.history = some e ∧ (all || e.attrs.enumerable) = true ∧ e.offset = offset

theorem view_of_not_allocated {σ : Shapes} {s : ℕ} (h : (σ.allocateTableIfNeeded s).1 = false) :
    σ.view s = ∅ := by
  unfold allocateTableIfNeeded at h
  split at h
  · next ht =>
    split at h
    · next hp => exact view_root (Option.isNone_iff_eq_none.mp ht) (Option.isNone_iff_eq_none.mp hp)
    · cases h
  · cases h

end Shapes

namespace Refines

variable {h h' : ShapeHeap} {F : Family} {s : ℕ}

theorem showsHistory (hr : Refines h F) (hs : h.Live s) : h.shapes.Shows s (F.member s) := by
  have hview := hr.view hs
  constructor
  case get => intro n; rw [(hr.inv.get hs n).1, hview, Change.lookup_table]
  case slots => rw [hr.inv.getSlotsSize_eq hs, hview, hr.free hs, Member.slots]
  case names =>
    intro all n offset
    unfold Shapes.Collects
    rw [(hr.inv.allocateTableIfNeeded hs).2, hview, Change.lookup_table]
    refine ⟨And.right, fun he => ⟨?_, he⟩⟩
    by_contra hn
    obtain ⟨e, he, -⟩ := he
    rw [← Change.lookup_table, ← hview, Shapes.view_of_not_allocated (by simpa using hn),
      Finmap.lookup_empty] at he
    cases he

theorem valid_congr (hr : Refines h F) (hr' : Refines h' F) {op : ShapeOp} (hv : op.Valid h) :
    op.Valid h' := by
  have hlive : ∀ {s}, h.Live s → h'.Live s := fun hs => hr'.live_iff.mpr (hr.live_iff.mp hs)
  have hget : ∀ {s}, h.Live s → ∀ n, (h'.shapes.get s n).1 = (h.shapes.get s n).1 := fun hs n =>
    ((hr'.showsHistory (hlive hs)).get n).trans ((hr.showsHistory hs).get n).symm
  cases op with
  | root p u i => trivial
  | build props p u i => exact hv
  | add s n a => exact ⟨hlive hv.1, (hget hv.1 n).trans hv.2⟩
  | delete s n | changeAttributes s n a => exact ⟨hlive hv.1, (hget hv.1 n).trans_ne hv.2⟩
  | changeExtensible s | changeIndexed s | changePrototype s p | get s n | getOwnPropertyNames s
  | allocateTable s => exact hlive hv
  | clear s n a =>
    change s < h'.shapes.nextStructure
    rw [hr'.next, ← hr.next]
    exact hv

end Refines

theorem ShapeOp.act_of_isRead {op : ShapeOp} (h : op.isRead = true) (F : Family) : op.act F = F := by
  cases op <;> first | rfl | cases h

theorem ShapeRun.without_reads {h h' : ShapeHeap} {ops : List ShapeOp} (hrun : ShapeRun h ops h')
    {F : Family} (hr : Refines h F) {h₁ : ShapeHeap} (hr₁ : Refines h₁ F) :
    ∃ h₂, ShapeRun h₁ (ops.filter (!·.isRead)) h₂ ∧ Refines h₂ (ops.foldl ShapeOp.act F) := by
  -- the run without reads goes through other heaps with the same family
  induction hrun generalizing F h₁ with
  | nil h => exact ⟨h₁, .nil h₁, hr₁⟩
  | @cons h h₀ h' op ops hv he _ ih =>
    obtain ⟨h₀', he', hr₀⟩ := hr.step hv
    rw [he] at he'
    cases he'
    rw [List.filter_cons]
    cases hread : op.isRead with
    | true =>
      rw [if_neg (by simp)]
      rw [ShapeOp.act_of_isRead hread] at hr₀
      rw [List.foldl_cons, ShapeOp.act_of_isRead hread]
      exact ih hr₀ hr₁
    | false =>
      rw [if_pos (by simp)]
      have hv₁ := hr.valid_congr hr₁ hv
      obtain ⟨h₂, he₂, hr₂⟩ := hr₁.step hv₁
      obtain ⟨h₃, hrun₃, hr₃⟩ := ih hr₀ hr₂
      exact ⟨h₃, .cons hv₁ he₂ hrun₃, hr₃⟩

/-- **Lookup equals history.** In every state of a run, a structure that may be used shows the history
that led to it, and everything that can be seen of it is the same as in the run without reads and tables
built on request. -/
theorem lookup_eq_history {ops : List ShapeOp} {h : ShapeHeap} (hrun : ShapeRun .init ops h) :
    (∀ s, h.Live s → h.shapes.Shows s ((ops.foldl ShapeOp.act .init).member s)) ∧
      ∃ h', ShapeRun .init (ops.filter (!·.isRead)) h' ∧ (∀ s, h.Live s ↔ h'.Live s) ∧
        ∀ s, h.Live s → (∀ n, (h.shapes.get s n).1 = (h'.shapes.get s n).1) ∧
          h.shapes.getSlotsSize s = h'.shapes.getSlotsSize s ∧
          ∀ all n offset, h.shapes.Collects s all n offset ↔ h'.shapes.Collects s all n offset := by
  have hr := hrun.refines refines_init
  obtain ⟨h', hrun', hr'⟩ := hrun.without_reads refines_init refines_init
  have hlive : ∀ s, h.Live s ↔ h'.Live s := fun s => hr.live_iff.trans hr'.live_iff.symm
  refine ⟨fun s hs => hr.showsHistory hs, h', hrun', hlive, fun s hs => ?_⟩
  have hshow := hr.showsHistory hs
  have hshow' := hr'.showsHistory ((hlive s).mp hs)
  exact ⟨fun n => (hshow.get n).trans (hshow'.get n).symm, hshow.slots.trans hshow'.slots.symm,
    fun all n offset => (hshow.names all n offset).trans (hshow'.names all n offset).symm⟩

/-- The attributes of an ordinary property. -/
def ordinaryAttrs : TypedAttrs := ⟨objectData, createData_typed _⟩

/-- An object adds two properties and asks for another. -/
def twoOps : List ShapeOp :=
  [.root none false false, .add 0 (.priv 0) ordinaryAttrs, .add 1 (.priv 1) ordinaryAttrs,
    .get 2 (.priv 2)]

theorem lookup_eq_history_twoOps : ∃ h, ShapeRun .init twoOps h ∧
    h.shapes.Shows 2 ((twoOps.foldl ShapeOp.act .init).member 2) := by
  have hrun : ShapeRun .init twoOps _ :=
    .cons trivial rfl (.cons ⟨⟨by decide, .inl rfl⟩, rfl⟩ rfl
      (.cons ⟨⟨by decide, .inl rfl⟩, rfl⟩ rfl (.cons ⟨by decide, .inl rfl⟩ rfl (.nil _))))
  exact ⟨_, hrun, (lookup_eq_history hrun).1 2 ⟨by decide, .inl rfl⟩⟩

/-- An object on a unique structure adds a property and deletes it. -/
def deleteOps : List ShapeOp :=
  [.root none true false, .add 0 (.priv 0) ordinaryAttrs, .delete 0 (.priv 0)]

/-- The structure that the object left has lost the property as well: the successor has its table. -/
theorem not_lookup_eq_history : ¬ ∀ (ops : List ShapeOp) (h : ShapeHeap), ShapeRun .init ops h →
    ∀ s, s < h.shapes.nextStructure → ∀ n,
      (h.shapes.get s n).1 = Change.find n ((ops.foldl ShapeOp.act .init).member s).history := by
  intro hall
  have hrun : ShapeRun .init deleteOps _ :=
    .cons trivial rfl (.cons ⟨⟨by decide, .inr (by decide)⟩, rfl⟩ rfl
      (.cons ⟨⟨by decide, .inr (by decide)⟩, by decide⟩ rfl (.nil _)))
  exact absurd (hall deleteOps _ hrun 0 (by decide) (.priv 0)) (by decide)

/-! ### What becomes of shared structures -/

namespace ShapeOp

variable {F : Family} {s : ℕ}

/-- What an operation does to a shared structure: it may lose one link, or gain one, to the structure
that the operation makes. -/
structure KeepsShared (F F' : Family) (op : ShapeOp) (s : ℕ) : Prop where
  shared : (F'.member s).shared = true
  history : (F'.member s).history = (F.member s).history
  free : (F'.member s).free = (F.member s).free
  depth : (F'.member s).depth = (F.member s).depth
  child : ∀ n a, (F'.member s).child n a = (F.member s).child n a ∨
    (op = .clear s n a ∧ (F'.member s).child n a = none) ∨
    (∃ b, op = .add s n b ∧ b.1 = a ∧ (F.member s).child n a = none)

theorem KeepsShared.of_eq {F' : Family} {op : ShapeOp} (hsh : (F.member s).shared = true)
    (h : F'.member s = F.member s) : KeepsShared F F' op s :=
  ⟨h ▸ hsh, by rw [h], by rw [h], by rw [h], fun n a => .inl (by rw [h])⟩

theorem member_make (F : Family) (r : ℕ) (x : Member) (hs : s < F.next) :
    (F.make r x).member s = F.member s :=
  Function.update_of_ne hs.ne _ _

/-- **What a step does to a shared structure.** -/
theorem keepsShared_act (hs : s < F.next) (hsh : (F.member s).shared = true) (op : ShapeOp) :
    KeepsShared F (op.act F) op s := by
  cases op with
  | root p u i | build props p u i => exact .of_eq hsh (Function.update_of_ne hs.ne _ _)
  | delete r n =>
    refine .of_eq hsh ?_
    simp only [act, Family.delete]
    split
    · exact member_make F r _ hs
    · rfl
  | changeAttributes r n a | changeExtensible r => exact .of_eq hsh (member_make F r _ hs)
  | changeIndexed r | changePrototype r p =>
    refine .of_eq hsh ?_
    simp only [act, Family.uniqueFor]
    split
    · exact member_make F r _ hs
    · rfl
  | get r n | getOwnPropertyNames r | allocateTable r => exact .of_eq hsh rfl
  | clear r n a =>
    by_cases hrs : s = r
    · subst hrs
      refine ⟨?_, ?_, ?_, ?_, fun m b => ?_⟩
      iterate 4 simp [act, Family.clear, Family.modify, hsh]
      by_cases hm : m = n
      · subst hm
        by_cases hb : b = a
        · subst hb
          exact .inr (.inl ⟨rfl, by simp [act, Family.clear, Family.modify]⟩)
        · exact .inl (by simp [act, Family.clear, Family.modify, hb])
      · exact .inl (by simp [act, Family.clear, Family.modify, hm])
    · exact .of_eq hsh (by simp [act, Family.clear, Family.modify, hrs])
  | add r n a =>
    simp only [act, Family.add]
    split
    · split
      · exact .of_eq hsh rfl
      · next hc =>
        by_cases hrs : s = r
        · subst hrs
          refine ⟨?_, ?_, ?_, ?_, fun m b => ?_⟩
          iterate 4 simp [Family.modify, Family.make, hs.ne, hsh]
          by_cases hm : m = n
          · subst hm
            by_cases hb : b = a.1
            · subst hb
              exact .inr (.inr ⟨a, rfl, rfl, hc⟩)
            · exact .inl (by simp [Family.modify, Family.make, hs.ne, hb])
          · exact .inl (by simp [Family.modify, Family.make, hs.ne, hm])
        · exact .of_eq hsh (by simp [Family.modify, Family.make, hrs, hs.ne])
    · next hr =>
      have hrs : s ≠ r := by
        rintro rfl
        exact hr hsh
      exact .of_eq hsh (Function.update_of_ne hrs _ _)

theorem next_le_act (op : ShapeOp) (F : Family) : F.next ≤ (op.act F).next := by
  cases op with
  | add r n a =>
    simp only [act, Family.add]
    split
    · split
      · exact le_rfl
      · exact Nat.le_succ _
    · exact le_rfl
  | delete r n =>
    simp only [act, Family.delete]
    split
    · exact Nat.le_succ _
    · exact le_rfl
  | changeIndexed r | changePrototype r p =>
    simp only [act, Family.uniqueFor]
    split
    · exact Nat.le_succ _
    · exact le_rfl
  | root p u i | build props p u i | changeAttributes r n a
  | changeExtensible r => exact Nat.le_succ _
  | get r n | getOwnPropertyNames r | allocateTable r | clear r n a => exact le_rfl

end ShapeOp

/-! ### Performing a sequence of additions -/

/-- The collector does not clear a reference to a structure that is alive. -/
def ShapeOp.Spares (h : ShapeHeap) (alive : Set ℕ) : ShapeOp → Prop
  | .clear s n a => ∀ m, (h.shapes.structures s).transitions.find n a = some m → m ∉ alive
  | _ => True

/-- From structure `r`, the additions `seq` are performed one after the other and lead to `s`. The
structures on the way are alive; anything else may happen before, between and after. `ok` says which
operations are made. -/
inductive Performs (ok : ShapeHeap → ShapeOp → Prop) (alive : Set ℕ) :
    ShapeHeap → ℕ → List (Symbol × TypedAttrs) → ShapeHeap → ℕ → Prop
  | done (h : ShapeHeap) (r : ℕ) : Performs ok alive h r [] h r
  | other {h h₁ h' : ShapeHeap} {r s : ℕ} {seq : List (Symbol × TypedAttrs)} (op : ShapeOp)
      (valid : ok h op) (spares : op.Spares h alive) (exec : op.exec h = some h₁)
      (rest : Performs ok alive h₁ r seq h' s) : Performs ok alive h r seq h' s
  | add {h h₁ h' : ShapeHeap} {r s : ℕ} {n : Symbol} {a : TypedAttrs}
      {seq : List (Symbol × TypedAttrs)} (valid : ok h (.add r n a))
      (exec : (ShapeOp.add r n a).exec h = some h₁)
      (kept : (h.shapes.addPropertyTransition r n a).1 ∈ alive)
      (rest : Performs ok alive h₁ (h.shapes.addPropertyTransition r n a).1 seq h' s) :
      Performs ok alive h r ((n, a) :: seq) h' s

/-- The operations are made as their callers may make them: names that are added are new. -/
abbrev PerformsNew : Set ℕ → ShapeHeap → ℕ → List (Symbol × TypedAttrs) → ShapeHeap → ℕ → Prop :=
  Performs fun h op => op.Valid h

/-- The operations are made on structures that may be used; any name may be added. -/
abbrev PerformsAny : Set ℕ → ShapeHeap → ℕ → List (Symbol × TypedAttrs) → ShapeHeap → ℕ → Prop :=
  Performs fun h op => match op with
    | .add s _ _ => h.Live s
    | op => op.Valid h

def Family.Leads (F : Family) (alive : Set ℕ) : ℕ → List (Symbol × TypedAttrs) → ℕ → Prop
  | r, [], s => r = s
  | r, (n, a) :: seq, s => ∃ m, r < F.next ∧ (F.member r).shared = true ∧
      (F.member r).child n a = some m ∧ m ∈ alive ∧ F.Leads alive m seq s

variable {alive : Set ℕ} {h h' : ShapeHeap} {F : Family} {r s s' : ℕ}
  {seq : List (Symbol × TypedAttrs)}

theorem Refines.child_act (hr : Refines h F) {op : ShapeOp} (hsp : op.Spares h alive) (hlt : r < F.next)
    (hsh : (F.member r).shared = true) {n : Symbol} {a : AttrSafe} {m : ℕ}
    (hc : (F.member r).child n a = some m) (hm : m ∈ alive) :
    ((op.act F).member r).child n a = some m := by
  rcases (ShapeOp.keepsShared_act hlt hsh op).child n a with he | ⟨rfl, -⟩ | ⟨b, -, -, hn⟩
  · exact he.trans hc
  · exact absurd hm (hsp m ((hr.child hlt ((hr.shared hlt).mpr hsh) n a).trans hc))
  · rw [hn] at hc
    cases hc

theorem Family.Leads.act (hl : F.Leads alive r seq s) (hr : Refines h F) {op : ShapeOp}
    (hsp : op.Spares h alive) : (op.act F).Leads alive r seq s := by
  induction seq generalizing r with
  | nil => exact hl
  | cons p seq ih =>
    obtain ⟨m, hlt, hsh, hc, hm, hl⟩ := hl
    exact ⟨m, lt_of_lt_of_le hlt (ShapeOp.next_le_act op F),
      (ShapeOp.keepsShared_act hlt hsh op).shared, hr.child_act hsp hlt hsh hc hm, hm, ih hl⟩

theorem Refines.add_shared (hr : Refines h F) {n : Symbol} {a : TypedAttrs}
    (hv : (ShapeOp.add r n a).Valid h) (hsh : (F.member r).shared = true) :
    let m := (h.shapes.addPropertyTransition r n a).1
    let F' := (ShapeOp.add r n a).act F
    m < F'.next ∧ (F'.member m).shared = true ∧ (F'.member r).child n a = some m := by
  have hltσ := hv.1.1
  have hlt : r < F.next := hr.next ▸ hltσ
  have hshσ := (hr.shared hlt).mpr hsh
  have hadd := hr.add hv.1 (hr.notMem_view hv.1 hv.2) a.2
  dsimp only [ShapeOp.act]
  rw [hadd.1]
  unfold Family.add
  simp only [hsh, if_true]
  cases hc : (F.member r).child n a with
  | some m =>
    obtain ⟨hm, hmsh, -⟩ := hr.inv.transition hltσ hshσ ((hr.child hlt hshσ n a).trans hc)
    rw [hr.next] at hm
    exact ⟨hm, (hr.shared hm).mp hmsh, hc⟩
  | none =>
    refine ⟨Nat.lt_succ_self _, ?_, ?_⟩
    · simp [Family.modify, Family.make, hlt.ne', Member.added, hsh]
    · simp [Family.modify, Family.make, hlt.ne]

theorem PerformsNew.leads (hp : PerformsNew alive h r seq h' s) (hr : Refines h F) (hlt : r < F.next)
    (hsh : (F.member r).shared = true) :
    ∃ F', Refines h' F' ∧ F'.Leads alive r seq s ∧ F.next ≤ F'.next ∧
      ∀ {q t : ℕ} {seq' : List (Symbol × TypedAttrs)}, F.Leads alive q seq' t →
        F'.Leads alive q seq' t := by
  -- from the front: the way of the rest lies behind the first addition
  induction hp generalizing F with
  | done h r => exact ⟨F, hr, rfl, le_rfl, id⟩
  | other op hv hsp he _ ih =>
    obtain ⟨h₁, he₁, hr₁⟩ := hr.step hv
    rw [he] at he₁
    cases he₁
    have hle := ShapeOp.next_le_act op F
    obtain ⟨F', hr', hl, hnext, hkeep⟩ := ih hr₁ (lt_of_lt_of_le hlt hle)
      (ShapeOp.keepsShared_act hlt hsh op).shared
    exact ⟨F', hr', hl, hle.trans hnext, fun hq => hkeep (hq.act hr hsp)⟩
  | @add h h₁ h' r s n a seq hv he hm _ ih =>
    obtain ⟨h₁, he₁, hr₁⟩ := hr.step hv
    rw [he] at he₁
    cases he₁
    obtain ⟨hmlt, hmsh, hc⟩ := hr.add_shared hv hsh
    have hle := ShapeOp.next_le_act (.add r n a) F
    obtain ⟨F', hr', hl, hnext, hkeep⟩ := ih hr₁ hmlt hmsh
    -- the first addition is a way of length one, and the rest of the run keeps it
    have hone : ((ShapeOp.add r n a).act F).Leads alive r [(n, a)] _ :=
      ⟨_, lt_of_lt_of_le hlt hle, (ShapeOp.keepsShared_act hlt hsh _).shared, hc, hm, rfl⟩
    refine ⟨F', hr', ?_, hle.trans hnext, fun hq => hkeep (hq.act hr trivial)⟩
    obtain ⟨m, hlt', hsh', hc', hm', rfl⟩ := hkeep hone
    exact ⟨_, hlt', hsh', hc', hm', hl⟩

theorem PerformsNew.eq_of_leads (hp : PerformsNew alive h r seq h' s') (hr : Refines h F)
    (hl : F.Leads alive r seq s) : s' = s := by
  induction hp generalizing F s with
  | done h r => exact hl
  | other op hv hsp he _ ih =>
    obtain ⟨h₁, he₁, hr₁⟩ := hr.step hv
    rw [he] at he₁
    cases he₁
    exact ih hr₁ (hl.act hr hsp)
  | @add h h₁ h' r s' n a seq hv he hm _ ih =>
    obtain ⟨h₁, he₁, hr₁⟩ := hr.step hv
    rw [he] at he₁
    cases he₁
    obtain ⟨m, hlt, hsh, hc, hm, hl⟩ := hl
    -- the transition table has the target of the first run
    have hfst : (h.shapes.addPropertyTransition r n a).1 = m :=
      (Shapes.addPropertyTransition_child ((hr.shared hlt).mpr hsh)
        ((hr.child hlt ((hr.shared hlt).mpr hsh) n a).trans hc)).1
    rw [hfst] at ih
    exact ih hr₁ (hl.act hr trivial)

/-- The entry that a sequence of additions itself gives a name: the slots are handed out in order from
`base` on. -/
def sequenceEntry (base : ℕ) : List (Symbol × TypedAttrs) → Symbol → Option MapEntry
  | [], _ => none
  | (m, a) :: seq, n =>
    (sequenceEntry (base + 1) seq n).or (if n = m then some ⟨base, a.1⟩ else none)

theorem Refines.shared_step {h₁ : ShapeHeap} (hr : Refines h F) {op : ShapeOp}
    (hr₁ : Refines h₁ (op.act F)) (hlt : r < F.next) (hsh : (F.member r).shared = true) :
    (∀ n, (h₁.shapes.get r n).1 = (h.shapes.get r n).1) ∧
      h₁.shapes.getSlotsSize r = h.shapes.getSlotsSize r := by
  have hk := ShapeOp.keepsShared_act hlt hsh op
  have hshow := hr.showsHistory (hr.live_iff.mpr ⟨hlt, .inl hsh⟩)
  have hshow₁ := hr₁.showsHistory (hr₁.live_iff.mpr
    ⟨lt_of_lt_of_le hlt (ShapeOp.next_le_act op F), .inl hk.shared⟩)
  refine ⟨fun n => ?_, ?_⟩
  · rw [hshow₁.get, hshow.get, hk.history]
  · rw [hshow₁.slots, hshow.slots, Member.slots, Member.slots, hk.history, hk.free]

theorem Refines.shared_add {h₁ : ShapeHeap} (hr : Refines h F) {n : Symbol} {a : TypedAttrs}
    (hv : (ShapeOp.add r n a).Valid h) (he : (ShapeOp.add r n a).exec h = some h₁)
    (hsh : (F.member r).shared = true) :
    let m := (h.shapes.addPropertyTransition r n a).1
    (∀ k, (h₁.shapes.get m k).1 =
        if k = n then some ⟨h.shapes.getSlotsSize r, a.1⟩ else (h.shapes.get r k).1) ∧
      h₁.shapes.getSlotsSize m = h.shapes.getSlotsSize r + 1 := by
  intro m
  obtain ⟨h₁', he', hr₁⟩ := hr.step hv
  rw [he] at he'
  cases he'
  have hlt : r < F.next := hr.next ▸ hv.1.1
  have hshσ := (hr.shared hlt).mpr hsh
  have hn := hr.notMem_view hv.1 hv.2
  obtain ⟨hmlt, hmsh, -⟩ := hr.add_shared hv hsh
  have hlive := hr₁.live_iff.mpr ⟨hmlt, .inl hmsh⟩
  have hadded := hr.inv.addPropertyTransition hv.1 hn a.2
  have hdel := hr.inv.shared_deleted hv.1.1 hshσ
  -- a shared structure has no deleted slots, so that its size is the number of its names
  have hsize : h.shapes.getSlotsSize r = tableLen (h.shapes.view r) := by
    rw [hr.inv.getSlotsSize_eq hv.1, hdel, List.length_nil, Nat.add_zero]
  obtain ⟨hdel', hoff⟩ : ((h.shapes.addPropertyTransition r n a).2.2.structures m).deleted = [] ∧
      (h.shapes.addPropertyTransition r n a).2.1 = h.shapes.getSlotsSize r := by
    rcases hadded.free with hd | ⟨-, hd, ho⟩
    · rw [hdel] at hd
      cases hd
    · exact ⟨hd, ho.trans hsize.symm⟩
  have hview : h₁.shapes.view m = (h.shapes.view r).insert n ⟨h.shapes.getSlotsSize r, a.1⟩ := by
    cases he
    rw [← hoff]
    exact hadded.view
  refine ⟨fun k => ?_, ?_⟩
  · rw [(hr₁.inv.get hlive k).1, hview, lookup_insert_eq, (hr.inv.get hv.1 k).1]
  · rw [hr₁.inv.getSlotsSize_eq hlive, hview, tableLen_insert_of_notMem hn, hsize]
    cases he
    exact congrArg _ (congrArg List.length hdel')

/-- A sequence of additions leads to a structure that has the properties of the first one and those of
the sequence, in the slots that follow. -/
theorem PerformsNew.get_eq (hp : PerformsNew alive h r seq h' s) (hr : Refines h F) (hlt : r < F.next)
    (hsh : (F.member r).shared = true) (n : Symbol) :
    (h'.shapes.get s n).1 =
      (sequenceEntry (h.shapes.getSlotsSize r) seq n).or (h.shapes.get r n).1 := by
  induction hp generalizing F with
  | done h r => rw [sequenceEntry, Option.none_or]
  | other op hv hsp he _ ih =>
    obtain ⟨h₁, he₁, hr₁⟩ := hr.step hv
    rw [he] at he₁
    cases he₁
    obtain ⟨hget, hslots⟩ := hr.shared_step hr₁ hlt hsh
    rw [ih hr₁ (lt_of_lt_of_le hlt (ShapeOp.next_le_act op F))
      (ShapeOp.keepsShared_act hlt hsh op).shared, hget, hslots]
  | @add h h₁ h' r s m a seq hv he _ _ ih =>
    obtain ⟨h₁', he₁, hr₁⟩ := hr.step hv
    rw [he] at he₁
    cases he₁
    obtain ⟨hmlt, hmsh, -⟩ := hr.add_shared hv hsh
    obtain ⟨hget, hslots⟩ := hr.shared_add hv he hsh
    rw [ih hr₁ hmlt hmsh, hget, hslots, sequenceEntry, Option.or_assoc]
    congr 1
    split <;> rfl

/-! ### The transition table as a map -/

/-- What happens to a transition table. -/
inductive LinkEvent where
  | insert (key : TransitionKey) (map : ℕ)
  | clear (key : TransitionKey)

namespace LinkEvent

def apply (t : TransitionsTable) : LinkEvent → TransitionsTable
  | insert key map => t.insert key.name key.attrs map
  | clear key => t.clear key

/-- The structure under a key after a list of events, the latest first: the last one inserted, unless it
has been collected. -/
def find (key : TransitionKey) : List LinkEvent → Option ℕ
  | [] => none
  | insert k m :: es => if key = k then some m else find key es
  | clear k :: es => if key = k then none else find key es

theorem find_foldr_apply (enabled indexed : Bool) (es : List LinkEvent) (n : Symbol) (a : AttrSafe) :
    (es.foldr (fun e t => e.apply t) (TransitionsTable.new enabled indexed)).find n a =
      find ⟨n, a⟩ es := by
  induction es with
  | nil => rfl
  | cons e es ih =>
    rw [List.foldr_cons]
    cases e with
    | insert k m =>
      rw [apply, TransitionsTable.find_insert, ih, find]
      refine if_congr ?_ rfl rfl
      rw [TransitionKey.mk.injEq]
    | clear k =>
      rw [apply, Shapes.find_clear_eq, ih, find]

end LinkEvent

/-- **Transition sharing.** From a shared structure, a sequence of additions of new names that is
performed again leads to the same structure, while the structures on the way stay alive; the structure
that it leads to has the map of its own sequence. The transition table is a map from names and
attributes to structures, in which collected structures are absent. -/
theorem transitions_shared {ops : List ShapeOp} (hrun : ShapeRun .init ops h)
    (hs : r < h.shapes.nextStructure) (hsh : h.shapes.Shared r) :
    (∀ alive seq h₁ h₂ s s',
        PerformsNew alive h r seq h₁ s → PerformsNew alive h₁ r seq h₂ s' → s' = s) ∧
      (∀ alive seq h₁ s, PerformsNew alive h r seq h₁ s → ∀ n, (h₁.shapes.get s n).1 =
        (sequenceEntry (h.shapes.getSlotsSize r) seq n).or (h.shapes.get r n).1) ∧
      ∀ enabled indexed es n a,
        (List.foldr (fun e t => LinkEvent.apply t e) (TransitionsTable.new enabled indexed) es).find n a =
          LinkEvent.find ⟨n, a⟩ es := by
  have hr := hrun.refines refines_init
  have hlt := hr.next ▸ hs
  have hshF := (hr.shared hlt).mp hsh
  refine ⟨fun alive seq h₁ h₂ s s' hp hp' => ?_,
    fun alive seq h₁ s hp n => PerformsNew.get_eq hp hr hlt hshF n, LinkEvent.find_foldr_apply⟩
  obtain ⟨F', hr', hl, -⟩ := PerformsNew.leads hp hr hlt hshF
  exact PerformsNew.eq_of_leads hp' hr' hl

def rootHeap : ShapeHeap := ((ShapeOp.root none false false).exec .init).getD .init

theorem run_rootHeap : ShapeRun .init [.root none false false] rootHeap := .cons trivial rfl (.nil _)

/-- Two additions, performed from the root. -/
theorem transitions_shared_rootHeap :
    ∃ h₁, PerformsNew Set.univ rootHeap 0 [(.priv 0, ordinaryAttrs), (.priv 1, ordinaryAttrs)] h₁ 2 ∧
      ∀ h₂ s', PerformsNew Set.univ h₁ 0 [(.priv 0, ordinaryAttrs), (.priv 1, ordinaryAttrs)] h₂ s' →
        s' = 2 := by
  have hp : PerformsNew Set.univ rootHeap 0 [(.priv 0, ordinaryAttrs), (.priv 1, ordinaryAttrs)] _ 2 :=
    .add ⟨⟨by decide, .inl rfl⟩, rfl⟩ rfl trivial
      (.add ⟨⟨by decide, .inl rfl⟩, rfl⟩ rfl trivial (.done _ _))
  exact ⟨_, hp, fun h₂ s' =>
    (transitions_shared (r := 0) run_rootHeap (by decide) rfl).1 _ _ _ h₂ 2 s' hp⟩

/-- The attributes of a read-only property. -/
def fixedAttrs : TypedAttrs := ⟨createData {}, createData_typed _⟩

/-- A name is added twice, with other attributes the second time, and a table is built: the first
addition wins. -/
theorem not_transitions_shared :
    ¬ ∀ (ops : List ShapeOp) (h : ShapeHeap) (r : ℕ), ShapeRun .init ops h →
      r < h.shapes.nextStructure → h.shapes.Shared r →
      ∀ alive seq h₁ s, PerformsAny alive h r seq h₁ s → ∀ n, (h₁.shapes.get s n).1 =
        (sequenceEntry (h.shapes.getSlotsSize r) seq n).or (h.shapes.get r n).1 := by
  intro hall
  have hp : PerformsAny Set.univ rootHeap 0 [(.priv 0, ordinaryAttrs), (.priv 0, fixedAttrs)] _ 2 :=
    .add ⟨by decide, .inl rfl⟩ rfl trivial (.add ⟨by decide, .inl rfl⟩ rfl trivial
      (.other (.allocateTable 2) ⟨by decide, .inl rfl⟩ trivial rfl (.done _ _)))
  exact absurd (hall _ rootHeap 0 run_rootHeap (by decide) rfl Set.univ _ _ 2 hp (.priv 0)) (by decide)

/-! ### The dictionary limit -/

/-- The limit does what it is for: the count of a shared structure is the number of shared additions
since its root, no chain of them passes the limit, and past it an addition goes to a unique structure. -/
structure Limited (h : ShapeHeap) (F : Family) (s : ℕ) : Prop where
  count : (h.shapes.structures s).transitCount = (F.member s).depth
  chain : (F.member s).depth ≤ 65
  past : 64 < (h.shapes.structures s).transitCount → ∀ (n : Symbol) (a : TypedAttrs),
    (ShapeOp.add s n a).Valid h →
      ¬ (h.shapes.addPropertyTransition s n a).2.2.Shared (h.shapes.addPropertyTransition s n a).1

theorem Refines.limited_iff (hr : Refines h F) (hs : s < F.next) (hsh : h.shapes.Shared s) :
    Limited h F s ↔ (F.member s).depth ≤ 1 := by
  have hc := hr.count hs hsh
  constructor
  · intro hl
    have := hl.count
    omega
  · intro hd
    refine ⟨by omega, by omega, fun hlt => ?_⟩
    omega

theorem ShapeRun.append {h₁ h₂ h₃ : ShapeHeap} {ops ops' : List ShapeOp} (h : ShapeRun h₁ ops h₂)
    (h' : ShapeRun h₂ ops' h₃) : ShapeRun h₁ (ops ++ ops') h₃ := by
  induction h with
  | nil => exact h'
  | cons hv he _ ih => exact .cons hv he (ih h')

theorem exists_chain (k : ℕ) : ∃ ops h s, ShapeRun .init ops h ∧
    s < (ops.foldl ShapeOp.act .init).next ∧
    ((ops.foldl ShapeOp.act .init).member s).shared = true ∧
    ((ops.foldl ShapeOp.act .init).member s).depth = k ∧
    (∀ n a, ((ops.foldl ShapeOp.act .init).member s).child n a = none) ∧
    ∀ i, k ≤ i → Change.find (.priv i) ((ops.foldl ShapeOp.act .init).member s).history = none := by
  -- each addition is of a name that the chain does not have yet
  induction k with
  | zero =>
    exact ⟨_, rootHeap, 0, run_rootHeap, by decide, rfl, rfl, fun _ _ => rfl, fun _ _ => rfl⟩
  | succ k ih =>
    obtain ⟨ops, h, s, hrun, hlt, hsh, hd, hc, hfind⟩ := ih
    have hr := hrun.refines refines_init
    have hlive := hr.live_iff.mpr ⟨hlt, .inl hsh⟩
    have hv : (ShapeOp.add s (.priv k) ordinaryAttrs).Valid h :=
      ⟨hlive, ((hr.showsHistory hlive).get _).trans (hfind k le_rfl)⟩
    obtain ⟨h₁, he, -⟩ := hr.step hv
    set F := ops.foldl ShapeOp.act .init with hF
    have hact : (ops ++ [ShapeOp.add s (.priv k) ordinaryAttrs]).foldl ShapeOp.act .init =
        (F.make s ((F.member s).added (.priv k) ordinaryAttrs.1)).modify s fun x =>
          { x with child := Function.update x.child (.priv k)
                    (Function.update (x.child (.priv k)) ordinaryAttrs.1 (some F.next)) } := by
      rw [List.foldl_append, List.foldl_cons, List.foldl_nil, ← hF]
      simp only [ShapeOp.act, Family.add, hsh, if_true, hc]
    have hmember : ((ops ++ [ShapeOp.add s (.priv k) ordinaryAttrs]).foldl ShapeOp.act .init).member F.next =
        (F.member s).added (.priv k) ordinaryAttrs.1 := by
      rw [hact]
      simp [Family.modify, Family.make, hlt.ne']
    refine ⟨_, h₁, F.next, hrun.append (.cons hv he (.nil h₁)), ?_, ?_, ?_, ?_, ?_⟩
    · rw [hact]
      exact Nat.lt_succ_self _
    · rw [hmember]
      exact hsh
    · rw [hmember, Member.added, hsh, if_pos rfl, hd]
    · rw [hmember]
      exact fun _ _ => rfl
    · intro i hi
      rw [hmember, Member.added, Change.find, if_neg (by simp; omega)]
      exact hfind i (by omega)

end Starlight
