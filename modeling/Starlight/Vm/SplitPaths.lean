import Starlight.Vm.SplitLoop

/-!
# The two ways of splitting

The loop and the searcher give the same array where the matches follow each other from the start of the text
on: in front of a match that does not start where the loop looked, the piece of the searcher is some text,
and that of the loop is empty.
-/

namespace Starlight

/-- The loop ends with the array of the fast path. -/
def FastSplitLaw (matcher : Matcher) (flags : List Char) (s : JsString) (limit : Option ℕ) : Prop :=
  ∃ fuel, regexpSplit matcher flags s limit fuel =
    some (.ok ((regexpSplitFast matcher s.string limit).map some))

/-- The rest of the text from `p` on is the same in bytes and in units of UTF-16, and the loop reaches its
end. -/
def SameRest (text : List Char) (unicode : Bool) (p : ℕ) : Prop :=
  p = utf8Length text ∨ IsAscii (slice text 0 p) ∧ ¬ (unicode = true ∧ p + 1 < utf8Length text)

/-- The matches from `p` on follow each other and none is empty, and there are less of them than pieces to
take; or the last piece is in front of an empty match, and the loop stops there as well. -/
def SameSplit (text : List Char) (unicode : Bool) : ℕ → ℕ → List Match → Prop
  | p, _, [] => SameRest text unicode p
  | p, left, m :: ms =>
    (m.start = p ∧ p < m.end_ ∧ 1 < left ∧ SameSplit text unicode m.end_ (left - 1) ms) ∨
      m.start = p ∧ m.end_ = p ∧ left = 1 ∧ SameRest text unicode p ∧
        (p = utf8Length text ∨ ms = [] ∨ ∃ c, slice text p (utf8Length text) = [c] ∧ c.toNat < 0x10000)

/-- When the loop ends with the array of the fast path. -/
def FastSplitExact (matcher : Matcher) (flags : List Char) (s : JsString) (limit : Option ℕ) : Prop :=
  limit = some 0 ∨ s.string = [] ∨ s.len < 2 ^ 31 ∧
    SameSplit s.string (flags.contains 'u') 0 (limit.elim (2 ^ 32 - 1) toU32) (matcher.findIter s.string)

section

variable {matcher : Matcher} {splitter : RegExp} {s : JsString} {limit left a b p q : ℕ} {unicode : Bool}
  {result : List (Option (List Char))} {y : List (List Char)} {m : Match} {ms : List Match}
  {text : List Char}

/-! ### Pieces that are not empty -/

theorem slice_ne_nil (h : IsRange text (a, b)) (hlt : a < b) : slice text a b ≠ [] := by
  intro hnil
  have hlen := utf8Length_slice h
  rw [hnil, utf8Length_nil] at hlen
  omega

theorem exists_pieces_cons (hp : IsBoundary text p) (hlt : p < utf8Length text)
    (h : left = 0 ∨ ∀ m ∈ ms.head?, p < m.start ∧ IsBoundary text m.start) :
    ∃ piece rest, pieces text (left + 1) p ms = piece :: rest ∧ piece ≠ [] := by
  have hrest : slice text p (utf8Length text) ≠ [] := slice_ne_nil ⟨hlt.le, hp, isBoundary_length text⟩ hlt
  rcases left with _ | left
  · exact ⟨_, _, rfl, hrest⟩
  · have hhead := h.resolve_left (Nat.succ_ne_zero left)
    rcases ms with _ | ⟨m, ms⟩
    · exact ⟨_, _, rfl, hrest⟩
    · obtain ⟨hlt, hm⟩ := hhead m rfl
      exact ⟨_, _, rfl, slice_ne_nil ⟨hlt.le, hp, hm⟩ hlt⟩

theorem Iterates.length_le {k : ℕ} (h : Iterates (matcher.matchAt text) k ms)
    (hk : k ≤ utf8Length text + 1) : ms.length + k ≤ utf8Length text + 1 := by
  induction h with
  | nil => rwa [List.length_nil, Nat.zero_add]
  | @cons k m ms hfirst hrest ih =>
    have hstart := hfirst.1
    obtain ⟨hle, hend⟩ := Matcher.end_le hfirst.2.1
    have hnext : k + 1 ≤ m.next ∧ m.next ≤ utf8Length text + 1 := by
      unfold Match.next
      split <;> omega
    have hrest := ih hnext.2
    rw [List.length_cons]
    omega

/-! ### The loop from a position on -/

theorem slice_of_append {u v : List Char} (h : text = u ++ v) (hu : utf8Length u = p) :
    slice text 0 p = u ∧ slice text p (utf8Length text) = v := by
  have hfirst := slice_append [] u v
  have hlast := slice_append u v []
  rw [List.nil_append, utf8Length_nil, Nat.zero_add, ← h, hu] at hfirst
  rw [List.append_nil, ← utf8Length_append, ← h, hu] at hlast
  exact ⟨hfirst, hlast⟩

theorem substring_slice_iff (hs : s.len < 2 ^ 31) (hp : IsBoundary s.string p) :
    substring s p s.len = .ok (slice s.string p s.len) ↔ p = s.len ∨ IsAscii (slice s.string 0 p) := by
  obtain ⟨u, v, h, hu⟩ := hp
  obtain ⟨hfirst, hlast⟩ := slice_of_append h hu
  have hlen : s.len = p + utf8Length v := by rw [JsString.len, h, utf8Length_append, hu]
  have hnil : v = [] ↔ p = s.len := by
    have hle := length_le_utf8Length v
    constructor
    · rintro rfl
      exact hlen.symm
    · intro heq
      exact List.eq_nil_of_length_eq_zero (by omega)
  rw [hfirst, show slice s.string p s.len = v from hlast, substring_rest_iff hs h hu, hnil]

theorem ok_append_inj {x z : List (Option (List Char))} :
    Except.ok (ε := List Char) (result ++ x) = .ok (result ++ z) ↔ x = z := by
  rw [Except.ok.injEq, List.append_cancel_left_eq]

theorem remaining_iff (hs : s.len < 2 ^ 31) (hp : IsBoundary s.string p) :
    Except.ok (result ++ (pieces s.string (left + 1) p ms).map some) =
        splitRemaining result (substring s p s.len) ↔
      (left = 0 ∨ ms = []) ∧ (p = s.len ∨ IsAscii (slice s.string 0 p)) := by
  by_cases hone : left = 0 ∨ ms = []
  · have hpieces : pieces s.string (left + 1) p ms = [slice s.string p s.len] := by
      rcases hone with rfl | rfl
      · rfl
      · cases left <;> rfl
    rw [and_iff_right hone, ← substring_slice_iff hs hp, hpieces]
    cases substring s p s.len with
    | error e => exact iff_of_false (by rintro ⟨⟩) (by rintro ⟨⟩)
    | ok t =>
      rw [splitRemaining, ok_append_inj, List.map_cons, List.map_nil, List.singleton_inj, Option.some.injEq,
        Except.ok.injEq]
      exact eq_comm
  · refine iff_of_false (fun h => hone ?_) fun h => hone h.1
    cases hsub : substring s p s.len with
    | error e =>
      rw [hsub] at h
      cases h
    | ok t =>
      rw [hsub, splitRemaining, ok_append_inj] at h
      have hlen := congrArg List.length h
      rw [List.length_map, length_pieces, List.length_singleton] at hlen
      rcases Nat.eq_zero_or_pos ms.length with hms | hms
      · exact .inr (List.eq_nil_of_length_eq_zero hms)
      · exact .inl (by omega)

theorem ends_nil_iff (hs : s.len < 2 ^ 31) (hp : IsBoundary s.string p)
    (h : FirstFrom (splitter.matcher.matchAt s.string) p none) :
    Ends splitter s limit unicode p p result (.ok (result ++ (pieces s.string (left + 1) p []).map some)) ↔
      SameRest s.string unicode p := by
  unfold SameRest
  rw [ends_of_none hs hp.le h]
  split
  · next hthrow =>
    refine iff_of_false nofun ?_
    rintro (hend | ⟨-, hnot⟩)
    · have hlt := hthrow.2
      unfold JsString.len at hlt
      omega
    · exact hnot hthrow
  · next hthrow =>
    have hnot : ¬ (unicode = true ∧ p + 1 < utf8Length s.string) := hthrow
    rw [remaining_iff hs hp, and_iff_right (.inr rfl), and_iff_left hnot]
    rfl

theorem Ends.head (huse : splitter.useLastIndex = true) (hcap : splitter.matcher.CaptureFree)
    (hs : s.len < 2 ^ 31) (hp : p < s.len) (h : FirstFrom (splitter.matcher.matchAt s.string) p (some m))
    (hm : m.end_ ≠ p) {piece : List Char}
    (hends : Ends splitter s limit unicode p p result (.ok (result ++ (piece :: y).map some))) :
    piece = [] := by
  have hrest := (ends_push huse hcap hs hp h hm (substring_self hs p)).mp hends
  have hend := Matcher.end_le h.2.1
  have hhead : ∃ rest, result ++ (piece :: y).map some = result ++ some [] :: rest := by
    split at hrest
    · exact ⟨[], Except.ok.inj hrest⟩
    · obtain ⟨rest, hrest, -⟩ := hrest.exists_append huse hcap hs le_rfl hend.2
      exact ⟨rest, by rw [hrest, List.append_assoc]; rfl⟩
  obtain ⟨rest, hrest⟩ := hhead
  exact Option.some.inj (List.cons.inj (List.append_cancel_left hrest)).1

theorem length_utf16_le_of_substring (hs : s.len < 2 ^ 31) (h : substring s p (p + 1 : ℕ) = .ok []) :
    (utf16 s.string).length ≤ p := by
  rw [substring_eq_ok_iff hs (Nat.le_succ p)] at h
  have hlen := congrArg List.length h
  rw [List.length_take, List.length_drop, utf16_nil, List.length_nil] at hlen
  omega

theorem ends_empty_iff (huse : splitter.useLastIndex = true) (hcap : splitter.matcher.CaptureFree)
    (hs : s.len < 2 ^ 31) (hp : IsBoundary s.string p) (hlt : p < s.len)
    (h : Iterates (splitter.matcher.matchAt s.string) p (m :: ms)) (hend : m.end_ = p)
    (hlimit : result.length + (left + 1) = limit) :
    Ends splitter s limit unicode p p result
        (.ok (result ++ (pieces s.string (left + 1) p (m :: ms)).map some)) ↔
      left = 0 ∧ SameRest s.string unicode p ∧
        (ms = [] ∨ ∃ c, slice s.string p s.len = [c] ∧ c.toNat < 0x10000) := by
  cases h with | cons hfirst hrest => ?_
  have hstart : m.start = p := by
    have := hfirst.1
    have := (Matcher.end_le hfirst.2.1).1
    omega
  have hnext : m.next = p + 1 := by rw [Match.next, if_neg (by omega), hend]
  rw [hnext] at hrest
  have hsame : SameRest s.string unicode p ↔
      IsAscii (slice s.string 0 p) ∧ ¬ (unicode = true ∧ p + 1 < s.len) := or_iff_right hlt.ne
  rw [hsame, ends_skip huse hcap hs hlt hfirst hend]
  split
  · next hthrow => exact iff_of_false (by rintro ⟨⟩) fun hsame => hsame.2.1.2 hthrow
  next hthrow =>
  rw [and_iff_left hthrow]
  have hstop (hall : ∀ x, Ends splitter s limit unicode p (p + 1) result x ↔
      x = splitRemaining result (substring s p s.len)) :
      Ends splitter s limit unicode p (p + 1) result
          (.ok (result ++ (pieces s.string (left + 1) p (m :: ms)).map some)) ↔
        left = 0 ∧ IsAscii (slice s.string 0 p) := by
    rw [hall, remaining_iff hs hp, or_iff_left (List.cons_ne_nil m ms), or_iff_right hlt.ne]
  cases hrest with
  | nil hnone =>
    have hall := hstop fun x => by rw [ends_of_none hs hlt hnone, if_neg fun h => hthrow ⟨h.1, by omega⟩]
    exact hall.trans (and_congr_right fun _ => (and_iff_left (.inl rfl)).symm)
  | @cons _ m' ms hfirst' hrest' =>
    rw [or_iff_right (List.cons_ne_nil m' ms)]
    obtain ⟨u, v, heq, hu⟩ := id hp
    obtain ⟨hbefore, hbehind⟩ := slice_of_append heq hu
    have hlen : s.len = p + utf8Length v := by rw [JsString.len, heq, utf8Length_append, hu]
    have hv : v ≠ [] := by
      rintro rfl
      rw [utf8Length_nil] at hlen
      omega
    rcases Nat.lt_or_ge (p + 1) s.len with hlt' | hge
    · rw [hbefore, show slice s.string p s.len = v from hbehind, ← substring_one_iff hs heq hu hv]
      have hm' : p < m'.end_ := by
        have hge := hfirst'.1
        have hle := (Matcher.end_le hfirst'.2.1).1
        omega
      cases hsub : substring s p (p + 1 : ℕ) with
      | error e =>
        rw [ends_push_error huse hcap hs hlt' hfirst' hm'.ne' hsub]
        exact iff_of_false (by rintro ⟨⟩) (by rintro ⟨-, ⟨⟩⟩)
      | ok t =>
        rw [ends_push huse hcap hs hlt' hfirst' hm'.ne' hsub]
        split
        · obtain rfl : left = 0 := by omega
          rw [ok_append_inj, and_iff_right rfl, pieces, hbehind, List.map_cons, List.map_nil,
            List.singleton_inj, Option.some.injEq, Except.ok.injEq]
          exact eq_comm
        · refine iff_of_false (fun hends => ?_) fun h => by omega
          obtain ⟨left, rfl⟩ := Nat.exists_eq_succ_of_ne_zero (by omega : left ≠ 0)
          obtain ⟨hle, hlast⟩ := Matcher.end_le hfirst'.2.1
          obtain ⟨rest, hrest, hempty⟩ := hends.exists_append huse hcap hs le_rfl hlast
          rw [pieces, hstart, slice_self _ _ hp, List.append_assoc, List.append_cancel_left_eq] at hrest
          obtain ⟨ht, hrest⟩ := List.cons.inj hrest
          -- nothing but empty pieces comes behind an empty unit
          rw [← Option.some.inj ht] at hsub
          have hunits := length_utf16_le_of_substring hs hsub
          have hstart' : p < m'.start := by
            have := hfirst'.1
            omega
          have hboundary := (splitter.matcher.isRange_of_matchAt hfirst'.2.1 _ List.mem_cons_self).2.1
          obtain ⟨piece, pieces', hpieces, hne⟩ := @exists_pieces_cons left p (m' :: ms) s.string hp hlt
            (.inr fun m hm => Option.some.inj hm ▸ ⟨hstart', hboundary⟩)
          rw [hend, hpieces] at hrest
          have hmem : some piece ∈ rest := by
            rw [← show (piece :: pieces').map some = rest from hrest]
            exact List.mem_cons_self
          exact hne (Option.some.inj (hempty (hunits.trans hm'.le) _ hmem))
    · -- the last character is one byte
      rw [hstop fun x => ends_of_ge hs hge]
      refine and_congr_right fun _ => (and_iff_left ?_).symm
      obtain ⟨c, v, rfl⟩ := List.exists_cons_of_ne_nil hv
      have hpos := c.utf8Size_pos
      have hle := length_le_utf8Length v
      rw [utf8Length_cons] at hlen
      obtain rfl := List.eq_nil_of_length_eq_zero (by omega : v.length = 0)
      refine ⟨c, hbehind, ?_⟩
      rw [utf8Size_eq] at hlen
      split_ifs at hlen <;> omega

/-- **The loop from a position between two characters on.** -/
theorem ends_pieces_iff (huse : splitter.useLastIndex = true) (hcap : splitter.matcher.CaptureFree)
    (hs : s.len < 2 ^ 31) (h : Iterates (splitter.matcher.matchAt s.string) p ms)
    (hp : IsBoundary s.string p) (hlimit : result.length + (left + 1) = limit) :
    Ends splitter s limit unicode p p result
        (.ok (result ++ (pieces s.string (left + 1) p ms).map some)) ↔
      SameSplit s.string unicode p (left + 1) ms := by
  induction ms generalizing p left result with
  | nil =>
    cases h with | nil hnone => exact ends_nil_iff hs hp hnone
  | cons m ms ih =>
    cases h with | cons hfirst hrest => ?_
    obtain ⟨hle, hend⟩ := Matcher.end_le hfirst.2.1
    have hrange := (splitter.matcher.isRange_of_matchAt hfirst.2.1 _ List.mem_cons_self)
    have hstart : p ≤ m.start := Int.ofNat_le.mp hfirst.1
    have hlast : p ≤ s.len := hp.le
    have hone : left = 0 ↔ left + 1 = 1 := by omega
    unfold SameSplit
    rcases hlast.eq_or_lt with heq | hlt
    · -- at the end of the text
      have hend' : m.end_ = p := le_antisymm (hend.trans_eq heq.symm) (hstart.trans hle)
      have hstart' : m.start = p := le_antisymm (hle.trans hend'.le) hstart
      rw [ends_of_ge hs heq.ge, remaining_iff hs hp, or_iff_left (List.cons_ne_nil m ms),
        and_iff_left (.inl heq), or_iff_right fun h => h.2.1.ne' hend', and_iff_right hstart',
        and_iff_right hend', and_iff_left ⟨.inl heq, .inl heq⟩, hone]
    rcases hstart.lt_or_eq with hgap | hsame
    · -- there is text in front of the match
      refine iff_of_false (fun hends => ?_) fun h => h.elim (fun h => hgap.ne' h.1) fun h => hgap.ne' h.1
      obtain ⟨piece, rest, hpieces, hne⟩ := @exists_pieces_cons left p (m :: ms) s.string hp hlt
        (.inr fun m' hm => Option.some.inj hm ▸ ⟨hgap, hrange.2.1⟩)
      rw [hpieces] at hends
      exact hne (hends.head huse hcap hs hlt hfirst (hgap.trans_le hle).ne')
    rcases (hsame.trans_le hle).lt_or_eq with hlong | hempty
    · rw [or_iff_left fun h => hlong.ne' h.2.1, and_iff_right hsame.symm, and_iff_right hlong]
      rcases left with _ | left
      · refine iff_of_false (fun hends => ?_) fun h => lt_irrefl _ h.1
        obtain ⟨piece, rest, hpieces, hne⟩ := @exists_pieces_cons 0 p (m :: ms) s.string hp hlt (.inl rfl)
        rw [hpieces] at hends
        exact hne (hends.head huse hcap hs hlt hfirst hlong.ne')
      · have hnext : m.next = m.end_ := if_pos (hsame ▸ hlong)
        rw [hnext] at hrest
        have hpushed : (result ++ [some []]).length + (left + 1) = limit := by
          rw [List.length_append, List.length_singleton]
          omega
        rw [and_iff_right (Nat.lt_add_of_pos_left (Nat.succ_pos left)), Nat.add_sub_cancel,
          ← @ih left m.end_ (result ++ [some []]) hrest hrange.2.2 hpushed, pieces, ← hsame,
          slice_self _ _ hp, List.map_cons, List.append_cons,
          ends_push huse hcap hs hlt hfirst hlong.ne' (substring_self hs p), if_neg (by omega)]
    · refine (ends_empty_iff huse hcap hs hp hlt (.cons hfirst hrest) hempty.symm hlimit).trans ?_
      have hnot : ¬ (m.start = p ∧ p < m.end_ ∧ 1 < left + 1 ∧
          SameSplit s.string unicode m.end_ (left + 1 - 1) ms) := fun h => absurd h.2.1 hempty.not_lt
      have hinside : p ≠ utf8Length s.string := hlt.ne
      rw [or_iff_right hnot, or_iff_right hinside, and_iff_right hsame.symm, and_iff_right hempty.symm,
        hone]
      rfl

/-! ### The two ways -/

variable {flags : List Char} {limit' : Option ℕ}

theorem regexpSplit_zero (fuel : ℕ) : regexpSplit matcher flags s (some 0) fuel = some (.ok []) := by
  unfold regexpSplit
  dsimp only
  rw [Option.elim_some, toU32_eq, Nat.zero_min, if_pos rfl]

theorem toU32_elim_pos (hlimit : limit' ≠ some 0) {d : ℕ} (hd : 0 < d) : 0 < limit'.elim d toU32 := by
  cases limit' with
  | none => exact hd
  | some n =>
    have hn : 0 < n := Nat.pos_of_ne_zero fun h => hlimit (congrArg some h)
    rw [Option.elim_some, toU32_eq]
    omega

def splitterOf (matcher : Matcher) (flags : List Char) : RegExp :=
  RegExp.new matcher (if flags.contains 'y' then flags else flags ++ ['y'])

theorem useLastIndex_splitterOf (matcher : Matcher) (flags : List Char) :
    (splitterOf matcher flags).useLastIndex = true := by
  unfold splitterOf RegExp.new
  dsimp only
  rw [Bool.or_eq_true]
  right
  split
  · assumption
  · rw [List.contains_iff_mem]
    exact List.mem_append_right _ List.mem_cons_self

theorem regexpSplit_eq (hlimit : limit' ≠ some 0) (hlength : s.lengthProperty ≠ 0) (fuel : ℕ) :
    regexpSplit matcher flags s limit' fuel = splitLoop (splitterOf matcher flags) s
      (limit'.elim (2 ^ 32 - 1) toU32) (flags.contains 'u') fuel 0 0 [] := by
  unfold regexpSplit
  dsimp only
  rw [if_neg (toU32_elim_pos hlimit (by decide)).ne', if_neg hlength]
  rfl

theorem findFrom_zero (splitter : RegExp) (s : JsString) :
    found splitter 0 s = splitter.matcher.findFrom s.string 0 := by
  have hzero : toI32 0 = 0 := toI32_eq 0
  rw [found, hzero]
  rfl

theorem regexpSplit_empty (hlimit : limit' ≠ some 0) (hs : s.string = []) (fuel : ℕ) :
    regexpSplit matcher flags s limit' fuel =
      some (.ok ((regexpSplitFast matcher s.string limit').map some)) := by
  have hlength : s.lengthProperty = 0 := by
    rw [JsString.lengthProperty, JsString.len, hs]
    rfl
  have hfind : (splitterOf matcher flags).matcher.findFrom s.string 0 = matcher.findFrom [] 0 := by
    rw [hs]
    rfl
  have hloop : regexpSplit matcher flags s limit' fuel =
      (regexpExec (splitterOf matcher flags) 0 s.string).map fun r =>
        .ok (if r.1.isSome then [] else [some s.string]) := by
    unfold regexpSplit
    dsimp only
    rw [if_neg (toU32_elim_pos hlimit (by decide)).ne', if_pos hlength]
    rfl
  rw [hloop, exec_eq, Option.map_some]
  dsimp only
  rw [Option.isSome_map, findFrom_zero, hfind, hs,
    regexpSplitFast_nil matcher (toU32_elim_pos hlimit (by decide)).ne']
  cases matcher.findFrom [] 0 <;> rfl

theorem substring_of_nonpos {end_ : ℤ} (h : end_ ≤ 0) : substring s 0 end_ = .ok [] := by
  have hzero : toI32 0 = 0 := toI32_eq 0
  have hneg : toI32 end_ ≤ 0 := by
    rw [toI32_eq]
    omega
  unfold substring stringSubstring
  dsimp only
  rw [hzero, Option.getD_some, Option.getD_some, max_self, max_eq_right hneg, min_self, max_self, sub_self]
  rfl

theorem ends_of_long (hs : 2 ^ 31 ≤ s.len) {x : SplitResult} :
    Ends splitter s limit unicode 0 0 [] x ↔ x = .ok [some []] := by
  have hfits : s.len < 2 ^ 32 := s.fits
  have hneg : s.lengthProperty < 0 := by
    rw [lengthProperty_of_ge hs]
    omega
  refine ends_of_inl ?_
  have hsub : substring s 0 s.lengthProperty = .ok [] := substring_of_nonpos hneg.le
  rw [splitRound, Nat.cast_zero, if_neg hneg.not_gt, hsub]
  rfl

/-- **When the loop ends with the array of the fast path.** -/
theorem fastSplitLaw_iff (hcap : matcher.CaptureFree) :
    FastSplitLaw matcher flags s limit' ↔ FastSplitExact matcher flags s limit' := by
  unfold FastSplitLaw FastSplitExact
  by_cases hlimit : limit' = some 0
  · refine iff_of_true ⟨0, ?_⟩ (.inl hlimit)
    rw [hlimit, regexpSplit_zero]
    unfold regexpSplitFast
    dsimp only
    rw [Option.elim_some, toU32_eq, Nat.zero_min, if_pos rfl, List.map_nil]
  rw [or_iff_right hlimit]
  by_cases hs : s.string = []
  · exact iff_of_true ⟨0, regexpSplit_empty hlimit hs 0⟩ (.inl hs)
  rw [or_iff_right hs]
  have hpos : 0 < s.len := utf8Length_pos hs
  have hfits : s.len < 2 ^ 32 := s.fits
  have hlength : s.lengthProperty ≠ 0 := by
    rw [lengthProperty_eq]
    split <;> omega
  have hends (x : SplitResult) : (∃ fuel, regexpSplit matcher flags s limit' fuel = some x) ↔
      Ends (splitterOf matcher flags) s (limit'.elim (2 ^ 32 - 1) toU32) (flags.contains 'u') 0 0 [] x := by
    unfold Ends
    simp only [regexpSplit_eq hlimit hlength, Nat.cast_zero]
  rw [hends, regexpSplitFast_eq matcher hs]
  have hzero := isBoundary_zero s.string
  obtain ⟨d, hd⟩ := Nat.exists_eq_succ_of_ne_zero (toU32_elim_pos hlimit (by decide : 0 < 2 ^ 32 - 2)).ne'
  have hiterates := matcher.findIter_iterates s.string
  rcases Nat.lt_or_ge s.len (2 ^ 31) with hshort | hlong
  · have hcount := hiterates.length_le (Nat.zero_le _)
    have hsame : pieces s.string (limit'.elim (2 ^ 32 - 2) toU32) 0 (matcher.findIter s.string) =
        pieces s.string (limit'.elim (2 ^ 32 - 1) toU32) 0 (matcher.findIter s.string) := by
      cases limit' with
      | none =>
        unfold JsString.len at hshort
        exact pieces_eq_of_lt (by rw [Option.elim_none]; omega) (by rw [Option.elim_none]; omega) 0
      | some n => rfl
    obtain ⟨left, hleft⟩ :=
      Nat.exists_eq_succ_of_ne_zero (toU32_elim_pos hlimit (by decide : 0 < 2 ^ 32 - 1)).ne'
    rw [hsame, and_iff_right hshort, hleft]
    exact ends_pieces_iff (useLastIndex_splitterOf matcher flags) hcap hshort hiterates hzero
      (Nat.zero_add _)
  · -- one empty piece is not the text
    refine iff_of_false (fun h => ?_) fun h => absurd h.1 (Nat.not_lt.mpr hlong)
    have hpieces := Except.ok.inj ((ends_of_long hlong).mp h)
    have hone : pieces s.string (d + 1) 0 (matcher.findIter s.string) = [[]] := by
      rw [hd] at hpieces
      exact List.map_injective_iff.mpr (Option.some_injective _) hpieces
    have hjoin := joinWith_pieces (inOrder_findIter matcher s.string) hzero d
    rw [hone, slice_whole, joinWith, List.zipWith_nil_right] at hjoin
    exact hs hjoin.symm

/-- **Splitting a string at a string, and at an expression without groups.** -/
theorem split_laws_iff (matcher : Matcher) (hcap : matcher.CaptureFree) (flags : List Char) (s : JsString)
    (separator : Option (List Char)) (between : List Char) (n : ℕ) (limit' : Option ℕ) :
    StringPrefixLaw s separator n ∧ (StringJoinLaw s between ↔ StringJoinExact s between) ∧
    (RegExpPrefixLaw matcher s n ↔ RegExpPrefixExact matcher s n) ∧ RegExpJoinLaw matcher s ∧
    (FastSplitLaw matcher flags s limit' ↔ FastSplitExact matcher flags s limit') :=
  ⟨stringPrefixLaw s separator n, stringJoinLaw_iff, regExpPrefixLaw_iff, regExpJoinLaw matcher s,
    fastSplitLaw_iff hcap⟩

theorem captureFree_literal (t : List Char) : (Matcher.literal t).CaptureFree := by
  intro s p m h
  rw [(eq_of_literalMatchAt h).1]

/-- `"a,b".split(/,/, 1)` is not the first piece of `"a,b".split(/,/)`, which the loop would not give
either, and `"😀".split("")` is not the string. -/
theorem not_split_laws :
    ¬ RegExpPrefixLaw (.literal [',']) ⟨['a', ',', 'b'], by decide⟩ 1 ∧
    ¬ FastSplitLaw (.literal [',']) [] ⟨['a', ',', 'b'], by decide⟩ none ∧
    ¬ StringJoinLaw ⟨['😀'], by decide⟩ [] := by
  have hiter : (Matcher.literal [',']).findIter ['a', ',', 'b'] = [⟨1, 2, []⟩] := by decide
  refine ⟨fun h => ?_, fun h => ?_, fun h => absurd (stringJoinLaw_iff.mp h) ?_⟩
  · rw [regExpPrefixLaw_iff, RegExpPrefixExact, hiter] at h
    rcases h with h | h | h | h | ⟨-, m, hm, hstart⟩
    · cases h
    · cases h
    · exact absurd h (by decide)
    · exact absurd h (by decide)
    · obtain rfl := Option.some.inj hm
      exact absurd hstart (by decide)
  · rw [fastSplitLaw_iff (captureFree_literal _), FastSplitExact, hiter] at h
    rcases h with h | h | ⟨-, ⟨h, -⟩ | ⟨h, -⟩⟩
    · cases h
    · cases h
    · cases h
    · cases h
  · rintro (⟨-, h⟩ | ⟨h, -⟩)
    · exact absurd (h '😀' List.mem_cons_self) (by decide)
    · exact h rfl

/-- The laws for `"a,b"` and the expression `/,/`. -/
theorem split_laws_iff_comma :
    (Matcher.literal [',']).CaptureFree ∧
    (RegExpPrefixLaw (.literal [',']) ⟨['a', ',', 'b'], by decide⟩ 2 ↔
      RegExpPrefixExact (.literal [',']) ⟨['a', ',', 'b'], by decide⟩ 2) ∧
    RegExpJoinLaw (.literal [',']) ⟨['a', ',', 'b'], by decide⟩ :=
  have h := split_laws_iff (.literal [',']) (captureFree_literal [',']) [] ⟨['a', ',', 'b'], by decide⟩ none
    [','] 2 none
  ⟨captureFree_literal [','], h.2.2.1, h.2.2.2.1⟩

end

end Starlight
