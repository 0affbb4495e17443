import GetterRename.Patch.Line
import Mathlib.Data.List.Nodup

/-!
# The spans of a line

The renames of a line that have a place are its spans.  A span is a whole run of identifier bytes,
and two runs that start at different places stand apart from each other, however the places were
found.  So it makes no difference that the spans are replaced from right to left: they can be
replaced in one walk from left to right, and that walk cuts the line into stretches, of which some
are kept and the others get a new name.

* `Line.AllIdent.le_of_isIdentAt`, `Line.apart` — identifiers stand apart;
* `Line.patch_eq_splice` — the rightmost edit first, or the leftmost;
* `Line.spans`, `Line.lost` — the renames that have a place, and those that have none;
* `Line.cut` — the stretches of a line;
* `Line.rewrites_patch` — a patched line differs from the line in whole identifiers.
-/

namespace GetterRename.Line

/-! ### Identifiers -/

theorem isIdentAt_iff {text : Bytes} {start : Nat} {name : Bytes} :
    isIdentAt text start name = true ↔
      start + name.length ≤ text.length ∧ (text.drop start).take name.length = name ∧
        (start = 0 ∨ text[start - 1]?.any isIdentByte = false) ∧
        text[start + name.length]?.any isIdentByte = false := by
  simp [isIdentAt, and_assoc]

theorem drop_of_isIdentAt {text : Bytes} {start : Nat} {name : Bytes}
    (h : isIdentAt text start name = true) :
    text.drop start = name ++ text.drop (start + name.length) := by
  obtain ⟨-, htake, -, -⟩ := isIdentAt_iff.1 h
  conv => lhs; rw [← List.take_append_drop name.length (text.drop start)]
  rw [htake, List.drop_drop]

structure IsWord (name : Bytes) : Prop where
  ne_nil : name ≠ []
  ident : ∀ b ∈ name, isIdentByte b = true

/-- Identifier bytes only, from position `i` up to `j`. -/
structure AllIdent (text : Bytes) (i j : Nat) : Prop where
  le : i ≤ j
  le_length : j ≤ text.length
  ident : ∀ k, i ≤ k → k < j → text[k]?.any isIdentByte = true

theorem IsWord.allIdent {text name : Bytes} {i : Nat} (hname : IsWord name)
    (h : name <+: text.drop i) : AllIdent text i (i + name.length) := by
  have hpos := List.length_pos_iff.2 hname.ne_nil
  have hlen := h.length_le
  rw [List.length_drop] at hlen
  refine ⟨Nat.le_add_right i _, by omega, fun k hik hk => ?_⟩
  have hbyte : text[k]? = name[k - i]? := by
    obtain ⟨rest, hrest⟩ := h
    rw [← Nat.add_sub_cancel' hik, ← List.getElem?_drop, ← hrest,
      List.getElem?_append_left (by omega), Nat.add_sub_cancel_left]
  rw [hbyte, List.getElem?_eq_getElem (by omega)]
  exact hname.ident _ (List.getElem_mem _)

/-- No identifier begins inside of a run of identifier bytes. -/
theorem AllIdent.le_of_isIdentAt {text name : Bytes} {i j k : Nat} (h : AllIdent text i j)
    (hk : isIdentAt text k name = true) (hik : i < k) : j ≤ k := by
  obtain ⟨-, -, hbefore, -⟩ := isIdentAt_iff.1 hk
  by_contra hlt
  -- the byte in front of the identifier would belong to the run
  have hbyte := h.ident (k - 1) (by omega) (by omega)
  rw [hbefore.resolve_left (by omega)] at hbyte
  cases hbyte

theorem apart {text : Bytes} {i j : Nat} {name name' : Bytes} (hname : IsWord name)
    (hi : isIdentAt text i name = true) (hj : isIdentAt text j name' = true) (hij : i < j) :
    i + name.length ≤ j :=
  (hname.allIdent ⟨_, (drop_of_isIdentAt hi).symm⟩).le_of_isIdentAt hj hij

/-! ### Edits from the right and from the left -/

/-- The edits stand apart from each other, from left to right and from `n` on. -/
def Ascending : Nat → List Edit → Prop
  | _, [] => True
  | n, e :: es => n ≤ e.start ∧ e.start < e.stop ∧ Ascending e.stop es

theorem Ascending.forall_le {n : Nat} {es : List Edit} (h : Ascending n es) :
    ∀ e ∈ es, n ≤ e.start := by
  induction es generalizing n with
  | nil => simp
  | cons e es ih =>
    intro e' he'
    rcases List.mem_cons.1 he' with rfl | he'
    · exact h.1
    · exact Nat.le_trans (Nat.le_trans h.1 (Nat.le_of_lt h.2.1)) (ih h.2.2 e' he')

theorem Ascending.pairwise {n : Nat} {es : List Edit} (h : Ascending n es) :
    es.Pairwise fun a b => a.start < b.start := by
  induction es generalizing n with
  | nil => exact .nil
  | cons e es ih =>
    rw [List.pairwise_cons]
    exact ⟨fun e' he' => Nat.lt_of_lt_of_le h.2.1 (h.2.2.forall_le e' he'), ih h.2.2⟩

/-- The rest of a line from `n` on with its spans replaced, from left to right. -/
def splice : Nat → Bytes → List Edit → Bytes
  | _, rest, [] => rest
  | n, rest, e :: es =>
    rest.take (e.start - n) ++ e.text ++ splice e.stop (rest.drop (e.stop - n)) es

theorem foldr_replace {line : Bytes} {n : Nat} {es : List Edit} (h : Ascending n es)
    (hlen : ∀ e ∈ es, e.stop ≤ line.length) :
    es.foldr (fun e acc => replace acc e) line = line.take n ++ splice n (line.drop n) es := by
  induction es generalizing n with
  | nil => simp [splice]
  | cons e es ih =>
    obtain ⟨h1, h2, h3⟩ := h
    obtain ⟨hstop, hlen⟩ := List.forall_mem_cons.1 hlen
    have hlength : (line.take e.stop).length = e.stop := by simp; omega
    have hdrop : (line.take e.stop ++ splice e.stop (line.drop e.stop) es).drop e.stop =
        splice e.stop (line.drop e.stop) es := by
      rw [List.drop_append_of_le_length (by omega), List.drop_of_length_le (by omega),
        List.nil_append]
    have hsplit : line.take e.start = line.take n ++ (line.drop n).take (e.start - n) := by
      rw [← List.take_add, Nat.add_sub_cancel' h1]
    rw [List.foldr_cons, ih h3 hlen, replace, List.take_append_of_le_length (by omega),
      List.take_take, Nat.min_eq_left (Nat.le_of_lt h2), hdrop, splice, List.drop_drop,
      show n + (e.stop - n) = e.stop by omega, hsplit]
    simp only [List.append_assoc]

/-- The rightmost edit first, or the leftmost: it makes no difference. -/
theorem patch_eq_splice {line : Bytes} {es asc : List Edit} (hperm : es.Perm asc)
    (h : Ascending 0 asc) (hlen : ∀ e ∈ asc, e.stop ≤ line.length) :
    patch line es = splice 0 line asc := by
  have hsort : es.mergeSort (fun a b => b.start ≤ a.start) = asc.reverse := by
    have hdesc : asc.reverse.Pairwise fun a b => b.start < a.start := by
      rw [List.pairwise_reverse]
      exact h.pairwise
    have hsorted : (es.mergeSort fun a b => b.start ≤ a.start).Pairwise
        fun a b => decide (b.start ≤ a.start) = true :=
      List.pairwise_mergeSort (by simp; omega) (by simp; omega) es
    have hinj : (asc.map Edit.start).Nodup := by
      rw [List.Nodup, List.pairwise_map]
      exact h.pairwise.imp Nat.ne_of_lt
    refine List.Perm.eq_of_pairwise (fun a b ha hb hab hba => ?_) hsorted ?_
      ((List.mergeSort_perm _ _).trans (hperm.trans asc.reverse_perm.symm))
    · simp only [decide_eq_true_eq] at hab hba
      rw [List.mem_mergeSort, hperm.mem_iff] at ha
      rw [List.mem_reverse] at hb
      exact List.inj_on_of_nodup_map hinj ha hb (Nat.le_antisymm hba hab)
    · exact hdesc.imp fun {a b} hab => by simpa using Nat.le_of_lt hab
  rw [patch, hsort, List.foldl_reverse, foldr_replace h hlen]
  simp

/-! ### Spans -/

/-- A rename and its place on a line. -/
structure Span where
  rename : Rename
  start : Nat

namespace Span

def stop (s : Span) : Nat := s.start + s.rename.name.length

def edit (s : Span) : Edit := ⟨s.start, s.stop, s.rename.newName.text⟩

end Span

/-- The spans are words of the line, from left to right. -/
structure Stand (text : Bytes) (ss : List Span) : Prop where
  word : ∀ s ∈ ss, IsWord s.rename.name
  ident : ∀ s ∈ ss, isIdentAt text s.start s.rename.name = true
  sorted : ss.Pairwise fun a b => a.start < b.start

namespace Stand

variable {text : Bytes} {s : Span} {ss : List Span}

theorem tail (h : Stand text (s :: ss)) : Stand text ss :=
  ⟨(List.forall_mem_cons.1 h.word).2, (List.forall_mem_cons.1 h.ident).2,
    (List.pairwise_cons.1 h.sorted).2⟩

theorem stop_le (h : Stand text (s :: ss)) : ∀ t ∈ ss, s.stop ≤ t.start := by
  intro t ht
  exact apart (h.word s (by simp)) (h.ident s (by simp)) (h.tail.ident t ht)
    ((List.pairwise_cons.1 h.sorted).1 t ht)

theorem ascending (h : Stand text ss) {n : Nat} (hn : ∀ s ∈ ss, n ≤ s.start) :
    Ascending n (ss.map Span.edit) := by
  induction ss generalizing n with
  | nil => trivial
  | cons s ss ih =>
    have hpos := List.length_pos_iff.2 (h.word s (by simp)).ne_nil
    refine ⟨hn s (by simp), ?_, ih h.tail h.stop_le⟩
    simp only [Span.edit, Span.stop]
    omega

theorem stop_le_length (h : Stand text ss) : ∀ e ∈ ss.map Span.edit, e.stop ≤ text.length := by
  rw [List.forall_mem_map]
  exact fun s hs => (isIdentAt_iff.1 (h.ident s hs)).1

end Stand

/-! ### The spans of the renames of a line -/

theorem place?_spec {text : Bytes} {r : Rename} {tool : Tool} {claimed : List Nat} {start : Nat}
    (h : place? text r tool claimed = some start) :
    isIdentAt text start r.name = true ∧ start ∉ claimed := by
  simp only [place?] at h
  split at h
  · rename_i hcolumn
    obtain rfl := Option.some.inj h
    simp only [Bool.and_eq_true, decide_eq_true_eq, Bool.not_eq_true',
      List.contains_eq_mem, decide_eq_false_iff_not] at hcolumn
    exact ⟨hcolumn.1.2, hcolumn.2⟩
  · have hfound := List.find?_some h
    simp only [Bool.and_eq_true, Bool.not_eq_true', List.contains_eq_mem,
      decide_eq_false_iff_not] at hfound
    exact hfound.1

/-- The renames that have a place on the line, with their places. -/
def spans (text : Bytes) (tool : Tool) (claimed : List Nat) (rs : List Rename) : List Span :=
  (locate text tool claimed rs).filterMap fun (r, edit) => edit.map fun e => ⟨r, e.start⟩

/-- The renames that have no place on the line. -/
def lost (text : Bytes) (tool : Tool) (claimed : List Nat) (rs : List Rename) : List Rename :=
  (locate text tool claimed rs).filterMap fun (r, edit) => if edit.isNone then some r else none

section Locate

variable {text : Bytes} {tool : Tool} {claimed : List Nat} {r : Rename} {start : Nat}

theorem spans_cons_of_some (h : place? text r tool claimed = some start) (rs : List Rename) :
    spans text tool claimed (r :: rs) = ⟨r, start⟩ :: spans text tool (start :: claimed) rs := by
  simp [spans, locate, h]

theorem spans_cons_of_none (h : place? text r tool claimed = none) (rs : List Rename) :
    spans text tool claimed (r :: rs) = spans text tool claimed rs := by
  simp [spans, locate, h]

theorem lost_cons_of_some (h : place? text r tool claimed = some start) (rs : List Rename) :
    lost text tool claimed (r :: rs) = lost text tool (start :: claimed) rs := by
  simp [lost, locate, h]

theorem lost_cons_of_none (h : place? text r tool claimed = none) (rs : List Rename) :
    lost text tool claimed (r :: rs) = r :: lost text tool claimed rs := by
  simp [lost, locate, h]

end Locate

variable {text : Bytes} {tool : Tool} {rs : List Rename}

theorem filterMap_locate_rename (claimed : List Nat) :
    ((locate text tool claimed rs).filterMap fun (r, edit) => edit.map fun _ => r) =
      (spans text tool claimed rs).map (·.rename) := by
  simp [spans, List.map_filterMap, Function.comp_def]

theorem filterMap_locate_edit (claimed : List Nat) :
    (locate text tool claimed rs).filterMap (·.2) = (spans text tool claimed rs).map Span.edit := by
  induction claimed, rs using locate.induct text tool with
  | case1 claimed => rfl
  | case2 claimed r rs start hplace ih =>
    rw [spans_cons_of_some hplace, List.map_cons, ← ih]
    simp [locate, hplace, Span.edit, Span.stop]
  | case3 claimed r rs hplace ih =>
    rw [spans_cons_of_none hplace, ← ih]
    simp [locate, hplace]

/-- Every rename has a place or has none. -/
theorem perm_spans_lost (claimed : List Nat) :
    ((spans text tool claimed rs).map (·.rename) ++ lost text tool claimed rs).Perm rs := by
  induction claimed, rs using locate.induct text tool with
  | case1 claimed => exact .refl _
  | case2 claimed r rs start hplace ih =>
    rw [spans_cons_of_some hplace, lost_cons_of_some hplace]
    exact ih.cons r
  | case3 claimed r rs hplace ih =>
    rw [spans_cons_of_none hplace, lost_cons_of_none hplace]
    exact List.perm_middle.trans (ih.cons r)

theorem sublist_spans (claimed : List Nat) :
    ((spans text tool claimed rs).map (·.rename)).Sublist rs := by
  induction claimed, rs using locate.induct text tool with
  | case1 claimed => exact .slnil
  | case2 claimed r rs start hplace ih =>
    rw [spans_cons_of_some hplace]
    exact ih.cons_cons r
  | case3 claimed r rs hplace ih =>
    rw [spans_cons_of_none hplace]
    exact ih.cons r

theorem isIdentAt_of_mem_spans {claimed : List Nat} {s : Span}
    (hs : s ∈ spans text tool claimed rs) :
    isIdentAt text s.start s.rename.name = true ∧ s.start ∉ claimed := by
  induction claimed, rs using locate.induct text tool with
  | case1 claimed => simp [spans, locate] at hs
  | case2 claimed r rs start hplace ih =>
    rw [spans_cons_of_some hplace, List.mem_cons] at hs
    rcases hs with rfl | hs
    · exact place?_spec hplace
    · obtain ⟨hident, hfree⟩ := ih hs
      exact ⟨hident, fun h => hfree (List.mem_cons_of_mem _ h)⟩
  | case3 claimed r rs hplace ih =>
    rw [spans_cons_of_none hplace] at hs
    exact ih hs

/-- No place is taken twice. -/
theorem nodup_spans (claimed : List Nat) :
    ((spans text tool claimed rs).map (·.start)).Nodup := by
  induction claimed, rs using locate.induct text tool with
  | case1 claimed => exact .nil
  | case2 claimed r rs start hplace ih =>
    rw [spans_cons_of_some hplace, List.map_cons, List.nodup_cons]
    refine ⟨fun hmem => ?_, ih⟩
    -- a place taken before is not free
    obtain ⟨s, hs, hstart⟩ := List.mem_map.1 hmem
    exact (isIdentAt_of_mem_spans hs).2 (hstart ▸ List.mem_cons_self)
  | case3 claimed r rs hplace ih =>
    rw [spans_cons_of_none hplace]
    exact ih

/-- The spans of a line can be put in the order of their places. -/
theorem exists_stand (h : ∀ r ∈ rs, IsWord r.name) (tool : Tool) :
    ∃ ss, (spans text tool [] rs).Perm ss ∧ Stand text ss := by
  let ss := (spans text tool [] rs).mergeSort fun a b => a.start ≤ b.start
  have hperm : ss.Perm (spans text tool [] rs) := List.mergeSort_perm _ _
  have hsorted : ss.Pairwise fun a b => decide (a.start ≤ b.start) = true :=
    List.pairwise_mergeSort (by simp; omega) (by simp; omega) _
  have hdistinct : ss.Pairwise fun a b => a.start ≠ b.start := by
    rw [← List.pairwise_map]
    exact (hperm.map _).nodup_iff.2 (nodup_spans [])
  refine ⟨ss, hperm.symm, fun s hs => ?_, fun s hs => ?_, ?_⟩
  · refine h _ ((sublist_spans []).subset (List.mem_map_of_mem (hperm.mem_iff.1 hs)))
  · exact (isIdentAt_of_mem_spans (hperm.mem_iff.1 hs)).1
  · exact (hsorted.and hdistinct).imp fun {a b} hab =>
      Nat.lt_of_le_of_ne (of_decide_eq_true hab.1) hab.2

/-! ### Stretches -/

/-- A part of a line: it is kept, or it is the name of a rename. -/
inductive Stretch where
  | kept (text : Bytes)
  | renamed (r : Rename)

namespace Stretch

def before : Stretch → Bytes
  | kept text => text
  | renamed r => r.name

def after : Stretch → Bytes
  | kept text => text
  | renamed r => r.newName.text

def rename? : Stretch → Option Rename
  | kept _ => none
  | renamed r => some r

end Stretch

/-- `name` between `a` and `b` is a whole run of identifier bytes. -/
structure IsRun (a name b : Bytes) : Prop where
  word : IsWord name
  front : a.getLast?.any isIdentByte = false
  behind : b.head?.any isIdentByte = false

/-- The line becomes `new` by the renames: it is made of stretches, and each rename has one of its
own, a whole run of identifier bytes, that gets its new name. -/
def Rewrites (text : Bytes) (rs : List Rename) (new : Bytes) : Prop :=
  ∃ l : List Stretch, l.flatMap Stretch.before = text ∧ l.flatMap Stretch.after = new ∧
    (l.filterMap Stretch.rename?).Perm rs ∧
    ∀ l₁ r l₂, l = l₁ ++ .renamed r :: l₂ →
      IsRun (l₁.flatMap Stretch.before) r.name (l₂.flatMap Stretch.before)

theorem Rewrites.eq_of_nil {text new : Bytes} (h : Rewrites text [] new) : new = text := by
  obtain ⟨l, rfl, rfl, hperm, -⟩ := h
  have hkept : ∀ s ∈ l, s.after = s.before := by
    intro s hs
    have hnone := List.filterMap_eq_nil_iff.1 hperm.eq_nil s hs
    cases s with
    | kept text => rfl
    | renamed r => exact absurd hnone (by simp [Stretch.rename?])
  exact List.flatMap_congr hkept

def cut (text : Bytes) : Nat → List Span → List Stretch
  | n, [] => [.kept (text.drop n)]
  | n, s :: ss =>
    .kept ((text.drop n).take (s.start - n)) :: .renamed s.rename :: cut text s.stop ss

theorem rename_cut (text : Bytes) (n : Nat) (ss : List Span) :
    (cut text n ss).filterMap Stretch.rename? = ss.map (·.rename) := by
  induction ss generalizing n with
  | nil => rfl
  | cons s ss ih => simp [cut, List.filterMap_cons, Stretch.rename?, ih]

theorem take_drop_append (text : Bytes) {n i j : Nat} (hni : n ≤ i) (hij : i ≤ j) :
    (text.drop n).take (i - n) ++ (text.drop i).take (j - i) = (text.drop n).take (j - n) := by
  rw [show j - n = i - n + (j - i) by omega, List.take_add, List.drop_drop,
    Nat.add_sub_cancel' hni]

variable {ss : List Span} {n : Nat}

theorem after_cut (h : Stand text ss) (hn : ∀ s ∈ ss, n ≤ s.start) :
    (cut text n ss).flatMap Stretch.after = splice n (text.drop n) (ss.map Span.edit) := by
  induction ss generalizing n with
  | nil => simp [cut, splice, Stretch.after]
  | cons s ss ih =>
    have hstop : n + (s.stop - n) = s.stop := by
      have := hn s (by simp)
      simp only [Span.stop]
      omega
    simp only [cut, List.flatMap_cons, Stretch.after, ih h.tail h.stop_le, List.map_cons, splice,
      Span.edit, List.drop_drop, hstop, List.append_assoc]

theorem before_cut (h : Stand text ss) (hn : ∀ s ∈ ss, n ≤ s.start) :
    (cut text n ss).flatMap Stretch.before = text.drop n := by
  induction ss generalizing n with
  | nil => simp [cut, Stretch.before]
  | cons s ss ih =>
    have hname : text.drop s.start = s.rename.name ++ text.drop s.stop :=
      drop_of_isIdentAt (h.ident s (by simp))
    simp only [cut, List.flatMap_cons, Stretch.before, ih h.tail h.stop_le]
    rw [← hname, ← Nat.add_sub_cancel' (hn s (by simp)), ← List.drop_drop, Nat.add_sub_cancel_left,
      List.take_append_drop]

theorem exists_of_cut (h : Stand text ss) (hn : ∀ s ∈ ss, n ≤ s.start) {l₁ l₂ : List Stretch}
    {r : Rename} (hcut : cut text n ss = l₁ ++ .renamed r :: l₂) :
    ∃ s ∈ ss, s.rename = r ∧
      l₁.flatMap Stretch.before = (text.drop n).take (s.start - n) ∧
      l₂.flatMap Stretch.before = text.drop s.stop := by
  induction ss generalizing n l₁ with
  | nil =>
    have hmem : Stretch.renamed r ∈ cut text n [] := hcut ▸ by simp
    simp [cut] at hmem
  | cons s ss ih =>
    rw [cut] at hcut
    rcases l₁ with - | ⟨kept, - | ⟨renamed, l₁⟩⟩
    · simp at hcut
    · obtain ⟨rfl, hrenamed, rfl⟩ : _ ∧ _ ∧ _ := by simpa using hcut
      exact ⟨s, by simp, hrenamed, by simp [Stretch.before], before_cut h.tail h.stop_le⟩
    · obtain ⟨rfl, rfl, hrest⟩ : _ ∧ _ ∧ _ := by simpa using hcut
      obtain ⟨t, ht, hrename, hfront, hbehind⟩ := ih h.tail h.stop_le hrest
      refine ⟨t, List.mem_cons_of_mem _ ht, hrename, ?_, hbehind⟩
      have hst : s.stop ≤ t.start := h.stop_le t ht
      have hs : s.start ≤ s.stop := Nat.le_add_right _ _
      have hname : (text.drop s.start).take (s.stop - s.start) = s.rename.name := by
        rw [Span.stop, Nat.add_sub_cancel_left]
        exact (isIdentAt_iff.1 (h.ident s (by simp))).2.1
      simp only [List.flatMap_cons, Stretch.before, hfront]
      rw [← take_drop_append text (hn s (by simp)) (Nat.le_trans hs hst),
        ← take_drop_append text hs hst, hname]

/-- A patched line differs from the line in whole identifiers. -/
theorem rewrites_patch (h : ∀ r ∈ rs, IsWord r.name) (tool : Tool) :
    Rewrites text ((spans text tool [] rs).map (·.rename))
      (patch text ((spans text tool [] rs).map Span.edit)) := by
  obtain ⟨ss, hperm, hstand⟩ := @exists_stand text rs h tool
  have hfrom : ∀ s ∈ ss, 0 ≤ s.start := fun s _ => Nat.zero_le _
  refine ⟨cut text 0 ss, before_cut hstand hfrom, ?_, ?_, fun l₁ r l₂ hcut => ?_⟩
  · rw [patch_eq_splice (hperm.map _) (hstand.ascending hfrom) hstand.stop_le_length]
    exact after_cut hstand hfrom
  · rw [rename_cut]
    exact (hperm.map _).symm
  · obtain ⟨s, hs, rfl, hfront, hbehind⟩ := exists_of_cut hstand hfrom hcut
    obtain ⟨hlen, -, hbefore, hafter⟩ := isIdentAt_iff.1 (hstand.ident s hs)
    refine ⟨hstand.word s hs, ?_, ?_⟩
    · rw [hfront, List.drop_zero, Nat.sub_zero]
      rcases hbefore with hzero | hbefore
      · simp [hzero]
      · by_cases hzero : s.start = 0
        · simp [hzero]
        · rw [List.getLast?_eq_getElem?, List.length_take, Nat.min_eq_left (by omega),
            List.getElem?_take_of_lt (by omega)]
          exact hbefore
    · rw [hbehind, List.head?_drop]
      exact hafter

end GetterRename.Line
