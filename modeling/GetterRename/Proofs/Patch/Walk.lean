import GetterRename.Proofs.Patch.Change
import GetterRename.Proofs.Source.Reading

/-!
# Renaming along a text

A plan says which rename starts at a place.  Walking along a text with a plan puts the new name
where a rename starts, leaves out the bytes of the former name, and copies all other bytes.  The
renames of a line are applied from right to left; where they stand apart from each other, that is
the same as walking along the line, and over all lines as walking along the text.  Attributes in
front of lines are put in on the way.

* `Plan.walk` — walking along a text;
* `Plan.weave`, `Plan.weave_append` — walking along a text with other texts to put in;
* `Line.Fit` — the renames of a line stand where they say;
* `Line.patch_eq_walk` — patching a line is walking along it;
* `Patch.woven_changes`, `Patch.text_changes` — changing all lines is walking along their text.
-/

namespace GetterRename

/-! ### Walking -/

abbrev Plan := Pos → Option Rename

namespace Plan

/-- The text from `p` on with its renames. `skip` counts the bytes of a former name. -/
def walk (plan : Plan) : Pos → Nat → Bytes → Bytes
  | _, _, [] => []
  | p, skip + 1, b :: rest => walk plan (p.next b) skip rest
  | p, 0, b :: rest =>
    match plan p with
    | some r => r.newName.text ++ walk plan (p.next b) (r.name.length - 1) rest
    | none => b :: walk plan (p.next b) 0 rest

theorem walk_skip (plan : Plan) (p : Pos) (a b : Bytes) :
    plan.walk p a.length (a ++ b) = plan.walk (p.advance a) 0 b := by
  induction a generalizing p with
  | nil => rfl
  | cons c a ih =>
    rw [List.length_cons, List.cons_append, walk]
    exact ih (p.next c)

/-- No rename starts within the text `a` at `p`. -/
def Quiet (plan : Plan) (p : Pos) (a : Bytes) : Prop :=
  ∀ a₁ a₂, a = a₁ ++ a₂ → a₂ ≠ [] → plan (p.advance a₁) = none

theorem walk_keep {plan : Plan} {p : Pos} {a : Bytes} (h : plan.Quiet p a) (b : Bytes) :
    plan.walk p 0 (a ++ b) = a ++ plan.walk (p.advance a) 0 b := by
  induction a generalizing p with
  | nil => rfl
  | cons c a ih =>
    have hp : plan p = none := h [] (c :: a) rfl (by simp)
    rw [List.cons_append, walk, hp, List.cons_append, Pos.advance_cons]
    refine congrArg (c :: ·) (ih fun a₁ a₂ heq hne => ?_)
    exact h (c :: a₁) a₂ (by rw [heq]; rfl) hne

theorem walk_rename {plan : Plan} {p : Pos} {r : Rename} (h : plan p = some r) (hne : r.name ≠ [])
    (b : Bytes) :
    plan.walk p 0 (r.name ++ b) = r.newName.text ++ plan.walk (p.advance r.name) 0 b := by
  obtain ⟨c, name, hname⟩ := List.exists_cons_of_ne_nil hne
  rw [hname, List.cons_append, walk, h]
  simp only [hname, List.length_cons, Nat.add_sub_cancel, Pos.advance_cons, walk_skip]

/-! ### Texts in front of lines -/

section Weave

variable {plan : Plan}

/-- The text from `p` on with its renames, and with `front q` at each place `q` behind a byte of
it. `skip` counts the bytes of a former name. -/
def weave (plan : Plan) (front : Pos → Bytes) : Pos → Nat → Bytes → Bytes
  | _, _, [] => []
  | p, skip + 1, b :: rest => front (p.next b) ++ weave plan front (p.next b) skip rest
  | p, 0, b :: rest =>
    match plan p with
    | some r =>
      r.newName.text ++ front (p.next b) ++ weave plan front (p.next b) (r.name.length - 1) rest
    | none => b :: (front (p.next b) ++ weave plan front (p.next b) 0 rest)

theorem weave_nil (plan : Plan) (p : Pos) (skip : Nat) (a : Bytes) :
    plan.weave (fun _ => []) p skip a = plan.walk p skip a := by
  induction a generalizing p skip with
  | nil =>
    unfold weave walk
    rfl
  | cons b a ih =>
    cases skip with
    | succ skip => simp only [weave, walk, List.nil_append, ih]
    | zero => simp only [weave, walk, List.append_nil, List.nil_append, ih]

/-- The renames that start in the text `a` at `p` end in it. -/
def Whole (plan : Plan) (p : Pos) (a : Bytes) : Prop :=
  ∀ a₁ a₂ r, a = a₁ ++ a₂ → a₂ ≠ [] → plan (p.advance a₁) = some r → r.name.length ≤ a₂.length

theorem Whole.of_quiet {p : Pos} {a : Bytes} (h : plan.Quiet p a) : plan.Whole p a := by
  intro a₁ a₂ r ha hne hr
  rw [h a₁ a₂ ha hne] at hr
  exact nomatch hr

/-- Nothing is put inside the text `a` at `p`. -/
def Unbroken {α : Type} (front : Pos → List α) (p : Pos) (a : Bytes) : Prop :=
  ∀ a₁ a₂, a = a₁ ++ a₂ → a₁ ≠ [] → a₂ ≠ [] → front (p.advance a₁) = []

/-- **Walking along a part** in which the renames end and nothing is put. -/
theorem weave_append {front : Pos → Bytes} {p : Pos} {skip : Nat} {a : Bytes}
    (hskip : skip ≤ a.length) (hne : a ≠ []) (hwhole : plan.Whole p a) (hfront : Unbroken front p a)
    (b : Bytes) :
    plan.weave front p skip (a ++ b) =
      plan.walk p skip a ++ (front (p.advance a) ++ plan.weave front (p.advance a) 0 b) := by
  induction a generalizing p skip with
  | nil => exact absurd rfl hne
  | cons c a ih =>
    have hfirst : ∀ r, plan p = some r → r.name.length - 1 ≤ a.length := by
      intro r hr
      have := hwhole [] (c :: a) r rfl (by simp) hr
      rw [List.length_cons] at this
      omega
    have hrest : plan.Whole (p.next c) a := fun a₁ a₂ r ha hne hr =>
      hwhole (c :: a₁) a₂ r (by rw [ha]; rfl) hne hr
    rw [List.length_cons] at hskip
    by_cases ha : a = []
    · -- a single byte
      subst ha
      rw [List.length_nil] at hskip
      rw [Pos.advance_cons, Pos.advance_nil]
      cases skip with
      | succ skip =>
        obtain rfl : skip = 0 := by omega
        rfl
      | zero =>
        simp only [List.cons_append, List.nil_append, weave, walk]
        cases hr : plan p with
        | none => rfl
        | some r =>
          have hlength : r.name.length - 1 = 0 := Nat.le_zero.1 (hfirst r hr)
          simp only [hlength, List.append_nil, List.append_assoc]
    · have hnone : front (p.next c) = [] := hfront [c] a rfl (by simp) ha
      have hnext : Unbroken front (p.next c) a := fun a₁ a₂ h₁ hne₁ hne₂ =>
        hfront (c :: a₁) a₂ (by rw [h₁]; rfl) (by simp) hne₂
      rw [Pos.advance_cons]
      cases skip with
      | succ skip =>
        simp only [List.cons_append, weave, walk, hnone, List.nil_append]
        exact ih (by omega) ha hrest hnext
      | zero =>
        simp only [List.cons_append, weave, walk]
        cases hr : plan p with
        | none =>
          simp only [hnone, List.nil_append, List.cons_append]
          rw [ih (Nat.zero_le _) ha hrest hnext]
        | some r =>
          simp only [hnone, List.append_nil, List.append_assoc]
          rw [ih (hfirst r hr) ha hrest hnext]

end Weave

end Plan

/-! ### Lines -/

namespace Line

theorem isIdentByte_eq (b : UInt8) : isIdentByte b = isRunByte b := by
  simp only [isIdentByte, isRunByte, isWordByte]
  cases b == byte '_' <;> cases isLetterByte b <;> cases isDigitByte b <;> rfl

/-- The renames of a line stand where they say, from left to right. -/
structure Fit (text : Bytes) (rs : List Rename) : Prop where
  column : ∀ r ∈ rs, 0 ≤ r.column
  ident : ∀ r ∈ rs, isIdentAt text r.column.toNat r.name = true
  name : ∀ r ∈ rs, IsName r.name
  sorted : rs.Pairwise fun a b => a.column < b.column

def editOf (r : Rename) : Edit :=
  ⟨r.column.toNat, r.column.toNat + r.name.length, r.newName.text⟩

theorem isWord_of_isName {name : Bytes} (h : IsName name) : IsWord name := by
  refine ⟨h.ne_nil, fun b hb => ?_⟩
  simpa [isIdentByte_eq, isRunByte] using h.run.forall_mem b hb

namespace Fit

variable {text : Bytes} {r : Rename} {rs : List Rename}

theorem tail (h : Fit text (r :: rs)) : Fit text rs :=
  ⟨(List.forall_mem_cons.1 h.column).2, (List.forall_mem_cons.1 h.ident).2,
    (List.forall_mem_cons.1 h.name).2, (List.pairwise_cons.1 h.sorted).2⟩

theorem stand (h : Fit text rs) : Stand text (rs.map fun r => ⟨r, r.column.toNat⟩) where
  word := List.forall_mem_map.2 fun r hr => isWord_of_isName (h.name r hr)
  ident := List.forall_mem_map.2 h.ident
  sorted := List.pairwise_map.2 <| h.sorted.imp_of_mem fun {a b} ha _ hab => by
    have := h.column a ha
    show a.column.toNat < b.column.toNat
    omega

theorem lt_of_mem (h : Fit text (r :: rs)) {s : Rename} (hs : s ∈ rs) :
    r.column.toNat + r.name.length ≤ s.column.toNat :=
  h.stand.stop_le _ (List.mem_map_of_mem hs)

end Fit

theorem locate_of_fit {text : Bytes} {rs : List Rename} (h : Fit text rs) (tool : Tool)
    {claimed : List Nat} (hclaimed : ∀ c ∈ claimed, ∀ r ∈ rs, c < r.column.toNat) :
    locate text tool claimed rs = rs.map fun r => (r, some (editOf r)) := by
  induction rs generalizing claimed with
  | nil => rfl
  | cons r rs ih =>
    have hfree : r.column.toNat ∉ claimed :=
      fun hmem => absurd (hclaimed _ hmem r (by simp)) (Nat.lt_irrefl _)
    have hplace : place? text r tool claimed = some r.column.toNat := by
      unfold place?
      rw [if_pos]
      simp [h.column r, h.ident r, hfree]
    rw [locate, hplace]
    simp only [List.map_cons]
    refine congrArg₂ List.cons rfl (ih h.tail ?_)
    intro c hc s hs
    rcases List.mem_cons.1 hc with rfl | hc
    · have := h.lt_of_mem hs
      have := List.length_pos_iff.2 (h.name r (by simp)).ne_nil
      omega
    · exact hclaimed c hc s (by simp [hs])

/-! ### Patching a line -/

/-- The plan has exactly these renames on line `k`. -/
def Planned (plan : Plan) (k : Nat) (rs : List Rename) : Prop :=
  ∀ c r, plan ⟨k, c⟩ = some r ↔ r ∈ rs ∧ r.column = c

/-- No rename starts between two columns. -/
theorem quiet_of_columns {plan : Plan} {k n : Nat} {a : Bytes} (hline : byte '\n' ∉ a)
    (h : ∀ c, n ≤ c → c < n + a.length → plan ⟨k, c⟩ = none) : plan.Quiet ⟨k, n⟩ a := by
  rintro a₁ a₂ rfl hne
  have hline₁ : byte '\n' ∉ a₁ := fun hmem => hline (List.mem_append_left _ hmem)
  have hpos := List.length_pos_iff.2 hne
  rw [Pos.advance_of_no_newline _ hline₁]
  exact h _ (Nat.le_add_right _ _) (by simp; omega)

theorem walk_eq_splice {plan : Plan} {k n : Nat} {text tail : Bytes} {ss : List Span}
    (hline : byte '\n' ∉ text) (hstand : Stand text ss) (hn : n ≤ text.length)
    (hfrom : ∀ s ∈ ss, n ≤ s.start)
    (hplan : ∀ c, n ≤ c → ∀ r, plan ⟨k, c⟩ = some r ↔ ⟨r, c⟩ ∈ ss) :
    plan.walk ⟨k, n⟩ 0 (text.drop n ++ tail) =
      splice n (text.drop n) (ss.map Span.edit) ++ plan.walk ⟨k, text.length⟩ 0 tail := by
  have hdrop : ∀ m, byte '\n' ∉ text.drop m := fun m hmem => hline (List.mem_of_mem_drop hmem)
  induction ss generalizing n with
  | nil =>
    have hquiet : plan.Quiet ⟨k, n⟩ (text.drop n) := by
      refine quiet_of_columns (hdrop n) fun c hc _ => ?_
      cases hr : plan ⟨k, c⟩ with
      | none => rfl
      | some r => exact absurd ((hplan c hc r).1 hr) (by simp)
    rw [Plan.walk_keep hquiet, Pos.advance_of_no_newline _ (hdrop n), List.length_drop,
      show n + (text.length - n) = text.length by omega]
    rfl
  | cons s ss ih =>
    have hident := hstand.ident s (by simp)
    obtain ⟨hlen, htake, -, -⟩ := isIdentAt_iff.1 hident
    have hs := hfrom s (by simp)
    have hname := (hstand.word s (by simp)).ne_nil
    have hsplit : text.drop n = (text.drop n).take (s.start - n) ++
        (s.rename.name ++ text.drop s.stop) := by
      rw [Span.stop, ← drop_of_isIdentAt hident, ← Nat.add_sub_cancel' hs, ← List.drop_drop,
        Nat.add_sub_cancel_left, List.take_append_drop]
    have hbefore : ((text.drop n).take (s.start - n)).length = s.start - n := by
      simp; omega
    have hfront : byte '\n' ∉ (text.drop n).take (s.start - n) :=
      fun hmem => hdrop n (List.mem_of_mem_take hmem)
    -- at another place than that of the first span stand only the others
    have hother : ∀ c, c ≠ s.start → ∀ r, (⟨r, c⟩ : Span) ∈ s :: ss ↔ ⟨r, c⟩ ∈ ss := by
      intro c hc r
      rw [List.mem_cons]
      exact or_iff_right fun heq => hc (congrArg Span.start heq)
    have hquiet : plan.Quiet ⟨k, n⟩ ((text.drop n).take (s.start - n)) := by
      refine quiet_of_columns hfront fun c hc hlt => ?_
      rw [hbefore] at hlt
      cases hr : plan ⟨k, c⟩ with
      | none => rfl
      | some r =>
        have hmem := (hother c (by omega) r).1 ((hplan c hc r).1 hr)
        have hbehind : s.start < c := (List.pairwise_cons.1 hstand.sorted).1 _ hmem
        omega
    have hat : plan ⟨k, s.start⟩ = some s.rename := (hplan _ hs _).2 (by simp)
    have hpos := List.length_pos_iff.2 hname
    have hnext := @ih s.stop hstand.tail hlen hstand.stop_le fun c hc r => by
      simp only [Span.stop] at hc
      rw [hplan c (by omega) r, hother c (by omega) r]
    have hnl : byte '\n' ∉ s.rename.name := by
      rw [← htake]
      exact fun hmem => hdrop _ (List.mem_of_mem_take hmem)
    conv => lhs; rw [hsplit]
    rw [List.append_assoc, Plan.walk_keep hquiet, Pos.advance_of_no_newline _ hfront, hbefore,
      Nat.add_sub_cancel' hs, List.append_assoc, Plan.walk_rename hat hname,
      Pos.advance_of_no_newline _ hnl, ← Span.stop, hnext]
    simp only [List.map_cons, splice, Span.edit, List.drop_drop, List.append_assoc]
    rw [show n + (s.stop - n) = s.stop by simp only [Span.stop]; omega]

/-- Patching a line is walking along it. -/
theorem patch_eq_walk {plan : Plan} {k : Nat} {text : Bytes} {edited ss : List Span}
    (hline : byte '\n' ∉ text) (hperm : edited.Perm ss) (hstand : Stand text ss)
    (hplan : ∀ c r, plan ⟨k, c⟩ = some r ↔ ⟨r, c⟩ ∈ ss) :
    patch text (edited.map Span.edit) ++ [byte '\n'] =
      plan.walk ⟨k, 0⟩ 0 (text ++ [byte '\n']) := by
  have hend : plan ⟨k, text.length⟩ = none := by
    cases hr : plan ⟨k, text.length⟩ with
    | none => rfl
    | some r =>
      have hmem := (hplan _ r).1 hr
      have hlen := (isIdentAt_iff.1 (hstand.ident _ hmem)).1
      have hpos := List.length_pos_iff.2 (hstand.word _ hmem).ne_nil
      simp only at hlen hpos
      omega
  have hwalk := @walk_eq_splice plan k 0 text [byte '\n'] ss hline hstand (Nat.zero_le _)
    (fun _ _ => Nat.zero_le _) (fun c _ r => hplan c r)
  have hnewline : plan.walk ⟨k, text.length⟩ 0 [byte '\n'] = [byte '\n'] := by
    rw [Plan.walk, hend]
    rfl
  rw [List.drop_zero, hnewline] at hwalk
  rw [patch_eq_splice (hperm.map _) (hstand.ascending fun _ _ => Nat.zero_le _)
    hstand.stop_le_length, hwalk]

theorem whole_of_stand {plan : Plan} {k : Nat} {text : Bytes} {ss : List Span}
    (hline : byte '\n' ∉ text) (hstand : Stand text ss)
    (hplan : ∀ c r, plan ⟨k, c⟩ = some r ↔ ⟨r, c⟩ ∈ ss) :
    plan.Whole ⟨k, 0⟩ (text ++ [byte '\n']) := by
  intro a₁ a₂ r ha hne hr
  have hlength := congrArg List.length ha
  have hpos := List.length_pos_iff.2 hne
  simp only [List.length_append, List.length_singleton] at hlength
  have hprefix : byte '\n' ∉ a₁ := by
    obtain ⟨m, rfl⟩ : a₁ <+: text :=
      List.prefix_of_prefix_length_le ⟨a₂, ha.symm⟩ (List.prefix_append _ _) (by omega)
    exact fun hmem => hline (List.mem_append_left _ hmem)
  rw [Pos.advance_of_no_newline _ hprefix, hplan] at hr
  have hlen := (isIdentAt_iff.1 (hstand.ident _ hr)).1
  simp only at hlen
  omega

end Line

/-! ### All lines -/

namespace Patch

theorem spans_of_fit {tool : Tool} {text : Bytes} {rs : List Rename} (hfit : Line.Fit text rs) :
    Line.spans text tool [] rs = rs.map fun r => ⟨r, r.column.toNat⟩ := by
  rw [Line.spans, Line.locate_of_fit hfit tool (by simp), List.filterMap_map]
  exact congrFun List.filterMap_eq_map rs

/-- **Changing lines is walking along their text** with a plan that has the spans of the lines, and
with their attributes in front of them. -/
theorem woven_changes {plan : Plan} {front : Pos → Bytes} {tool : Tool} {docAlias : DocAlias}
    {pending : List Rename} {k : Nat} {texts : List Bytes}
    (hline : ∀ text ∈ texts, byte '\n' ∉ text) (hwords : ∀ r ∈ pending, Line.IsWord r.name)
    (hplan : ∀ i text, texts[i]? = some text → ∀ c r, plan ⟨k + i, c⟩ = some r ↔
      ⟨r, c⟩ ∈ Line.spans text tool [] (Rename.onLine ((k + i : Nat) : Int) pending))
    (hfront : ∀ i c, (changes tool k pending texts)[i]? = some c →
      front ⟨k + i, 0⟩ = c.attributes tool docAlias)
    (hend : front ⟨k + texts.length, 0⟩ = []) (hcol : ∀ p, p.col ≠ 0 → front p = []) :
    (changes tool k pending texts).flatMap (·.text tool docAlias) =
      front ⟨k, 0⟩ ++ plan.weave front ⟨k, 0⟩ 0 (texts.flatMap (· ++ [byte '\n'])) := by
  induction texts generalizing k with
  | nil => exact (List.append_eq_nil_iff.2 ⟨hend, rfl⟩).symm
  | cons text texts ih =>
    obtain ⟨htext, htexts⟩ := List.forall_mem_cons.1 hline
    have hnext : ∀ i, k + 1 + i = k + (i + 1) := fun i => by omega
    have hrest := @ih (k + 1) htexts
      (fun i t ht => by rw [hnext]; exact hplan (i + 1) t (by simpa using ht))
      (fun i c hc => by rw [hnext]; exact hfront (i + 1) c (by simpa [changes_cons] using hc))
      (by rw [hnext]; exact hend)
    obtain ⟨ss, hperm, hstand⟩ := @Line.exists_stand text (Rename.onLine (k : Int) pending)
      (fun r hr => hwords r (List.mem_of_mem_filter hr)) tool
    have hfirst : front ⟨k, 0⟩ = (Change.ofLine tool text (Rename.onLine k pending)).attributes
        tool docAlias := hfront 0 _ (by rw [changes_cons]; rfl)
    have hspans : ∀ c r, plan ⟨k, c⟩ = some r ↔ ⟨r, c⟩ ∈ ss := fun c r =>
      (hplan 0 text rfl c r).trans hperm.mem_iff
    -- nothing is put inside of a line
    have hunbroken : Plan.Unbroken front ⟨k, 0⟩ (text ++ [byte '\n']) := by
      intro a₁ a₂ ha hne₁ hne₂
      refine hcol _ ?_
      have hlength := congrArg List.length ha
      have hpos := List.length_pos_iff.2 hne₂
      simp only [List.length_append, List.length_singleton] at hlength
      obtain ⟨m, rfl⟩ : a₁ <+: text :=
        List.prefix_of_prefix_length_le ⟨a₂, ha.symm⟩ (List.prefix_append _ _) (by omega)
      rw [Pos.advance_of_no_newline _ fun hmem => htext (List.mem_append_left _ hmem)]
      have := List.length_pos_iff.2 hne₁
      simp only
      omega
    have hadvance : (⟨k, 0⟩ : Pos).advance (text ++ [byte '\n']) = ⟨k + 1, 0⟩ := by
      rw [Pos.advance_append, Pos.advance_of_no_newline _ htext]
      rfl
    rw [changes_cons, List.flatMap_cons, List.flatMap_cons, hrest,
      Plan.weave_append (Nat.zero_le _) (by simp) (Line.whole_of_stand htext hstand hspans) hunbroken,
      hadvance, ← Line.patch_eq_walk htext hperm hstand hspans, hfirst, Change.text]
    simp only [Change.ofLine, List.append_assoc]

/-- Changing lines is walking along their text, when the renames of each line fit. -/
theorem text_changes {plan : Plan} {tool : Tool} {docAlias : DocAlias} {pending : List Rename}
    {k : Nat} {texts : List Bytes} (halias : NoAlias tool docAlias)
    (hline : ∀ text ∈ texts, byte '\n' ∉ text) (hwords : ∀ r ∈ pending, Line.IsWord r.name)
    (hfit : ∀ i text, texts[i]? = some text →
      Line.Fit text (Rename.onLine ((k + i : Nat) : Int) pending))
    (hplan : ∀ i < texts.length,
      Line.Planned plan (k + i) (Rename.onLine ((k + i : Nat) : Int) pending)) :
    (changes tool k pending texts).flatMap (·.text tool docAlias) =
      plan.walk ⟨k, 0⟩ 0 (texts.flatMap (· ++ [byte '\n'])) := by
  rw [@woven_changes plan (fun _ => []) tool docAlias pending k texts hline hwords ?_
    (fun _ _ _ => (Change.attributes_of_noAlias halias _).symm) rfl (fun _ _ => rfl),
    List.nil_append, Plan.weave_nil]
  intro i text ht c r
  have hfits := hfit i text ht
  rw [hplan i (List.getElem?_eq_some_iff.1 ht).1 c r, spans_of_fit hfits, List.mem_map]
  constructor
  · rintro ⟨hmem, hcolumn⟩
    exact ⟨r, hmem, by rw [hcolumn, Int.toNat_natCast]⟩
  · rintro ⟨s, hmem, hs⟩
    obtain ⟨rfl, rfl⟩ := Line.Span.mk.inj hs
    exact ⟨hmem, (Int.toNat_of_nonneg (hfits.column s hmem)).symm⟩

end Patch

end GetterRename
