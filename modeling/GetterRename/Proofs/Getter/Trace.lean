import GetterRename.Getter.Finding
import GetterRename.Proofs.Source.Sites
import Mathlib.Data.List.Forall2

/-!
# Renames and the identifiers behind them

Every rename comes from a candidate, and every candidate from one identifier of the text.  While
tokens are read a candidate may be held back; reading on, it is renamed or dropped, and another
identifier further on may take its place.  So the renames follow the identifiers in order.

* `Rename.Renames` — a rename and the identifier it renames;
* `Candidate.Of` — a candidate and its identifier;
* `Rename.unscoped` — a rename without its scope;
* `Rename.Trace` — renames that follow their owners in order;
* `Rename.InStream` — a rename of a token stream and its site;
* `Advances` — what happens to the candidate held while some tokens are read.
-/

namespace GetterRename

open scoped List

/-! ### Candidates and renames -/

/-- The rename is that of the identifier, with a new name from the rules. -/
structure Rename.Renames (ctx : Context) (r : Rename) (id : Ident) : Prop where
  name : r.name = id.text
  line : r.line = ctx.view.line id.pos
  column : r.column = ctx.view.column id.pos
  newName : ∃ suffix known, Naming.suffix? id.text = some suffix ∧
    Naming.renameSuffix suffix known = .ok r.newName

theorem Rename.Renames.exists_suffix {ctx : Context} {r : Rename} {id : Ident}
    (h : r.Renames ctx id) : ∃ suffix known, id.text = Naming.getHead ++ suffix ∧
      Naming.renameSuffix suffix known = .ok r.newName := by
  obtain ⟨suffix, known, hsuffix, hrule⟩ := h.newName
  unfold Naming.suffix? Bytes.after? at hsuffix
  split at hsuffix
  · rename_i hstart
    obtain ⟨rest, hrest⟩ := List.isPrefixOf_iff_prefix.1 hstart
    rw [← hrest, List.drop_left] at hsuffix
    obtain rfl := Option.some.inj hsuffix
    exact ⟨rest, known, hrest.symm, hrule⟩
  · simp at hsuffix

theorem Rename.Renames.head?_text {ctx : Context} {r : Rename} {id : Ident} (h : r.Renames ctx id) :
    id.text.head? = some (byte 'g') := by
  obtain ⟨suffix, -, hget, -⟩ := h.exists_suffix
  rw [hget]
  rfl

structure Candidate.Of (ctx : Context) (cand : Candidate) (id : Ident) : Prop where
  name : cand.name = id.text
  suffix : Naming.suffix? id.text = some cand.suffix
  line : cand.line = ctx.view.line id.pos
  column : cand.column = ctx.view.column id.pos

def Candidate.Same (c c' : Candidate) : Prop :=
  c'.name = c.name ∧ c'.suffix = c.suffix ∧ c'.line = c.line ∧ c'.column = c.column

theorem Candidate.Same.refl (c : Candidate) : c.Same c := ⟨rfl, rfl, rfl, rfl⟩

theorem Candidate.Same.trans {a b c : Candidate} (h : a.Same b) (h' : b.Same c) : a.Same c := by
  obtain ⟨hname, hsuffix, hline, hcolumn⟩ := h
  obtain ⟨hname', hsuffix', hline', hcolumn'⟩ := h'
  exact ⟨hname'.trans hname, hsuffix'.trans hsuffix, hline'.trans hline, hcolumn'.trans hcolumn⟩

theorem Candidate.Of.of_same {ctx : Context} {c c' : Candidate} {id : Ident} (h : c.Of ctx id)
    (hs : c.Same c') : c'.Of ctx id := by
  obtain ⟨h1, h2, h3, h4⟩ := hs
  exact ⟨h1.trans h.name, by rw [h2]; exact h.suffix, h3.trans h.line, h4.trans h.column⟩

theorem Context.of_candidate? {ctx : Context} {id : Ident} {known : ReturnsBool} {isMethod : Bool}
    {cand : Candidate} (h : ctx.candidate? id known isMethod = some cand) : cand.Of ctx id := by
  obtain ⟨suffix, hs, rfl⟩ := Option.map_eq_some_iff.1 h
  exact ⟨rfl, hs, rfl, rfl⟩

def Rename.unscoped (r : Rename) : Rename := { r with scope := .file }

theorem View.unscoped_adopt (v : View) (r : Rename) :
    (v.adopt r).unscoped = v.adopt r.unscoped := by
  unfold adopt
  split <;> rfl

namespace Finding

@[simp] theorem renames_nil : renames [] = [] := rfl

@[simp] theorem renames_append (xs ys : List Finding) :
    renames (xs ++ ys) = renames xs ++ renames ys := List.filterMap_append

@[simp] theorem renames_note (n : LogRecord) : renames [note n] = [] := rfl

theorem mem_renames_iff {r : Rename} {fs : List Finding} :
    r ∈ renames fs ↔ rename r ∈ fs := by
  simp only [renames, List.mem_filterMap]
  constructor
  · rintro ⟨f, hf, hfr⟩
    cases f with
    | note n => simp at hfr
    | rename s =>
      obtain rfl := Option.some.inj hfr
      exact hf
  · exact fun h => ⟨_, h, rfl⟩

/-- A judged candidate is renamed or left alone. In conservative mode a rename meets no objection
unless it is that of a `bool` getter. -/
theorem renames_judge {ctx : Context} {cand : Candidate} {id : Ident} (h : cand.Of ctx id)
    (scope : Scope) (objection : Option Reason) :
    renames [ctx.judge scope cand objection] = [] ∨
      ∃ r, renames [ctx.judge scope cand objection] = [r] ∧ r.Renames ctx id ∧
        r.isMethod = cand.isMethod ∧
        (ctx.mode = .conservative → r.newName.returnsBool = .yes ∨ objection = none) := by
  unfold Context.judge
  split
  · exact .inl rfl
  · rename_i newName hnew
    by_cases hblock : ctx.mustCheckShape newName = true ∧ objection ≠ none
    · obtain ⟨reason, rfl⟩ := Option.ne_none_iff_exists'.1 hblock.2
      rw [hblock.1]
      exact .inl rfl
    · have hshape : ctx.mode = .conservative → newName.returnsBool = .yes ∨ objection = none := by
        intro hmode
        rw [not_and_or, not_not] at hblock
        refine hblock.imp_left fun hc => ?_
        simpa [Context.mustCheckShape, hmode] using hc
      refine .inr ⟨ctx.view.adopt ⟨cand.name, newName, cand.line, cand.column, scope, cand.isMethod,
        ctx.needsDocAlias scope⟩, ?_, ?_⟩
      · cases hc : ctx.mustCheckShape newName <;> cases objection <;>
          first | rfl | exact absurd ⟨hc, nofun⟩ hblock
      · unfold View.adopt
        split <;> exact ⟨⟨h.name, h.line, h.column, _, _, h.suffix, hnew⟩, rfl, hshape⟩

/-- Where all get functions are getters, only a reserved suffix keeps a judged candidate from being
renamed. -/
theorem exists_renames_judge {ctx : Context} {cand : Candidate} {id : Ident}
    (hmode : ctx.mode = .allGetFunctions) (h : cand.Of ctx id)
    (hfree : Naming.isReserved cand.suffix = false) (scope : Scope) (objection : Option Reason) :
    ∃ r, renames [ctx.judge scope cand objection] = [r] ∧ r.Renames ctx id ∧
      r.isMethod = cand.isMethod := by
  rcases renames_judge h scope objection with hnone | ⟨r, hr, hren, hmethod, -⟩
  · exfalso
    have hrule : ∃ newName, Naming.renameSuffix cand.suffix cand.returnsBool = .ok newName := by
      unfold Naming.renameSuffix
      rw [hfree]
      cases cand.returnsBool <;> exact ⟨_, rfl⟩
    obtain ⟨newName, hnew⟩ := hrule
    have hshape : ctx.mustCheckShape newName = false := by
      simp [Context.mustCheckShape, hmode]
    unfold Context.judge at hnone
    rw [hnew] at hnone
    simp only [hshape] at hnone
    exact absurd hnone (by simp [renames])
  · exact ⟨r, hr, hren, hmethod⟩

theorem exists_rename_of_judge_mem {ctx : Context} {cand : Candidate} {id : Ident} {scope : Scope}
    {objection : Option Reason} {fs : List Finding} (hmode : ctx.mode = .allGetFunctions)
    (h : cand.Of ctx id) (hfree : Naming.isReserved cand.suffix = false)
    (hmem : ctx.judge scope cand objection ∈ fs) :
    ∃ r ∈ renames fs, r.Renames ctx id ∧ r.isMethod = cand.isMethod := by
  obtain ⟨r, hr, hren, hmethod⟩ := exists_renames_judge hmode h hfree scope objection
  have hjudge : rename r ∈ [ctx.judge scope cand objection] := by
    rw [← mem_renames_iff, hr]
    exact List.mem_singleton_self r
  refine ⟨r, ?_, hren, hmethod⟩
  rw [mem_renames_iff, List.mem_singleton.1 hjudge]
  exact hmem

/-- Relocated code needs no alias. -/
theorem needsDocAlias_judge {ctx : Context} (hview : ctx.view.relocated = true) (scope : Scope)
    (cand : Candidate) (objection : Option Reason) :
    ∀ r ∈ renames [ctx.judge scope cand objection], r.needsDocAlias = false := by
  intro r hr
  unfold Context.judge at hr
  split at hr
  · exact nomatch hr
  · split at hr
    · exact nomatch hr
    · obtain rfl := List.mem_singleton.1 hr
      simp [View.adopt, hview]

/-- Scopes that agree on aliases make no other difference. Of an objection it only counts whether
there is one. -/
theorem unscoped_judge {ctx : Context} {scope scope' : Scope} {cand cand' : Candidate}
    {objection objection' : Option Reason} (hsame : cand.Same cand')
    (hknown : cand'.returnsBool = cand.returnsBool) (hmethod : cand'.isMethod = cand.isMethod)
    (halias : ctx.needsDocAlias scope = ctx.needsDocAlias scope')
    (hobjection : objection.isSome = objection'.isSome) :
    (renames [ctx.judge scope cand objection]).map Rename.unscoped =
      (renames [ctx.judge scope' cand' objection']).map Rename.unscoped := by
  obtain ⟨hname, hsuffix, hline, hcolumn⟩ := hsame
  unfold Context.judge
  rw [hknown, hsuffix, hname, hline, hcolumn, hmethod, halias]
  split
  · rfl
  · rename_i newName _
    have hadopt : ∀ r r' : Rename, r.unscoped = r'.unscoped →
        (renames [rename (ctx.view.adopt r)]).map Rename.unscoped =
          (renames [rename (ctx.view.adopt r')]).map Rename.unscoped := by
      intro r r' h
      show [(ctx.view.adopt r).unscoped] = [(ctx.view.adopt r').unscoped]
      rw [View.unscoped_adopt, View.unscoped_adopt, h]
    cases ctx.mustCheckShape newName with
    | false => exact hadopt _ _ rfl
    | true =>
      cases objection with
      | none =>
        obtain rfl : objection' = none := by simpa using hobjection.symm
        exact hadopt _ _ rfl
      | some reason =>
        obtain ⟨reason', rfl⟩ := Option.isSome_iff_exists.1 hobjection.symm
        rfl

end Finding

/-- The renames follow some of the owners, in order. -/
def Rename.Trace {ι : Type} (R : Rename → ι → Prop) (rs : List Rename) (owners : List ι) : Prop :=
  ∃ done, List.Forall₂ R rs done ∧ done <+ owners

namespace Rename.Trace

variable {ι κ : Type} {R : Rename → ι → Prop} {rs rs' : List Rename} {owners owners' : List ι}

theorem nil (owners : List ι) : Trace R [] owners := ⟨[], .nil, List.nil_sublist _⟩

theorem append (h : Trace R rs owners) (h' : Trace R rs' owners') :
    Trace R (rs ++ rs') (owners ++ owners') := by
  obtain ⟨done, hr, hs⟩ := h
  obtain ⟨done', hr', hs'⟩ := h'
  exact ⟨done ++ done', List.rel_append hr hr', hs.append hs'⟩

theorem mono (h : Trace R rs owners) (hs : owners <+ owners') : Trace R rs owners' := by
  obtain ⟨done, hr, hd⟩ := h
  exact ⟨done, hr, hd.trans hs⟩

theorem map {S : Rename → κ → Prop} {f : ι → κ} (h : Trace R rs owners)
    (hRS : ∀ r i, R r i → S r (f i)) : Trace S rs (owners.map f) := by
  obtain ⟨done, hr, hd⟩ := h
  exact ⟨done.map f, List.forall₂_map_right_iff.2 (hr.imp hRS), hd.map f⟩

theorem imp {S : Rename → ι → Prop} (h : Trace R rs owners) (hRS : ∀ r i, R r i → S r i) :
    Trace S rs owners := by
  simpa using h.map hRS

/-- Owners that own no rename may be left out. -/
theorem filter {p : ι → Bool} (h : Trace R rs owners) (hp : ∀ r i, R r i → p i = true) :
    Trace R rs (owners.filter p) := by
  obtain ⟨done, hr, hd⟩ := h
  have hall : done.filter p = done := by
    rw [List.filter_eq_self]
    clear hd
    induction hr with
    | nil => simp
    | cons hren _ ih =>
      intro i hi
      rcases List.mem_cons.1 hi with rfl | hi
      · exact hp _ _ hren
      · exact ih i hi
  exact ⟨done, hr, hall ▸ hd.filter p⟩

theorem judge {ctx : Context} {cand : Candidate} {id : Ident} (h : cand.Of ctx id) (scope : Scope)
    (objection : Option Reason) :
    Trace (Rename.Renames ctx) (Finding.renames [ctx.judge scope cand objection]) [id] := by
  rcases Finding.renames_judge h scope objection with hr | ⟨r, hr, hren, -, -⟩
  · rw [hr]
    exact nil _
  · exact ⟨[id], by rw [hr]; exact .cons hren .nil, List.Sublist.refl _⟩

theorem exists_of_mem (h : Trace R rs owners) {r : Rename} (hr : r ∈ rs) :
    ∃ i ∈ owners, R r i := by
  obtain ⟨done, hall, hs⟩ := h
  suffices ∃ i ∈ done, R r i by
    obtain ⟨i, hi, hren⟩ := this
    exact ⟨i, hs.subset hi, hren⟩
  clear hs
  induction hall with
  | nil => simp at hr
  | cons hren _ ih =>
    rcases List.mem_cons.1 hr with rfl | hr
    · exact ⟨_, List.mem_cons_self, hren⟩
    · obtain ⟨i, hi, h⟩ := ih hr
      exact ⟨i, List.mem_cons_of_mem _ hi, h⟩

theorem pairwise (h : Trace R rs owners) {Q : ι → ι → Prop} {S : Rename → Rename → Prop}
    (howners : owners.Pairwise Q) (hQS : ∀ {r s i j}, R r i → R s j → Q i j → S r s) :
    rs.Pairwise S := by
  obtain ⟨done, hall, hs⟩ := h
  have hdone := howners.sublist hs
  clear hs howners
  induction hall with
  | nil => exact .nil
  | @cons r i rs done hren hall ih =>
    rw [List.pairwise_cons] at hdone ⊢
    refine ⟨fun s hs => ?_, ih hdone.2⟩
    obtain ⟨j, hj, hsren⟩ := exists_of_mem ⟨done, hall, List.Sublist.refl _⟩ hs
    exact hQS hren hsren (hdone.1 j hj)

end Rename.Trace

/-- The rename is that of a safe site in a token stream. -/
structure Rename.InStream (ctx : Context) (r : Rename) (s : Site) : Prop where
  renames : r.Renames ctx s.name
  safe : s.isSafe = true
  /-- In conservative mode only the `bool` getters among other functions than methods count. -/
  bool : ctx.mode = .conservative → r.isMethod = false → r.newName.returnsBool = .yes
  unaliased : ctx.view.relocated = true → r.needsDocAlias = false

theorem Finding.renames_judge_stream {ctx : Context} {cand : Candidate} {s : Site}
    (h : cand.Of ctx s.name) (hs : s.isSafe = true) (scope : Scope) :
    renames [ctx.judge scope cand cand.streamObjection] = [] ∨
      ∃ r, renames [ctx.judge scope cand cand.streamObjection] = [r] ∧ r.InStream ctx s ∧
        r.isMethod = cand.isMethod := by
  rcases renames_judge h scope cand.streamObjection with hr | ⟨r, hr, hren, hmethod, hshape⟩
  · exact .inl hr
  · refine .inr ⟨r, hr, ⟨hren, hs, fun hmode hno => ?_, fun hview => ?_⟩, hmethod⟩
    · refine (hshape hmode).resolve_right fun hnone => ?_
      rw [hmethod] at hno
      simp only [Candidate.streamObjection, hno] at hnone
      split at hnone <;> simp at hnone
    · exact needsDocAlias_judge hview scope cand cand.streamObjection r (by simp [hr])

/-! ### Candidates held back -/

/-- What is known about the owner of the candidate held back; nothing where none is held. -/
abbrev Holding := Option (Site → Prop)

/-- The candidate held back, if any, belongs to the one site in `held`. -/
def Holding.Holds (held : List Site) : Holding → Prop
  | none => True
  | some P => ∃ s, held = [s] ∧ P s

/-- Tokens with the identifiers `sites` are read: from the candidate held back before them to the
candidate held back behind them, with what is found on the way. -/
def Advances (R : Rename → Site → Prop) (before : Holding) (found : List Finding) (after : Holding)
    (sites : List Site) : Prop :=
  ∀ held, before.Holds held →
    ∃ done held', List.Forall₂ R (Finding.renames found) done ∧ after.Holds held' ∧
      done ++ held' <+ held ++ sites

namespace Advances

variable {R : Rename → Site → Prop} {before middle after : Holding} {found found' : List Finding}
  {sites sites' : List Site} {P P' : Site → Prop}

theorem trans (h : Advances R before found middle sites)
    (h' : Advances R middle found' after sites') :
    Advances R before (found ++ found') after (sites ++ sites') := by
  intro held hheld
  obtain ⟨done, held₁, hr, hheld₁, hs⟩ := h held hheld
  obtain ⟨done', held₂, hr', hheld₂, hs'⟩ := h' held₁ hheld₁
  refine ⟨done ++ done', held₂, by rw [Finding.renames_append]; exact List.rel_append hr hr',
    hheld₂, ?_⟩
  calc done ++ done' ++ held₂ = done ++ (done' ++ held₂) := List.append_assoc ..
    _ <+ done ++ (held₁ ++ sites') := (List.Sublist.refl _).append hs'
    _ = done ++ held₁ ++ sites' := (List.append_assoc ..).symm
    _ <+ held ++ sites ++ sites' := hs.append (List.Sublist.refl _)
    _ = held ++ (sites ++ sites') := List.append_assoc ..

theorem drop (h : Finding.renames found = []) : Advances R before found none sites := by
  intro held _
  exact ⟨[], [], by rw [h]; exact .nil, trivial, List.nil_sublist _⟩

theorem keep (hP : ∀ s, P s → P' s) (h : Finding.renames found = []) :
    Advances R (some P) found (some P') sites := by
  rintro held ⟨s, rfl, hs⟩
  exact ⟨[], [s], by rw [h]; exact .nil, ⟨s, rfl, hP s hs⟩, List.sublist_append_left _ _⟩

theorem new {s : Site} (hs : P s) (h : Finding.renames found = []) :
    Advances R before found (some P) [s] := by
  intro held _
  exact ⟨[], [s], by rw [h]; exact .nil, ⟨s, rfl, hs⟩, List.sublist_append_right _ _⟩

theorem judge (h : ∀ s, P s → Finding.renames found = [] ∨
    ∃ r, Finding.renames found = [r] ∧ R r s) : Advances R (some P) found none sites := by
  rintro held ⟨s, rfl, hs⟩
  rcases h s hs with hr | ⟨r, hr, hren⟩
  · exact ⟨[], [], by rw [hr]; exact .nil, trivial, List.nil_sublist _⟩
  · refine ⟨[s], [], by rw [hr]; exact .cons hren .nil, trivial, ?_⟩
    exact List.sublist_append_left _ _

theorem refl (h : Holding) : Advances R h [] h sites := by
  cases h with
  | none => exact drop rfl
  | some P => exact keep (fun _ hs => hs) rfl

/-- Behind the end of a list less is known about the candidate. -/
theorem behind {after' : Holding} (h : Advances R before found after sites)
    (hP : after = none ∧ after' = none ∨
      ∃ P P', after = some P ∧ after' = some P' ∧ ∀ s, P s → P' s) :
    Advances R before found after' sites := by
  rcases hP with ⟨rfl, rfl⟩ | ⟨P, P', rfl, rfl, hP⟩
  · exact h
  · intro held hheld
    obtain ⟨done, held', hr, ⟨s, rfl, hs⟩, hsub⟩ := h held hheld
    exact ⟨done, [s], hr, ⟨s, rfl, hP s hs⟩, hsub⟩

/-- Without a candidate in front of the tokens, what is found traces their identifiers. -/
theorem trace (h : Advances R none found after sites) :
    Rename.Trace R (Finding.renames found) sites := by
  obtain ⟨done, held, hr, -, hs⟩ := h [] trivial
  exact ⟨done, hr, (List.sublist_append_left _ _).trans hs⟩

end Advances

end GetterRename
