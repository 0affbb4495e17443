import GetterRename.Proofs.Getter.Trace
import GetterRename.Getter.Analysis

/-!
# Two readings of a file

The matchers look at a context in two places only: where they ask whether a name has the head of a
getter, and where they judge a candidate.  So two contexts whose judgements compare find renames
that compare, whatever relation between lists of renames that is, as long as it goes along with
putting findings one behind the other.

* `Context.Compares` — the judgements of two contexts compare;
* `Finding.Alike` — outcomes of a step with the same state, whose renames compare;
* `CallMatcher.alike_runL`, `DefinitionMatcher.alike_runL` — two readings of a token stream;
* `Analysis.renames_findings` — two readings of an outline.
-/

namespace GetterRename

open Finding (renames)

/-- The contexts look at the same code for the same tool, and what they make of a candidate in the
scope stands in the relation `R`, which goes along with putting findings one behind the other. -/
structure Context.Compares (R : List Rename → List Rename → Prop) (ctx ctx' : Context)
    (scope : Scope) : Prop where
  tool : ctx.tool = ctx'.tool
  view : ctx.view = ctx'.view
  nil : R [] []
  append : ∀ {a a' b b' : List Rename}, R a a' → R b b' → R (a ++ b) (a' ++ b')
  judge : ∀ (view : View) (cand : Candidate) (objection : Option Reason),
    R (renames [{ ctx with view }.judge scope cand objection])
      (renames [{ ctx' with view }.judge scope cand objection])

/-- The outcomes have the same state, and their renames compare; their notes may differ. -/
def Finding.Alike {σ : Type} (R : List Rename → List Rename → Prop) (x y : σ × List Finding) :
    Prop :=
  x.1 = y.1 ∧ R (renames x.2) (renames y.2)

open Finding (Alike)

variable {R : List Rename → List Rename → Prop} {ctx ctx' : Context} {scope : Scope}

section Stream

variable (h : ctx.Compares R ctx' scope)

include h

namespace Context.Compares

theorem relocate (view : View) : Compares R { ctx with view } { ctx' with view } scope :=
  ⟨h.tool, rfl, h.nil, h.append, h.judge⟩

theorem judged (cand : Candidate) (objection : Option Reason) :
    R (renames [ctx.judge scope cand objection]) (renames [ctx'.judge scope cand objection]) := by
  have hjudge := h.judge ctx.view cand objection
  rwa [show ({ ctx' with view := ctx.view } : Context) = ctx' by rw [h.view]] at hjudge

theorem candidate? (name : Ident) (known : ReturnsBool) (isMethod : Bool) :
    ctx.candidate? name known isMethod = ctx'.candidate? name known isMethod := by
  simp only [Context.candidate?, h.view]

theorem quiet {σ : Type} {s : σ} {found found' : List Finding}
    (hfound : renames found = []) (hfound' : renames found' = []) :
    Alike R (s, found) (s, found') := by
  refine ⟨rfl, ?_⟩
  rw [hfound, hfound']
  exact h.nil

end Context.Compares

/-! ### Token streams -/

namespace CallMatcher

theorem alike_start (isMethod : Bool) (name : Ident) :
    Alike R (start ctx scope isMethod name) (start ctx' scope isMethod name) := by
  unfold start
  rw [h.candidate?]
  split
  · exact h.quiet rfl rfl
  · cases isMethod <;> exact h.quiet rfl rfl

theorem alike_ident (name : Ident) (state : State) :
    Alike R (ident ctx scope name state) (ident ctx' scope name state) := by
  unfold ident
  split
  · exact h.quiet rfl rfl
  · cases state with
    | idle => exact alike_start h false name
    | dot => exact alike_start h true name
    | _ => exact h.quiet rfl rfl

theorem renames_group (delim : Delimiter) (isEmpty : Bool) (state : State) :
    R (renames (group ctx scope delim isEmpty state))
      (renames (group ctx' scope delim isEmpty state)) := by
  unfold group
  split
  · exact h.judged _ _
  · exact h.judged _ _
  · exact h.nil

mutual

theorem alike_run (state : State) :
    ∀ t : Token, Alike R (run ctx scope state t) (run ctx' scope state t)
  | .ident text pos => alike_ident h ⟨text, pos⟩ state
  | .punct _ _ _ | .literal _ _ | .doc _ _ => h.quiet rfl rfl
  | .group delim tokens _ => by
    obtain ⟨hstate, hinside⟩ := alike_runL .idle tokens
    refine ⟨hstate, ?_⟩
    simp only [run, Finding.renames_append]
    exact h.append (renames_group h delim _ state) hinside

theorem alike_runL (state : State) :
    ∀ ts : List Token, Alike R (runL ctx scope state ts) (runL ctx' scope state ts)
  | [] => h.quiet rfl rfl
  | t :: ts => by
    obtain ⟨hstate, hfound⟩ := alike_run state t
    obtain ⟨hstate', hmore⟩ := alike_runL (run ctx' scope state t).1 ts
    simp only [Alike, runL, hstate, Finding.renames_append]
    exact ⟨hstate', h.append hfound hmore⟩

end

end CallMatcher

namespace DefinitionMatcher

theorem alike_decided (cand : Candidate) :
    Alike R (decided ctx scope cand) (decided ctx' scope cand) :=
  ⟨rfl, h.judged _ _⟩

theorem alike_punct (level : Nat) (c : UInt8) (m : Machine) :
    Alike R (punct ctx scope level c m) (punct ctx' scope level c m) := by
  unfold punct
  cases m.state with
  | idle => exact h.quiet rfl rfl
  | fn depth => exact h.quiet rfl rfl
  | pending phase cand depth =>
    simp only
    split
    · exact alike_decided h cand
    · cases phase <;> simp only [pendingPunct] <;> (repeat' split) <;>
        first | exact h.quiet rfl rfl | exact alike_decided h _

theorem alike_ident (level : Nat) (name : Ident) (m : Machine) :
    Alike R (ident ctx scope level name m) (ident ctx' scope level name m) := by
  unfold ident
  cases m.state with
  | idle => exact h.quiet rfl rfl
  | fn depth =>
    simp only [fnName, h.candidate?]
    repeat' split
    all_goals exact h.quiet rfl rfl
  | pending phase cand depth =>
    simp only
    split
    · exact ⟨rfl, (alike_decided h cand).2⟩
    · cases phase <;> simp only [pendingIdent] <;> (repeat' split) <;>
        first | exact h.quiet rfl rfl | exact alike_decided h _

theorem alike_group (level : Nat) (delim : Delimiter) (isEmpty : Bool) (m : Machine) :
    Alike R (group ctx scope level delim isEmpty m) (group ctx' scope level delim isEmpty m) := by
  unfold group
  cases m.state with
  | pending phase cand depth =>
    cases phase <;> simp only [pendingGroup] <;> (repeat' split) <;>
      first | exact h.quiet rfl rfl | exact alike_decided h _
  | _ => exact h.quiet rfl rfl

mutual

theorem alike_run (level : Nat) (m : Machine) :
    ∀ t : Token, Alike R (run ctx scope level m t) (run ctx' scope level m t)
  | .ident text pos => by
    obtain ⟨hstate, hfound⟩ := alike_ident h level ⟨text, pos⟩ m
    exact ⟨by simp only [run, hstate], hfound⟩
  | .punct c _ _ => by
    obtain ⟨hstate, hfound⟩ := alike_punct h level c m
    exact ⟨by simp only [run, hstate], hfound⟩
  | .literal _ _ | .doc _ _ => h.quiet rfl rfl
  | .group delim tokens _ => by
    obtain ⟨hstate, hfound⟩ := alike_group h level delim tokens.isEmpty m
    obtain ⟨hinner, hinside⟩ := alike_runL (level + 1)
      ⟨(group ctx' scope level delim tokens.isEmpty m).1, m.afterDash⟩ tokens
    simp only [Alike, run, hstate, hinner, Finding.renames_append]
    exact ⟨trivial, h.append hfound hinside⟩

theorem alike_runL (level : Nat) (m : Machine) :
    ∀ ts : List Token, Alike R (runL ctx scope level m ts) (runL ctx' scope level m ts)
  | [] => h.quiet rfl rfl
  | t :: ts => by
    obtain ⟨hstate, hfound⟩ := alike_run level m t
    obtain ⟨hstate', hmore⟩ := alike_runL level (run ctx' scope level m t).1 ts
    simp only [Alike, runL, hstate, Finding.renames_append]
    exact ⟨hstate', h.append hfound hmore⟩

end

end DefinitionMatcher

theorem renames_streamFindings (tokens : List Token) :
    R (renames (streamFindings ctx scope tokens)) (renames (streamFindings ctx' scope tokens)) := by
  unfold streamFindings
  rw [h.tool]
  cases ctx'.tool with
  | definitions => exact (DefinitionMatcher.alike_runL h 0 {} tokens).2
  | calls => exact (CallMatcher.alike_runL h .idle tokens).2

end Stream

/-! ### Files -/

section File

variable (h : ∀ scope, ctx.Compares R ctx' scope)

include h

theorem DocCode.renames_block (b : Block) :
    R (renames (b.findings ctx)) (renames (b.findings ctx')) := by
  unfold Block.findings
  split
  · exact (h .file).nil
  · rw [(h .file).view]
    exact renames_streamFindings ((h _).relocate _) _

theorem DocCode.alike_line (block : Option Block) (doc : DocLine) :
    Alike R (line ctx block doc) (line ctx' block doc) := by
  unfold line
  simp only
  split
  · exact (h .file).quiet rfl rfl
  · rename_i b _
    refine ⟨rfl, ?_⟩
    cases b.isRenamable with
    | false => exact (h .file).nil
    | true => exact renames_block h b
  · exact (h .file).quiet rfl rfl
  · exact (h .file).quiet rfl rfl

namespace Analysis

theorem alike_visit (block : Option DocCode.Block) (v : Visit) :
    Alike R (visit ctx block v) (visit ctx' block v) := by
  cases v with
  | doc line => exact DocCode.alike_line h block line
  | template scope tokens => exact ⟨rfl, renames_streamFindings (h scope) tokens⟩
  | definition scope sig =>
    refine ⟨rfl, ?_⟩
    simp only [visit, (h .file).tool, definition, (h .file).candidate?]
    repeat' split
    all_goals first | exact (h .file).nil | exact (h scope).judged _ _
  | methodCall scope c =>
    refine ⟨rfl, ?_⟩
    simp only [visit, (h .file).tool, methodCall, (h .file).candidate?]
    repeat' split
    all_goals first | exact (h .file).nil | exact (h scope).judged _ _
  | call scope c =>
    refine ⟨rfl, ?_⟩
    simp only [visit, (h .file).tool, call, (h .file).candidate?]
    repeat' split
    all_goals first | exact (h .file).nil | exact (h scope).judged _ _

theorem renames_visitAll (block : Option DocCode.Block) (vs : List Visit) :
    R (renames (visitAll ctx block vs)) (renames (visitAll ctx' block vs)) := by
  induction vs generalizing block with
  | nil => exact (h .file).nil
  | cons v vs ih =>
    obtain ⟨hblock, hfound⟩ := alike_visit h block v
    simp only [visitAll, Finding.renames_append, hblock]
    exact (h .file).append hfound (ih _)

/-- **Two readings of an outline** find renames that compare. -/
theorem renames_findings (nodes : List Node) :
    R (renames (findings ctx nodes)) (renames (findings ctx' nodes)) :=
  renames_visitAll h none _

end Analysis

end File

end GetterRename
