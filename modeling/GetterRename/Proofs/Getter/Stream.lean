import GetterRename.Getter.DocCode
import GetterRename.Proofs.Getter.CallStream
import GetterRename.Proofs.Getter.DefinitionStream

/-!
# Renames in a token stream

What both matchers have in common: their renames follow the safe names of the stream in order.  The
matchers take tokens as they stand and know nothing about the binders of a macro, so the name behind
a `$` is a name like any other; but it is never a method, since the `$` comes between it and a dot.

* `trace_streamFindings` — the renames of a token stream follow its safe names;
* `renames_metavariables` — where the names of metavariables are renamed.
-/

namespace GetterRename

theorem trace_sites (ctx : Context) (scope : Scope) (ts : List Token) :
    Rename.Trace (Rename.InStream ctx) (Finding.renames (streamFindings ctx scope ts))
      (Token.sitesOf ts) := by
  unfold streamFindings
  split
  · exact (DefinitionMatcher.trace_findings ctx scope ts).imp fun _ _ h => h.toInStream
  · exact (CallMatcher.trace_findings ctx scope ts).imp fun _ _ h => h.toInStream

/-- **Renames in a token stream** follow its safe names in order. -/
theorem trace_streamFindings (ctx : Context) (scope : Scope) (ts : List Token) :
    Rename.Trace (Rename.Renames ctx) (Finding.renames (streamFindings ctx scope ts))
      (Token.safeNamesL ts) := by
  have hsafe := (trace_sites ctx scope ts).filter fun _ s h => show s.isSafe = true from h.safe
  rw [Token.safeNamesL_eq_sites [] none none ts]
  exact hsafe.map fun _ _ h => h.renames

/-- The name of a metavariable is renamed as a path that is applied, or as the name of a function
definition. -/
def Rename.OfMetavariable (ctx : Context) (r : Rename) (s : Site) : Prop :=
  match ctx.tool with
  | .calls => CallMatcher.Applied s ∧ r.isMethod = false ∧
    (ctx.mode = .conservative → r.newName.returnsBool = .yes)
  | .definitions => s.word.any (·.isIdent "fn") = true

/-- **Names of metavariables.**  Of the identifiers with a `$` right before them a token stream
renames none but applied paths, in conservative mode `bool` getters only, and names of function
definitions. -/
theorem renames_metavariables (ctx : Context) (scope : Scope) (ts : List Token) :
    Rename.Trace
      (fun r s => r.Renames ctx s.name ∧ (s.isMetavariable = true → r.OfMetavariable ctx s))
      (Finding.renames (streamFindings ctx scope ts)) (Token.sitesOf ts) := by
  unfold streamFindings Rename.OfMetavariable
  cases ctx.tool with
  | definitions =>
    refine (DefinitionMatcher.trace_findings ctx scope ts).imp fun r s h => ?_
    exact ⟨h.renames, fun _ => h.fn⟩
  | calls =>
    refine (CallMatcher.trace_findings ctx scope ts).imp fun r s h => ?_
    refine ⟨h.renames, fun hmeta => ?_⟩
    have hpath := h.path hmeta
    exact ⟨h.applied, hpath, fun hmode => h.bool hmode hpath⟩

/-- The tokens of the call `$get_x()`. -/
def metavariableCall : List Token :=
  [.punct (byte '$') false ⟨1, 0⟩, .ident "get_x" ⟨1, 1⟩, .group .paren [] ⟨1, 6⟩]

/-- The tokens of the definition `fn $get_x(&self) -> u32 {}`. -/
def metavariableDefinition : List Token :=
  [.ident "fn" ⟨1, 0⟩, .punct (byte '$') false ⟨1, 3⟩, .ident "get_x" ⟨1, 4⟩,
    .group .paren [.punct (byte '&') false ⟨1, 10⟩, .ident "self" ⟨1, 11⟩] ⟨1, 9⟩,
    .punct (byte '-') true ⟨1, 17⟩, .punct (byte '>') false ⟨1, 18⟩, .ident "u32" ⟨1, 20⟩,
    .group .brace [] ⟨1, 24⟩]

/-- Both tools rename the name of a metavariable. -/
theorem renames_metavariable_name :
    let calls : Context := { path := "src/lib.rs", tool := .calls, mode := .allGetFunctions }
    let definitions : Context :=
      { path := "src/lib.rs", tool := .definitions, mode := .conservative }
    (∃ r ∈ Finding.renames (streamFindings calls ⟨.macroBody, "m", []⟩ metavariableCall),
        ∀ s ∈ Token.sitesOf metavariableCall, r.Renames calls s.name → s.isMetavariable = true) ∧
      ∃ r ∈ Finding.renames
          (streamFindings definitions ⟨.macroBody, "m", []⟩ metavariableDefinition),
        ∀ s ∈ Token.sitesOf metavariableDefinition, r.Renames definitions s.name →
          s.isMetavariable = true := by
  intro calls definitions
  have hcall : Finding.renames (streamFindings calls ⟨.macroBody, "m", []⟩ metavariableCall) =
      [⟨"get_x", ⟨"x", .maybe, .regular⟩, 1, 1, ⟨.macroBody, "m", []⟩, false, false⟩] := by
    decide +kernel
  have hdefinition : Finding.renames (streamFindings definitions ⟨.macroBody, "m", []⟩
      metavariableDefinition) =
      [⟨"get_x", ⟨"x", .no, .regular⟩, 1, 4, ⟨.macroBody, "m", []⟩, true, true⟩] := by
    decide +kernel
  have hsites : ∀ s ∈ Token.sitesOf metavariableCall ++ Token.sitesOf metavariableDefinition,
      s.name.text = Bytes.ofString "get_x" → s.isMetavariable = true := by
    decide +kernel
  rw [hcall, hdefinition]
  refine ⟨⟨_, List.mem_singleton_self _, fun s hs hren => ?_⟩,
    ⟨_, List.mem_singleton_self _, fun s hs hren => ?_⟩⟩
  · exact hsites s (List.mem_append_left _ hs) hren.name.symm
  · exact hsites s (List.mem_append_right _ hs) hren.name.symm

end GetterRename
