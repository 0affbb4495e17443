import GetterRename.Proofs.Bounds.Outline
import GetterRename.Proofs.Bounds.Patching
import GetterRename.Proofs.Bounds.Visitor
import GetterRename.Proofs.Patch.Tokens
import GetterRename.Run.Fix

/-!
# The work on a text, with positions

A text is lexed, read, analysed and patched, and every byte, token and slice on the way is read by
its position.  Whatever the text is, none of these reads is out of range and every loop ends; so the
work has an outcome, and it is the outcome of the functions that take lists apart from the front.

* `Checked.fixText?` — the work on a text, nothing if a read or a loop fails;
* `Checked.Safe` — what never goes wrong;
* `Checked.safe_fixText` — it never does.
-/

namespace GetterRename

theorem Analysis.isWord_of_pending {path src : Bytes} {tool : Tool} {mode : Mode}
    {toks : List Token} (hlex : Token.lex src = .ok toks)
    (h : (run path tool mode (Outline.read toks)).error = none) :
    ∀ r ∈ (run path tool mode (Outline.read toks)).ledger.pending, Line.IsWord r.name := by
  intro r hr
  rw [pending_run h, (Rename.perm_sortByLine _).mem_iff] at hr
  obtain ⟨ctx, id, hren, hid⟩ := exists_renames_of_mem hlex hr
  exact Line.isWord_of_isName (hren.isName_name hid)

namespace Checked

/-- The log of the work on a text, and its outcome. -/
def fixText? (tool : Tool) (mode : Mode) (docAlias : DocAlias) (path src : Bytes) :
    Option (List LogRecord × Except Failure (Option (Bytes × List Record))) := do
  match ← lex? src with
  | .error e => return ([], .error (.syntaxError path e))
  | .ok tokens =>
    let nodes ← parse? tokens
    let analysis ← analyze? path tool mode nodes
    match analysis.error with
    | some e => return (analysis.logs, .error (.duplicate e))
    | none =>
      let patch ← patchText? docAlias src analysis.ledger
      return (analysis.logs ++ patch.logs,
        .ok (patch.output.map fun text => (text, patch.records)))

variable (tool : Tool) (mode : Mode) (docAlias : DocAlias) (path src : Bytes)

theorem fixText?_eq :
    fixText? tool mode docAlias path src = some (Run.fixText tool mode docAlias path src) := by
  unfold fixText? Run.fixText Outline.ofSource
  rw [lex?_eq, Option.bind_eq_bind, Option.bind_some]
  cases hlex : Token.lex src with
  | error e => rfl
  | ok toks =>
    simp only [parse?_eq, analyze?_eq, Option.bind_eq_bind, Option.bind_some, Except.map]
    cases herror : (Analysis.run path tool mode (Outline.read toks)).error with
    | some e => rfl
    | none =>
      have hwords := Analysis.isWord_of_pending hlex herror
      simp only [patchText?_eq docAlias src hwords, Option.bind_some]
      rfl

/-- What never goes wrong in the work on a text. -/
structure Safe : Prop where
  /-- No read of a byte or a token and no slice is out of range, the scope of the file stays on the
  stack, every loop ends, and the outcome is that of the text. -/
  outcome : fixText? tool mode docAlias path src = some (Run.fixText tool mode docAlias path src)
  /-- The lexer does not come past the end of the text; every scan drops a pending event, consumes a
  byte or is the last one. -/
  scans : ∀ l : Lexer, Lexes src l → l.cursor.pos ≤ src.length ∧ Advances src l
  /-- Every step of the parser takes at least one token. -/
  steps : ∀ (tokens : List Token) (pos : Nat), pos < tokens.length →
    ∃ found next, step? tokens pos = some (found, next) ∧ pos < next
  /-- The parameters, the generic parameters and the bounds that a list is split into have a first
  token. -/
  parts : ∀ (tokens : List Token) (sep : Char),
    ∃ parts, split? tokens sep = some parts ∧ ∀ part ∈ parts, (get? part 0).isSome
  /-- Punctuation has a first byte. -/
  punctuation : ∀ (t : Token) (c : Char), t.isPunct c → get? t.text 0 = some (byte c)
  /-- The scopes that a visit finds on the stack are on it behind the visit. -/
  scopes : ∀ (below : List Scope) (scope : Scope) (block : Option DocCode.Block) (isItem : Bool)
    (nodes : List Node), ∃ block' found,
      visitL? { path, tool, mode } ⟨below ++ [scope], block⟩ isItem nodes =
        some (⟨below ++ [scope], block'⟩, found)
  /-- Every span that is replaced lies in its line. -/
  spans : ∀ (text : Bytes) (renames : List Rename),
    ∀ e ∈ (Line.locate text tool [] renames).filterMap (·.2),
      e.start ≤ e.stop ∧ e.stop ≤ text.length

/-- **The work on a text is safe**, for every tool, mode and alias policy and for every text, be it
source code or not. -/
theorem safe_fixText : Safe tool mode docAlias path src where
  outcome := fixText?_eq tool mode docAlias path src
  scans := fun l hl => hl.advances
  steps := by
    intro tokens pos hpos
    obtain ⟨t, rest, hdrop⟩ : ∃ t rest, tokens.drop pos = t :: rest :=
      List.exists_cons_of_ne_nil (by simpa using hpos)
    obtain ⟨next, hstep, -⟩ := step?_spec hdrop
    exact ⟨_, next, hstep, step?_lt hstep⟩
  parts := by
    intro tokens sep
    refine ⟨_, split?_eq tokens sep, ?_⟩
    intro part hpart
    obtain ⟨t, rest, -, hfirst⟩ := get?_zero_of_mem_split hpart
    rw [hfirst]
    rfl
  punctuation := by
    intro t c hpunct
    cases t with
    | punct c' joint pos =>
      obtain rfl : c' = byte c := by simpa [Token.isPunct] using hpunct
      rfl
    | _ => cases hpunct
  scopes := by
    intro below scope block isItem nodes
    exact ⟨_, _, visitL?_eq _ below scope block isItem nodes⟩
  spans := by
    intro text renames e he
    exact Line.stop_le_of_mem_locate he

end Checked

end GetterRename
