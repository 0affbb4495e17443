import GetterRename.Getter.DocCode
import GetterRename.Proofs.Bounds.Lexer

/-!
# The machines on token streams, with positions

A machine reads the first byte of every punctuation character it meets.  The code blocks of
documentation are lexed with a cursor, and the blank lines they lack are added one at a time.

* `Checked.callRun?_eq`, `Checked.definitionRun?_eq` — the machines;
* `Checked.streamFindings?_eq` — the findings of a token stream;
* `Checked.blockLine?_eq` — one more documentation line.
-/

namespace GetterRename.Checked

variable (ctx : Context) (scope : Scope)

/-! ### Calls -/

section Calls

open CallMatcher (State)

mutual

def callRun? (state : State) : Token → Option (State × List Finding)
  | .ident text pos => some (CallMatcher.ident ctx scope ⟨text, pos⟩ state)
  | .punct c joint pos => do
    let first ← get? (Token.punct c joint pos).text 0
    return (CallMatcher.punct first state, [])
  | .literal _ _ => some (.idle, [])
  | .doc _ _ => some (state, [])
  | .group delim tokens _ => do
    let found := CallMatcher.group ctx scope delim tokens.isEmpty state
    let (state, inside) ← callRunL? .idle tokens
    return (state, found ++ inside)

def callRunL? (state : State) : List Token → Option (State × List Finding)
  | [] => some (state, [])
  | t :: ts => do
    let (state, found) ← callRun? state t
    let (state, more) ← callRunL? state ts
    return (state, found ++ more)

end

mutual

theorem callRun?_eq (state : State) :
    ∀ t : Token, callRun? ctx scope state t = some (CallMatcher.run ctx scope state t)
  | .ident _ _ | .punct _ _ _ | .literal _ _ | .doc _ _ => rfl
  | .group delim tokens pos => by
    rw [callRun?, callRunL?_eq .idle tokens]
    rfl

theorem callRunL?_eq (state : State) :
    ∀ ts : List Token, callRunL? ctx scope state ts = some (CallMatcher.runL ctx scope state ts)
  | [] => rfl
  | t :: ts => by
    simp only [callRunL?, callRun?_eq state t, Option.bind_eq_bind, Option.bind_some,
      callRunL?_eq _ ts]
    rfl

end

end Calls

/-! ### Definitions -/

section Definitions

open DefinitionMatcher (Machine)

mutual

/-- The machine behind a token tree at nesting level `level`, and its findings. -/
def definitionRun? (level : Nat) (m : Machine) : Token → Option (Machine × List Finding)
  | .ident text pos =>
    let (state, found) := DefinitionMatcher.ident ctx scope level ⟨text, pos⟩ m
    some (⟨state, false⟩, found)
  | .punct c joint pos => do
    let first ← get? (Token.punct c joint pos).text 0
    let (state, found) := DefinitionMatcher.punct ctx scope level first m
    return (⟨state, first = byte '-' || first = byte '='⟩, found)
  | .literal _ _ => some (⟨.idle, false⟩, [])
  | .doc _ _ => some (⟨m.state, false⟩, [])
  | .group delim tokens _ => do
    let (state, found) := DefinitionMatcher.group ctx scope level delim tokens.isEmpty m
    let (inner, inside) ← definitionRunL? (level + 1) ⟨state, m.afterDash⟩ tokens
    return (⟨inner.state, false⟩, found ++ inside)

def definitionRunL? (level : Nat) (m : Machine) : List Token → Option (Machine × List Finding)
  | [] => some (m, [])
  | t :: ts => do
    let (m, found) ← definitionRun? level m t
    let (m, more) ← definitionRunL? level m ts
    return (m, found ++ more)

end

mutual

theorem definitionRun?_eq (level : Nat) (m : Machine) :
    ∀ t : Token,
      definitionRun? ctx scope level m t = some (DefinitionMatcher.run ctx scope level m t)
  | .ident _ _ | .punct _ _ _ | .literal _ _ | .doc _ _ => rfl
  | .group delim tokens pos => by
    rw [definitionRun?]
    simp only [definitionRunL?_eq _ _ tokens]
    rfl

theorem definitionRunL?_eq (level : Nat) (m : Machine) :
    ∀ ts : List Token,
      definitionRunL? ctx scope level m ts = some (DefinitionMatcher.runL ctx scope level m ts)
  | [] => rfl
  | t :: ts => by
    simp only [definitionRunL?, definitionRun?_eq level m t, Option.bind_eq_bind, Option.bind_some,
      definitionRunL?_eq level _ ts]
    rfl

end

end Definitions

/-! ### Token streams -/

def streamFindings? (tokens : List Token) : Option (List Finding) :=
  match ctx.tool with
  | .definitions => (definitionRunL? ctx scope 0 {} tokens).map (·.2)
  | .calls => (callRunL? ctx scope .idle tokens).map (·.2)

/-- **A token stream.**  Every punctuation character has a first byte to look at. -/
theorem streamFindings?_eq (tokens : List Token) :
    streamFindings? ctx scope tokens = some (streamFindings ctx scope tokens) := by
  unfold streamFindings? streamFindings
  cases ctx.tool with
  | definitions =>
    rw [definitionRunL?_eq]
    rfl
  | calls =>
    rw [callRunL?_eq]
    rfl

/-! ### Code in documentation -/

open DocCode (Block)

/-- The block with blank lines at its end until it has as many lines as `target` says. -/
def padFrom? (target : Int) : Nat → Block → Option Block
  | 0, _ => none
  | n + 1, b =>
    if b.lines < target then
      padFrom? target n { b with code := b.code ++ [byte '\n'], lines := b.lines + 1 }
    else some b

/-- The block with one more line of text, at its distance from the fence. -/
def push? (b : Block) (text : Bytes) (line : Nat) : Option Block := do
  let b ← padFrom? ((line : Int) - b.fenceLine - 1) (line + 1) b
  return { b with code := b.code ++ text ++ [byte '\n'], lines := b.lines + 1 }

def blockFindings? (b : Block) : Option (List Finding) := do
  match ← lex? b.code with
  | .error e =>
    return [.note ⟨.warn, "skipping documentation code",
      [("path", ctx.path), ("line", Bytes.ofNat b.fenceLine), ("error", e.message)]⟩]
  | .ok tokens =>
    streamFindings? { ctx with view := ctx.view.relocate b.fenceLine } ⟨.documentation, [], []⟩ tokens

/-- The open block behind one more documentation line, and the findings of a block it closes. -/
def blockLine? (block : Option Block) (doc : DocLine) : Option (Option Block × List Finding) :=
  let text := Blank.trim doc.text
  match Bytes.after? DocCode.fence text, block with
  | some tag, none => some (some (Block.opened tag doc.line), [])
  | some _, some b => do
    let found ← if b.isRenamable then blockFindings? ctx b else some []
    return (none, found)
  | none, some b => do
    let b ← if b.isRenamable && !DocCode.isHidden text then push? b text doc.line else some b
    return (some b, [])
  | none, none => some (none, [])

theorem padFrom?_eq {target : Int} {n : Nat} {b : Block} (hn : (target - b.lines).toNat < n) :
    padFrom? target n b = some { b with
      code := b.code ++ List.replicate (target - b.lines).toNat (byte '\n')
      lines := b.lines + (target - b.lines).toNat } := by
  induction n generalizing b with
  | zero => omega
  | succ n ih =>
    unfold padFrom?
    by_cases hless : b.lines < target
    · have hone : (target - b.lines).toNat = (target - (b.lines + 1 : Nat)).toNat + 1 := by omega
      rw [if_pos hless, ih (by simp only; omega), hone, List.replicate_succ]
      simp only [List.append_assoc, List.singleton_append, Nat.add_assoc, Nat.add_comm 1]
    · have hzero : (target - b.lines).toNat = 0 := by omega
      rw [if_neg hless, hzero, List.replicate_zero, List.append_nil, Nat.add_zero]

theorem push?_eq (b : Block) (text : Bytes) (line : Nat) :
    push? b text line = some (b.push text line) := by
  have hmissing : ((line : Int) - b.fenceLine - 1 - b.lines).toNat =
      line - b.fenceLine - 1 - b.lines := by omega
  rw [push?, padFrom?_eq (by omega), hmissing]
  rfl

theorem blockFindings?_eq (b : Block) : blockFindings? ctx b = some (b.findings ctx) := by
  unfold blockFindings? Block.findings
  rw [lex?_eq, Option.bind_eq_bind, Option.bind_some]
  cases Token.lex b.code with
  | error e => rfl
  | ok tokens => exact streamFindings?_eq _ _ tokens

/-- **One documentation line.**  The blank lines in front of it are added in as many turns as the
file has lines, and no read of a block it closes is out of range. -/
theorem blockLine?_eq (block : Option Block) (doc : DocLine) :
    blockLine? ctx block doc = some (DocCode.line ctx block doc) := by
  unfold blockLine? DocCode.line
  simp only [blockFindings?_eq, push?_eq]
  cases Bytes.after? DocCode.fence (Blank.trim doc.text) with
  | some tag =>
    cases block with
    | none => rfl
    | some b =>
      simp only
      split <;> rfl
  | none =>
    cases block with
    | none => rfl
    | some b =>
      simp only
      split <;> rfl

end GetterRename.Checked
