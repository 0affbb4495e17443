import GetterRename.Getter.CallMatcher
import GetterRename.Getter.DefinitionMatcher
import GetterRename.Source.Nesting
import GetterRename.Text.Blank

/-!
# Code in documentation

Gathers the code blocks of documentation lines and looks for getters in them.  The lines of a block
are put together so that line `k` of the snippet is `k` lines below the opening fence, hidden lines
included.

- `DocCode.Block` : an open code block;
- `DocCode.line` : one more documentation line;
- `streamFindings` : the findings of a token stream for the tool of a run.
-/

namespace GetterRename

/-- The findings of a token stream for the tool of the run. -/
def streamFindings (ctx : Context) (scope : Scope) (tokens : List Token) : List Finding :=
  match ctx.tool with
  | .definitions => DefinitionMatcher.findings ctx scope tokens
  | .calls => CallMatcher.findings ctx scope tokens

namespace DocCode

/-- An open code block: whether it holds code to rename in, the line of its fence, and its lines so
far. -/
structure Block where
  isRenamable : Bool
  fenceLine : Nat
  code : Bytes := []
  lines : Nat := 0
  deriving DecidableEq, Repr

/-- The mark of a fence. -/
def fence : Bytes := "```"

/-- Whether a block with this tag holds code that documentation tests compile. -/
def isRenamableTag (tag : Bytes) : Bool := tag.isEmpty || Bytes.endsWith tag "rust"

/-- Whether the line is left out of the shown documentation. -/
def isHidden (line : Bytes) : Bool := line = Bytes.ofString "#" || Bytes.startsWith line "# "

/-- The block that a fence on line `line` opens, from what follows its mark. -/
def Block.opened (tag : Bytes) (line : Nat) : Block :=
  ⟨isRenamableTag (Blank.trim (tag.dropWhile (· == byte '`'))), line, [], 0⟩

/-- The block with one more line of text, at its distance from the fence. -/
def Block.push (b : Block) (text : Bytes) (line : Nat) : Block :=
  let missing := line - b.fenceLine - 1 - b.lines
  { b with
    code := b.code ++ List.replicate missing (byte '\n') ++ text ++ [byte '\n']
    lines := b.lines + missing + 1 }

/-- The findings of a complete block. -/
def Block.findings (ctx : Context) (b : Block) : List Finding :=
  match Token.lex b.code with
  | .error e =>
    [.note ⟨.warn, "skipping documentation code",
      [("path", ctx.path), ("line", Bytes.ofNat b.fenceLine), ("error", e.message)]⟩]
  | .ok tokens =>
    streamFindings { ctx with view := ctx.view.relocate b.fenceLine } ⟨.documentation, [], []⟩ tokens

/-- The open block behind one more documentation line, and the findings of a block it closes. -/
def line (ctx : Context) (block : Option Block) (doc : DocLine) : Option Block × List Finding :=
  let text := Blank.trim doc.text
  match Bytes.after? fence text, block with
  | some tag, none => (some (Block.opened tag doc.line), [])
  | some _, some b => (none, if b.isRenamable then b.findings ctx else [])
  | none, some b =>
    (some (if b.isRenamable && !isHidden text then b.push text doc.line else b), [])
  | none, none => (none, [])

end DocCode

end GetterRename
