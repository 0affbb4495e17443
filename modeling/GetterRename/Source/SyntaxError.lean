import GetterRename.Source.Token
import GetterRename.Text.Quoted

/-!
# Syntax errors

Why a text has no token trees.  Everything else that is not understood is skipped, so these are the
only errors of reading a file.
-/

namespace GetterRename

/-- What is wrong at a place of the text. -/
inductive Fault where
  /-- A character that starts no token. -/
  | unexpected (code : Nat)
  | unterminatedComment
  | unterminatedString
  | unterminatedChar
  | unterminatedRaw
  /-- A raw string whose hashes are not followed by a quote. -/
  | invalidRaw
  /-- An opening delimiter without its closing one. -/
  | unclosed (delim : Delimiter)
  /-- A closing delimiter that does not match the open group. -/
  | unopened (delim : Delimiter)
  deriving DecidableEq, Repr

namespace Fault

/-- The wording of a fault. -/
def message : Fault → Bytes
  | unexpected code => "unexpected character " ++ Quoted.character code
  | unterminatedComment => "unterminated block comment"
  | unterminatedString => "unterminated string literal"
  | unterminatedChar => "unterminated char literal"
  | unterminatedRaw => "unterminated raw string literal"
  | invalidRaw => "invalid raw string literal"
  | unclosed d => "unclosed delimiter " ++ Quoted.string [byte d.opener]
  | unopened d => "unexpected closing delimiter " ++ Quoted.string [byte d.closer]

end Fault

/-- A fault and where it is. -/
structure SyntaxError where
  pos : Pos
  fault : Fault
  deriving DecidableEq, Repr

namespace SyntaxError

/-- The place, then the wording of the fault. -/
def message (e : SyntaxError) : Bytes :=
  Bytes.ofNat e.pos.line ++ ":" ++ Bytes.ofNat e.pos.col ++ ": " ++ e.fault.message

end SyntaxError

end GetterRename
