import GetterRename.Text.Bytes

/-!
# Errors of documents

Why a text is no document.  An error in the tokens counts lines from one, an error in their
structure from zero; the start of the unfinished part is shown rather than the place where the error
is found, and a line that counts as zero is not shown.

- `Yaml.Problem` : the causes;
- `Yaml.Error` : a cause and where it is found.
-/

namespace GetterRename.Yaml

/-- Why a text is no document. -/
inductive Problem where
  -- characters
  | control
  | invalidLeading
  | invalidTrailing
  | invalidLength
  | invalidCharacter
  | incompleteCharacter
  | incompleteUnit
  | incompletePair
  | lowSurrogate
  | missingLowSurrogate
  -- tokens
  | mappingKey
  | mappingValue
  | listEntry
  | missingColon
  | badStart
  | endOfStream
  | documentMark
  | unknownEscape
  | badHex
  | badEscapeCode
  | zeroIndent
  | tabIndent
  | tabInPlain
  | lineNotEnded
  | directiveName
  | directiveEnd
  | unknownDirective
  | versionNumber
  | longVersion
  | versionPoint
  | anchorName
  | tagMark
  | tagName
  | tagEscape
  | tagLeading
  | tagTrailing
  | tagBracket
  | tagBlank
  | tagEnd
  | tooDeep
  -- structure
  | repeatedVersion
  | otherVersion
  | repeatedHandle
  | documentStart
  | unknownHandle
  | expectedKey
  | expectedDash
  | expectedListEnd
  | expectedMapEnd
  | expectedContent
  deriving DecidableEq, Repr

namespace Problem

/-- The wording of a problem. -/
def message : Problem → String
  | control => "control characters are not allowed"
  | invalidLeading => "invalid leading UTF-8 octet"
  | invalidTrailing => "invalid trailing UTF-8 octet"
  | invalidLength => "invalid length of a UTF-8 sequence"
  | invalidCharacter => "invalid Unicode character"
  | incompleteCharacter => "incomplete UTF-8 octet sequence"
  | incompleteUnit => "incomplete UTF-16 character"
  | incompletePair => "incomplete UTF-16 surrogate pair"
  | lowSurrogate => "unexpected low surrogate area"
  | missingLowSurrogate => "expected low surrogate area"
  | mappingKey => "mapping keys are not allowed in this context"
  | mappingValue => "mapping values are not allowed in this context"
  | listEntry => "block sequence entries are not allowed in this context"
  | missingColon => "could not find expected ':'"
  | badStart => "found character that cannot start any token"
  | endOfStream => "found unexpected end of stream"
  | documentMark => "found unexpected document indicator"
  | unknownEscape => "found unknown escape character"
  | badHex => "did not find expected hexdecimal number"
  | badEscapeCode => "found invalid Unicode character escape code"
  | zeroIndent => "found an indentation indicator equal to 0"
  | tabIndent => "found a tab character where an indentation space is expected"
  | tabInPlain => "found a tab character that violates indentation"
  | lineNotEnded => "did not find expected comment or line break"
  | directiveName => "could not find expected directive name"
  | directiveEnd => "found unexpected non-alphabetical character"
  | unknownDirective => "found unknown directive name"
  | versionNumber => "did not find expected version number"
  | longVersion => "found extremely long version number"
  | versionPoint => "did not find expected digit or '.' character"
  | anchorName => "did not find expected alphabetic or numeric character"
  | tagMark => "did not find expected '!'"
  | tagName => "did not find expected tag URI"
  | tagEscape => "did not find URI escaped octet"
  | tagLeading => "found an incorrect leading UTF-8 octet"
  | tagTrailing => "found an incorrect trailing UTF-8 octet"
  | tagBracket => "did not find the expected '>'"
  | tagBlank => "did not find expected whitespace"
  | tagEnd => "did not find expected whitespace or line break"
  | tooDeep => "exceeded max depth of 10000"
  | repeatedVersion => "found duplicate %YAML directive"
  | otherVersion => "found incompatible YAML document"
  | repeatedHandle => "found duplicate %TAG directive"
  | documentStart => "did not find expected <document start>"
  | unknownHandle => "found undefined tag handle"
  | expectedKey => "did not find expected key"
  | expectedDash => "did not find expected '-' indicator"
  | expectedListEnd => "did not find expected ',' or ']'"
  | expectedMapEnd => "did not find expected ',' or '\x7d'"
  | expectedContent => "did not find expected node content"

/-- Whether the problem lies in the structure rather than in the tokens. -/
def isStructural : Problem → Bool
  | repeatedVersion | otherVersion | repeatedHandle | documentStart | unknownHandle | expectedKey
  | expectedDash | expectedListEnd | expectedMapEnd | expectedContent => true
  | _ => false

end Problem

/-- Why a text cannot be read. -/
inductive Error where
  /-- A problem, the line on which the unfinished part starts, and the line on which the problem is
  found, both counted from zero. -/
  | problem (cause : Problem) (start line : Nat)
  /-- A reference to a name that no node before it has. -/
  | unknownAnchor (name : Bytes)
  deriving DecidableEq, Repr

namespace Error

/-- The line to show for a problem, zero for none. -/
def shownLine (cause : Problem) (start line : Nat) : Nat :=
  let line := if start = 0 then line else start
  if line = 0 || cause.isStructural then line else line + 1

/-- The wording of an error. -/
def message : Error → Bytes
  | problem cause start line =>
    let shown := shownLine cause start line
    let place : Bytes := if shown = 0 then [] else "line " ++ Bytes.ofNat shown ++ ": "
    place ++ Bytes.ofString cause.message
  | unknownAnchor name => "unknown anchor '" ++ name ++ "' referenced"

end Error

end GetterRename.Yaml
