import GetterRename.Yaml.Text

/-!
# Values

The data that a document holds, and its written form: one key or one list item per line, four
spaces further in for every level below a key, empty lists and maps in brackets.  A key that is long
or has line breaks stands on lines of its own behind a question mark.

- `Yaml.Value` : scalars, lists and maps;
- `Value.render` : a value as a document.
-/

namespace GetterRename.Yaml

/-- The data that a document holds. -/
inductive Value where
  | scalar (value : Scalar)
  | list (items : List Value)
  | map (entries : List (Scalar × Value))

namespace Value

/-- A text. -/
def text (t : Bytes) : Value := scalar (.text t)

/-- A number. -/
def int (n : Int) : Value := scalar (.int n)

/-- A truth value. -/
def bool (b : Bool) : Value := scalar (.bool b)

/-- A map with texts as keys. -/
def record (entries : List (String × Value)) : Value :=
  map (entries.map fun (key, value) => (.text (Bytes.ofString key), value))

end Value

/-- The indentation of what belongs to a key at the given one: the next multiple of four. -/
def deeper (indent : Nat) : Nat := 4 * (indent / 4 + 1)

/-- A number with the fewest digits; it has an exponent if it is less than a ten-thousandth or has
more than six digits before the point. -/
def writeDouble (x : Double) : Bytes :=
  x.render ".nan" ".inf" "-.inf" fun d =>
    if d.point < -3 || 6 < d.point then d.scientific else d.positional

namespace Scalar

/-- A scalar as it stands behind a key. -/
def write (indent : Nat) : Scalar → Bytes
  | null => "null"
  | bool b => Bytes.ofString (if b then "true" else "false")
  | int n => Bytes.ofInt n
  | float x => writeDouble x
  | time t => t.written
  | text t => writeText indent t

/-- Whether a scalar can be a key on the line of its value. -/
def fitsLine : Scalar → Bool
  | text t => Yaml.fitsLine t
  | _ => true

end Scalar

/-- The text with a line break at its end. -/
def endLine (text : Bytes) : Bytes :=
  if ["\n", "\u2028", "\u2029"].any (Bytes.endsWith text ·) then text else text ++ [byte '\n']

namespace Value

/-- Whether the value stands on the line of its key. -/
def isInline : Value → Bool
  | scalar _ | list [] | map [] => true
  | _ => false

mutual

/-- The lines of a value that starts at the given indentation; a scalar may use `inner` for its
further lines. -/
def lines (indent inner : Nat) : Value → Bytes
  | scalar s => spaces indent ++ endLine (s.write inner)
  | list [] => spaces indent ++ "[]\n"
  | list (item :: items) => itemLines indent (item :: items)
  | map [] => spaces indent ++ "\x7b\x7d\n"
  | map (entry :: entries) => entryLines indent (entry :: entries)

/-- The lines of the items of a list, the first line of each behind a dash. -/
def itemLines (indent : Nat) : List Value → Bytes
  | [] => []
  | item :: items =>
    spaces indent ++ "- " ++ (lines (indent + 2) (indent + 2) item).drop (indent + 2)
      ++ itemLines indent items

/-- The lines of the entries of a map, each behind its key. -/
def entryLines (indent : Nat) : List (Scalar × Value) → Bytes
  | [] => []
  | entry :: entries => entryLine indent entry ++ entryLines indent entries

/-- The lines of an entry of a map: a scalar or an empty value on the line of its key, another one
below it. Behind a key on its own lines every value starts on the line of the colon. -/
def entryLine (indent : Nat) : Scalar × Value → Bytes
  | (key, value) =>
    let text := lines (deeper indent) (deeper indent) value
    let written := key.write (deeper indent)
    if key.fitsLine then
      spaces indent ++ written ++ ":"
        ++ (if value.isInline then byte ' ' :: text.drop (deeper indent) else byte '\n' :: text)
    else
      spaces indent ++ "? " ++ endLine written ++ spaces indent ++ ":"
        ++ (if value.isInline then byte ' ' :: text.drop (deeper indent)
          else text.drop (indent + 1))

end

/-- A value as a document. -/
def render (value : Value) : Bytes := lines 0 4 value

end Value

end GetterRename.Yaml
