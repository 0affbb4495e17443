import GetterRename.Text.Bytes

/-!
# Blanks

The characters that count as white space around documentation text and settings, and trimming.

- `Blank.encodings` : the bytes of each blank character;
- `Blank.trim` : a text without the blanks around it;
- `Blank.fields` : the words of a text between blanks.
-/

namespace GetterRename.Blank

/-- The bytes of each blank character: the ASCII blanks, the next-line control, the no-break space
and the wider spaces and separators. -/
def encodings : List Bytes :=
  [[9], [10], [11], [12], [13], [32], [0xC2, 0x85], [0xC2, 0xA0], [0xE1, 0x9A, 0x80],
    [0xE2, 0x80, 0x80], [0xE2, 0x80, 0x81], [0xE2, 0x80, 0x82], [0xE2, 0x80, 0x83],
    [0xE2, 0x80, 0x84], [0xE2, 0x80, 0x85], [0xE2, 0x80, 0x86], [0xE2, 0x80, 0x87],
    [0xE2, 0x80, 0x88], [0xE2, 0x80, 0x89], [0xE2, 0x80, 0x8A], [0xE2, 0x80, 0xA8],
    [0xE2, 0x80, 0xA9], [0xE2, 0x80, 0xAF], [0xE2, 0x81, 0x9F], [0xE3, 0x80, 0x80]]

/-- The number of bytes of the blank at the head of the text, `0` if there is none. The members of
`blanks` are compared with the head. -/
def headSize (blanks : List Bytes) (text : Bytes) : Nat :=
  match blanks.find? (·.isPrefixOf text) with
  | some blank => blank.length
  | none => 0

/-- The text without the members of `blanks` at its start. `skip` counts the bytes of a blank
already found. -/
def dropFrom (blanks : List Bytes) : Nat → Bytes → Bytes
  | _, [] => []
  | skip + 1, _ :: rest => dropFrom blanks skip rest
  | 0, b :: rest =>
    match headSize blanks (b :: rest) with
    | 0 => b :: rest
    | size + 1 => dropFrom blanks size rest

/-- The text without the blanks at its start. -/
def trimLeft (text : Bytes) : Bytes := dropFrom encodings 0 text

/-- The text without the blanks at its end. -/
def trimRight (text : Bytes) : Bytes :=
  (dropFrom (encodings.map List.reverse) 0 text.reverse).reverse

/-- The text without the blanks around it. -/
def trim (text : Bytes) : Bytes := trimRight (trimLeft text)

/-- The words of the text from here on, and whether the text starts inside a word. `skip` counts
the bytes of a blank already found. -/
def fieldsFrom : Nat → Bytes → Bytes → List Bytes
  | _, word, [] => if word.isEmpty then [] else [word.reverse]
  | skip + 1, word, _ :: rest => fieldsFrom skip word rest
  | 0, word, b :: rest =>
    match headSize encodings (b :: rest) with
    | 0 => fieldsFrom 0 (b :: word) rest
    | size + 1 => if word.isEmpty then fieldsFrom size [] rest
                  else word.reverse :: fieldsFrom size [] rest

/-- The words of the text: its longest parts without blanks. -/
def fields (text : Bytes) : List Bytes := fieldsFrom 0 [] text

end GetterRename.Blank
