import GetterRename.Text.NaturalOrder
import GetterRename.Yaml.Value

/-!
# Order of keys

The order in which the keys of a map are written: truth values and numbers by their size, texts in
natural order, and keys of other kinds by their kind.

- `KeyOrder.le` : the order as a test for sorting;
- `Value.sorted` : a value with the keys of every map in order.
-/

namespace GetterRename.Yaml

namespace KeyOrder

/-- The place of the kind of a key among the kinds. -/
def rank : Scalar → Nat
  | .bool _ => 1
  | .int n => if n < Numeral.limit then 2 else 3
  | .float _ => 4
  | .null => 5
  | .text _ => 6
  | .time _ => 7

/-- The size of a truth value or a number. -/
def size? : Scalar → Option Double
  | .bool b => some (.ofInt (if b then 1 else 0))
  | .int n => some (.ofInt n)
  | .float x => some x
  | _ => none

/-- Whether a key comes before another of the same kind and size. -/
def lessWithin : Scalar → Scalar → Bool
  | .int a, .int b => a < b
  | _, _ => false

/-- Whether a key comes before another. -/
def less (a b : Scalar) : Bool :=
  match size? a, size? b with
  | some x, some y =>
    if !x.equal y then x.less y
    else if rank a != rank b then rank a < rank b
    else lessWithin a b
  | _, _ =>
    match a, b with
    | .text s, .text t => NaturalOrder.less s t
    | _, _ => rank a < rank b

/-- Whether a key comes before another or at the same place. -/
def le (a b : Scalar) : Bool := !less b a

end KeyOrder

namespace Value

mutual

/-- The value with the keys of every map in order. -/
def sorted : Value → Value
  | scalar s => scalar s
  | list items => list (sortedItems items)
  | map entries => map ((sortedEntries entries).mergeSort fun a b => KeyOrder.le a.1 b.1)

/-- Every item with its keys in order. -/
def sortedItems : List Value → List Value
  | [] => []
  | item :: items => sorted item :: sortedItems items

/-- Every entry with the keys of its value in order. -/
def sortedEntries : List (Scalar × Value) → List (Scalar × Value)
  | [] => []
  | entry :: entries => sortedEntry entry :: sortedEntries entries

/-- An entry with the keys of its value in order. -/
def sortedEntry : Scalar × Value → Scalar × Value
  | (key, value) => (key, sorted value)

end

end Value

end GetterRename.Yaml
