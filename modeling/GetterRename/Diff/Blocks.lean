/-!
# Matching blocks

Where two lists agree: the longest common block, then the longest ones to its left and to its
right, and so on.  Of several longest blocks the one that starts first in the first list wins, then
the one that starts first in the second.  In a long second list, items that occur too often start
no block, though they may extend one.

- `Diff.Block` : a stretch of equal items;
- `Diff.longest` : the longest block of two lists;
- `Diff.blocks` : all matching blocks, neighbours joined.
-/

namespace GetterRename.Diff

/-- Equal items of two lists: where they start in each, and how many there are. -/
structure Block where
  left : Nat
  right : Nat
  size : Nat
  deriving DecidableEq, Repr

section

variable {α : Type} [DecidableEq α]

/-- For every position of the second list, the length of the common run that ends there and at an
item `x` of the first. `ends` holds the lengths for the item before `x`, and `before` the length
for the position before. -/
def runs (isFrequent : α → Bool) (x : α) : Nat → List α → List Nat → List Nat
  | _, [], _ => []
  | before, y :: ys, ends =>
    (if x = y && !isFrequent y then before + 1 else 0) ::
      runs isFrequent x (ends.headD 0) ys (ends.drop 1)

/-- The better of a block and the best run that ends at position `i` of the first list. -/
def better (i j : Nat) (best : Block) : List Nat → Block
  | [] => best
  | k :: ks =>
    better i (j + 1) (if best.size < k then ⟨i + 1 - k, j + 1 - k, k⟩ else best) ks

/-- The longest block of the rest `xs` of the first list, which starts at `i`, and the second. -/
def longestFrom (isFrequent : α → Bool) (ys : List α) (i : Nat) (ends : List Nat) (best : Block) :
    List α → Block
  | [] => best
  | x :: xs =>
    let ends := runs isFrequent x 0 ys ends
    longestFrom isFrequent ys (i + 1) ends (better i 0 best ends) xs

/-- The number of equal items at the heads of two lists. -/
def common : List α → List α → Nat
  | x :: xs, y :: ys => if x = y then common xs ys + 1 else 0
  | _, _ => 0

/-- The block with the equal items around it. -/
def extend (xs ys : List α) (b : Block) : Block :=
  let before := common (xs.take b.left).reverse (ys.take b.right).reverse
  let behind := common (xs.drop (b.left + b.size)) (ys.drop (b.right + b.size))
  ⟨b.left - before, b.right - before, before + b.size + behind⟩

/-- The longest block of two lists. -/
def longest (isFrequent : α → Bool) (xs ys : List α) : Block :=
  extend xs ys (longestFrom isFrequent ys 0 [] ⟨0, 0, 0⟩ xs)

/-- The matching blocks of two lists that start at `i` and `j` of longer ones, from left to right.
-/
def blocksFrom (isFrequent : α → Bool) (i j : Nat) (xs ys : List α) : List Block :=
  let ⟨left, right, size⟩ := longest isFrequent xs ys
  if _h : 0 < size ∧ left + size ≤ xs.length then
    blocksFrom isFrequent i j (xs.take left) (ys.take right) ++
      ⟨i + left, j + right, size⟩ ::
        blocksFrom isFrequent (i + left + size) (j + right + size)
          (xs.drop (left + size)) (ys.drop (right + size))
  else []
termination_by xs.length
decreasing_by
  · simp only [List.length_take]; omega
  · simp only [List.length_drop]; omega

/-- The items that occur too often in a long list: more than one in a hundred and one. -/
def isFrequentIn (ys : List α) (y : α) : Bool :=
  200 ≤ ys.length && ys.length / 100 + 1 < ys.count y

/-- Joins a block with the one before it where they touch. -/
def joinBlocks : List Block → List Block
  | a :: b :: rest =>
    if a.left + a.size = b.left && a.right + a.size = b.right then
      joinBlocks (⟨a.left, a.right, a.size + b.size⟩ :: rest)
    else a :: joinBlocks (b :: rest)
  | bs => bs
termination_by bs => bs.length

/-- The matching blocks of two lists from left to right. -/
def blocks (xs ys : List α) : List Block :=
  let frequent := if 200 ≤ ys.length then ys.eraseDups.filter (isFrequentIn ys) else []
  joinBlocks (blocksFrom (frequent.contains ·) 0 0 xs ys)

end

end GetterRename.Diff
