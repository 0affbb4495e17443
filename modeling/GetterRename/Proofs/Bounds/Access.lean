import GetterRename.Text.Bytes

/-!
# Checked reads

Texts and token lists are taken apart from the front in this library.  The same work can be done
with positions, and then every read by position may fall outside of the list.  The functions of
these modules work with positions and check every read: they answer with nothing as soon as an index
or a slice is out of range, or a loop has used up the turns that the size of its input allows.  That
they always have an answer, and which, is proved next to them.

* `Checked.get?` — the element at a position;
* `Checked.slice?` — the part of a list between two positions;
* `Checked.top?`, `Checked.pop?`, `Checked.onTop?` — a list as a stack, its top at the end.
-/

namespace GetterRename.Checked

variable {α : Type}

def get? (xs : List α) (i : Int) : Option α := if 0 ≤ i then xs[i.toNat]? else none

/-- The part of the list from `lo` up to `hi`, nothing if the bounds are out of order or out of
range. -/
def slice? (xs : List α) (lo hi : Int) : Option (List α) :=
  if 0 ≤ lo ∧ lo ≤ hi ∧ hi ≤ xs.length then some ((xs.take hi.toNat).drop lo.toNat) else none

/-- The turns that a loop over the list may take. -/
def turns (xs : List α) : Nat := xs.length + 1

@[simp] theorem get?_natCast (xs : List α) (i : Nat) : get? xs i = xs[i]? := by
  simp [get?]

@[simp] theorem get?_zero (xs : List α) : get? xs 0 = xs.head? := by
  simp [get?, List.head?_eq_getElem?]

theorem get?_pred (xs : List α) {i : Nat} (h : 0 < i) : get? xs ((i : Int) - 1) = xs[i - 1]? := by
  have hpos : (0 : Int) ≤ (i : Int) - 1 := by omega
  have hnat : ((i : Int) - 1).toNat = i - 1 := by omega
  rw [get?, if_pos hpos, hnat]

theorem slice?_natCast (xs : List α) {lo hi : Nat} (h : lo ≤ hi) (h' : hi ≤ xs.length) :
    slice? xs lo hi = some ((xs.take hi).drop lo) := by
  rw [slice?, if_pos (by omega)]
  rfl

theorem slice?_rest (xs : List α) {lo : Nat} (h : lo ≤ xs.length) :
    slice? xs lo xs.length = some (xs.drop lo) := by
  rw [slice?_natCast xs h (Nat.le_refl _), List.take_length]

theorem take_length_takeWhile (q : α → Bool) (xs : List α) :
    xs.take (xs.takeWhile q).length = xs.takeWhile q :=
  (List.prefix_iff_eq_take.1 (List.takeWhile_prefix q)).symm

theorem mapM_eq_map {β : Type} {f : α → Option β} {g : α → β} {xs : List α}
    (h : ∀ x ∈ xs, f x = some (g x)) : xs.mapM f = some (xs.map g) := by
  induction xs with
  | nil => rfl
  | cons x xs ih =>
    rw [List.mapM_cons, h x List.mem_cons_self, ih fun y hy => h y (List.mem_cons_of_mem x hy)]
    rfl

theorem mapIdx_map {β γ : Type} (f : α → β) (g : Nat → β → γ) (xs : List α) :
    (xs.map f).mapIdx g = xs.mapIdx fun i x => g i (f x) := by
  apply List.ext_getElem?
  intro i
  simp only [List.getElem?_mapIdx, List.getElem?_map, Option.map_map]
  rfl

/-! ### Stacks -/

def top? (stack : List α) : Option α := get? stack ((stack.length : Int) - 1)

def pop? (stack : List α) : Option (List α) := slice? stack 0 ((stack.length : Int) - 1)

def onTop? (f : α → α) (stack : List α) : Option (List α) := do
  let top ← top? stack
  return stack.set (stack.length - 1) (f top)

@[simp] theorem top?_append (stack : List α) (x : α) : top? (stack ++ [x]) = some x := by
  rw [top?, get?_pred _ (by simp)]
  simp

@[simp] theorem pop?_append (stack : List α) (x : α) : pop? (stack ++ [x]) = some stack := by
  have hlast : (((stack ++ [x]).length : Int) - 1) = (stack.length : Nat) := by simp
  rw [pop?, hlast, show (0 : Int) = (0 : Nat) from rfl, slice?_natCast _ (by omega) (by simp)]
  simp

@[simp] theorem onTop?_append (f : α → α) (stack : List α) (x : α) :
    onTop? f (stack ++ [x]) = some (stack ++ [f x]) := by
  simp [onTop?, List.set_append_right]

end GetterRename.Checked
