import GetterRename.Getter.Rename
import Mathlib.Data.List.Nodup

/-!
# Renames by line

Sorting renames by their lines keeps the order of those that share a line.  So a sorted list is
known by what it has on each line.

* `Rename.sortByLine` — the renames by line, and within a line in the order of the list;
* `Rename.sublist_of_onLine`, `Rename.eq_sortByLine` — sorted lists compared line by line;
* `Rename.filter_ne_sortByLine` — the renames of a line taken away;
* `Rename.sortByLine_append` — further renames.
-/

namespace GetterRename

namespace Rename

def InLineOrder (l : List Rename) : Prop := l.Pairwise fun a b => a.line ≤ b.line

def onLine (k : Int) (l : List Rename) : List Rename := l.filter (·.line == k)

/-- The renames in the order of their lines, and on a line in the order of the list. -/
def sortByLine (l : List Rename) : List Rename := l.mergeSort fun a b => a.line ≤ b.line

theorem perm_sortByLine (l : List Rename) : (sortByLine l).Perm l := List.mergeSort_perm _ _

theorem inLineOrder_sortByLine (l : List Rename) : InLineOrder (sortByLine l) := by
  have h : (sortByLine l).Pairwise fun a b => decide (a.line ≤ b.line) = true :=
    List.pairwise_mergeSort (by simp only [decide_eq_true_eq]; omega)
      (by simp only [Bool.or_eq_true, decide_eq_true_eq]; omega) l
  exact h.imp fun {a b} hab => of_decide_eq_true hab

theorem line_of_mem_onLine {k : Int} {l : List Rename} {r : Rename} (h : r ∈ onLine k l) :
    r.line = k := by
  simpa using (List.mem_filter.1 h).2

theorem onLine_cons_of_eq {k : Int} {r : Rename} (h : r.line = k) (l : List Rename) :
    onLine k (r :: l) = r :: onLine k l := by
  simp [onLine, h]

theorem onLine_cons_of_ne {k : Int} {r : Rename} (h : r.line ≠ k) (l : List Rename) :
    onLine k (r :: l) = onLine k l := by
  simp [onLine, h]

@[simp] theorem onLine_append (k : Int) (l m : List Rename) :
    onLine k (l ++ m) = onLine k l ++ onLine k m := List.filter_append ..

/-- Sorting keeps the order on a line. -/
theorem onLine_sortByLine (k : Int) (l : List Rename) : onLine k (sortByLine l) = onLine k l := by
  have hsub : (onLine k l).Sublist (sortByLine l) := by
    refine List.sublist_mergeSort (by simp only [decide_eq_true_eq]; omega)
      (by simp only [Bool.or_eq_true, decide_eq_true_eq]; omega) ?_ List.filter_sublist
    refine List.pairwise_of_forall_mem_list fun a ha b hb => ?_
    simp [line_of_mem_onLine ha, line_of_mem_onLine hb]
  have hkeep : onLine k (onLine k l) = onLine k l := by simp [onLine]
  have hsub' : (onLine k l).Sublist (onLine k (sortByLine l)) := by
    rw [← hkeep]
    exact hsub.filter _
  exact (hsub'.eq_of_length ((perm_sortByLine l).filter _).length_eq.symm).symm

/-- Sorted lists are compared line by line. -/
theorem sublist_of_onLine {a b : List Rename} (ha : InLineOrder a) (hb : InLineOrder b)
    (h : ∀ k, (onLine k a).Sublist (onLine k b)) : a.Sublist b := by
  induction b generalizing a with
  | nil =>
    cases a with
    | nil => exact .slnil
    | cons x a =>
      have hx := h x.line
      rw [onLine_cons_of_eq rfl] at hx
      exact absurd hx (by simp [onLine])
  | cons y b ih =>
    obtain ⟨hy, htail⟩ := List.pairwise_cons.1 hb
    -- without the head of `b`, its line alone is to be looked at again
    have hskip : (onLine y.line a).Sublist (onLine y.line b) → a.Sublist (y :: b) := by
      intro hline
      refine (ih ha htail fun k => ?_).cons y
      by_cases hk : y.line = k
      · exact hk ▸ hline
      · rw [← onLine_cons_of_ne hk b]
        exact h k
    cases a with
    | nil => exact List.nil_sublist _
    | cons x a =>
      obtain ⟨hx, hrest⟩ := List.pairwise_cons.1 ha
      by_cases hxy : x.line = y.line
      · have hline := h y.line
        rw [onLine_cons_of_eq hxy, onLine_cons_of_eq rfl, List.cons_sublist_cons'] at hline
        rcases hline with hline | ⟨rfl, hline⟩
        · exact hskip (by rwa [onLine_cons_of_eq hxy])
        · refine (ih hrest htail fun k => ?_).cons_cons x
          by_cases hk : x.line = k
          · exact hk ▸ hline
          · rw [← onLine_cons_of_ne hk a, ← onLine_cons_of_ne hk b]
            exact h k
      · have hmem : x ∈ y :: b := List.mem_of_mem_filter ((h x.line).subset (by simp [onLine]))
        have hlt : y.line < x.line := by
          rcases List.mem_cons.1 hmem with rfl | hmem
          · exact absurd rfl hxy
          · have := hy x hmem
            omega
        have hnil : onLine y.line (x :: a) = [] := by
          refine List.filter_eq_nil_iff.2 fun z hz => ?_
          rcases List.mem_cons.1 hz with rfl | hz
          · simpa using hxy
          · have := hx z hz
            simp only [beq_iff_eq]
            omega
        exact hskip (by rw [hnil]; exact List.nil_sublist _)

/-- A sorted list is known by its lines. -/
theorem eq_sortByLine {l m : List Rename} (hm : InLineOrder m)
    (h : ∀ k, onLine k m = onLine k l) : m = sortByLine l := by
  have hsort := inLineOrder_sortByLine l
  refine (sublist_of_onLine hm hsort fun k => ?_).antisymm (sublist_of_onLine hsort hm fun k => ?_)
  · rw [h, onLine_sortByLine]
  · rw [h, onLine_sortByLine]

theorem sortByLine_sublist {l m : List Rename} (h : l.Sublist m) :
    (sortByLine l).Sublist (sortByLine m) := by
  refine sublist_of_onLine (inLineOrder_sortByLine l) (inLineOrder_sortByLine m) fun k => ?_
  rw [onLine_sortByLine, onLine_sortByLine]
  exact h.filter _

theorem onLine_filter_ne (j k : Int) (l : List Rename) :
    onLine j (l.filter (·.line != k)) = if j = k then [] else onLine j l := by
  rw [onLine, List.filter_filter]
  split
  · rename_i hjk
    simp [hjk]
  · rename_i hjk
    refine List.filter_congr fun r _ => ?_
    by_cases hr : r.line = j <;> simp [hr, hjk]

/-- Taking a line away commutes with sorting. -/
theorem filter_ne_sortByLine (k : Int) (l : List Rename) :
    (sortByLine l).filter (·.line != k) = sortByLine (l.filter (·.line != k)) := by
  refine eq_sortByLine ((inLineOrder_sortByLine l).sublist List.filter_sublist) fun j => ?_
  rw [onLine_filter_ne, onLine_filter_ne, onLine_sortByLine]

theorem eq_of_onLine {a b : List Rename} (ha : InLineOrder a) (hb : InLineOrder b)
    (h : ∀ k, onLine k a = onLine k b) : a = b :=
  (eq_sortByLine ha h).trans (eq_sortByLine hb fun _ => rfl).symm

/-- Sorting once more, with further renames behind, is sorting once. -/
theorem sortByLine_append (l m : List Rename) :
    sortByLine (sortByLine l ++ m) = sortByLine (l ++ m) := by
  refine eq_sortByLine (inLineOrder_sortByLine _) fun k => ?_
  rw [onLine_sortByLine, onLine_append, onLine_append, onLine_sortByLine]

end Rename

end GetterRename
