import GetterRename.Getter.Ledger
import GetterRename.Proofs.Getter.LineOrder
import Mathlib.Data.List.Sort

/-!
# The store as a sorted list

A store keeps its renames in lists that stand in no order, and counts them one by one.  Seen from
outside it is one list, sorted by lines: a rename is added at its end and sorted in, the renames of a
line are those filtered out, and the count is the length.

* `Store.onLine_renames`, `Store.inLineOrder_renames` — the list by its lines;
* `Store.renames_add`, `Store.renames_take`, `Store.count_eq` — the store and the list step by step;
* `Ledger.add_eq_ok_iff`, `Ledger.add_of_occupied` — when a rename is recorded, and when not;
* `Ledger.pending_push`, `Ledger.take_fst`, `Ledger.pending_take` — what is pending then.
-/

namespace GetterRename

namespace Store

/-! ### Lines -/

theorem insertLine_eq (line : Int) (lines : List Int) :
    insertLine line lines = lines.orderedInsert (· ≤ ·) line := by
  induction lines with
  | nil => rfl
  | cons next lines ih => rw [insertLine, List.orderedInsert_cons, ih]

theorem lines_eq (s : Store) : s.lines = (s.byLine.map (·.1)).insertionSort (· ≤ ·) := by
  unfold lines List.insertionSort
  congr 1
  funext line lines
  exact insertLine_eq line lines

theorem perm_lines (s : Store) : s.lines.Perm (s.byLine.map (·.1)) := by
  rw [lines_eq]
  exact List.perm_insertionSort ..

theorem pairwise_lines (s : Store) : s.lines.Pairwise (· ≤ ·) := by
  rw [lines_eq]
  exact List.pairwise_insertionSort ..

variable {s : Store}

theorem nodup_keys (h : s.Sound) : (s.byLine.map (·.1)).Nodup := List.pairwise_map.2 h.single

theorem nodup_lines (h : s.Sound) : s.lines.Nodup := (perm_lines s).nodup_iff.2 (nodup_keys h)

theorem onLine_of_mem (h : s.Sound) {e : Int × List Rename} (he : e ∈ s.byLine) :
    s.onLine e.1 = e.2 := by
  unfold onLine onLine?
  cases hlist : s.byLine.lookup e.1 with
  | none => simpa using List.lookup_eq_none_iff.1 hlist e he
  | some renames =>
    have hmem := mem_of_onLine? (show s.onLine? e.1 = some renames from hlist)
    exact congrArg Prod.snd (List.inj_on_of_nodup_map (nodup_keys h) hmem he rfl)

theorem onLine_of_not_mem {line : Int} (hline : line ∉ s.lines) : s.onLine line = [] := by
  unfold onLine
  cases hlist : s.onLine? line with
  | none => rfl
  | some renames =>
    exact absurd ((perm_lines s).mem_iff.2 (List.mem_map_of_mem (mem_of_onLine? hlist))) hline

/-! ### The list -/

theorem onLine_onLine (h : s.Sound) (j k : Int) :
    Rename.onLine k (s.onLine j) = if j = k then s.onLine k else [] := by
  split
  · rename_i hjk
    rw [hjk, Rename.onLine, List.filter_eq_self]
    exact fun r hr => by simpa using line_of_mem_onLine h hr
  · rename_i hjk
    rw [Rename.onLine, List.filter_eq_nil_iff]
    exact fun r hr => by simpa [line_of_mem_onLine h hr] using hjk

theorem onLine_renames (h : s.Sound) (k : Int) : Rename.onLine k s.renames = s.onLine k := by
  have hlist : ∀ lines : List Int, lines.Nodup →
      Rename.onLine k (lines.flatMap s.onLine) = if k ∈ lines then s.onLine k else [] := by
    intro lines hnodup
    induction lines with
    | nil => rfl
    | cons j lines ih =>
      obtain ⟨hj, hlines⟩ := List.nodup_cons.1 hnodup
      rw [List.flatMap_cons, Rename.onLine_append, ih hlines, onLine_onLine h]
      by_cases hjk : j = k
      · subst hjk
        simp [hj]
      · simp [hjk, Ne.symm hjk]
  rw [renames, hlist _ (nodup_lines h)]
  split
  · rfl
  · rename_i hk
    exact (onLine_of_not_mem hk).symm

theorem inLineOrder_renames (h : s.Sound) : Rename.InLineOrder s.renames := by
  unfold Rename.InLineOrder renames
  rw [List.pairwise_flatMap]
  refine ⟨fun line _ => ?_, (pairwise_lines s).imp fun hle x hx y hy => ?_⟩
  · refine List.pairwise_of_forall_mem_list fun x hx y hy => ?_
    rw [line_of_mem_onLine h hx, line_of_mem_onLine h hy]
  · rwa [line_of_mem_onLine h hx, line_of_mem_onLine h hy]

/-- The count is the length of the list. -/
theorem count_eq (h : s.Sound) : s.count = s.renames.length := by
  have hlists : (s.byLine.map (·.1)).map (fun line => (s.onLine line).length) =
      s.byLine.map (·.2.length) := by
    rw [List.map_map]
    exact List.map_congr_left fun e he => congrArg List.length (onLine_of_mem h he)
  rw [h.counted, renames, List.length_flatMap, ((perm_lines s).map _).sum_nat, hlists, total,
    List.length_flatMap]

/-! ### Steps -/

theorem lookup_others (line k : Int) :
    (s.others line).lookup k = if k = line then none else s.byLine.lookup k := by
  obtain ⟨lists, count⟩ := s
  simp only [others]
  induction lists with
  | nil => simp
  | cons e lists ih =>
    obtain ⟨j, renames⟩ := e
    by_cases hj : j = line
    · rw [List.filter_cons_of_neg (by simpa using hj), ih]
      split
      · rfl
      · rename_i hk
        rw [List.lookup_cons, beq_false_of_ne (hj ▸ hk)]
    · rw [List.filter_cons_of_pos (by simpa using hj), List.lookup_cons, List.lookup_cons, ih]
      by_cases hk : k = j
      · simp [hk, hj]
      · rw [beq_false_of_ne hk]

theorem onLine_add (s : Store) (r : Rename) (k : Int) :
    (s.add r).onLine k = if k = r.line then s.onLine k ++ [r] else s.onLine k := by
  unfold add onLine onLine?
  by_cases hk : k = r.line
  · rw [hk, List.lookup_cons_self, if_pos rfl]
    rfl
  · rw [List.lookup_cons, beq_false_of_ne hk, lookup_others, if_neg hk, if_neg hk]

theorem onLine_take (s : Store) (line k : Int) :
    (s.take line).2.onLine k = if k = line then [] else s.onLine k := by
  unfold take
  split
  · simp only [onLine, onLine?, lookup_others]
    split <;> rfl
  · rename_i hlist
    split
    · rename_i hk
      rw [hk, onLine, hlist]
      rfl
    · rfl

/-- One more rename is sorted in. -/
theorem renames_add (h : s.Sound) (r : Rename) :
    (s.add r).renames = Rename.sortByLine (s.renames ++ [r]) := by
  refine Rename.eq_sortByLine (inLineOrder_renames (h.add r)) fun k => ?_
  rw [onLine_renames (h.add r), Rename.onLine_append, onLine_renames h, onLine_add]
  split
  · rename_i hk
    rw [Rename.onLine_cons_of_eq hk.symm]
    rfl
  · rename_i hk
    rw [Rename.onLine_cons_of_ne (Ne.symm hk)]
    exact (List.append_nil _).symm

theorem take_fst (h : s.Sound) (line : Int) :
    (s.take line).1 = Rename.onLine line s.renames := by
  rw [onLine_renames h, take, onLine]
  split
  · rename_i renames hlist
    rw [hlist]
    rfl
  · rename_i hlist
    rw [hlist]
    rfl

theorem renames_take (h : s.Sound) (line : Int) :
    (s.take line).2.renames = s.renames.filter (·.line != line) := by
  refine Rename.eq_of_onLine (inLineOrder_renames (h.take line))
    ((inLineOrder_renames h).sublist List.filter_sublist) fun k => ?_
  rw [onLine_renames (h.take line), onLine_take, Rename.onLine_filter_ne, onLine_renames h]

end Store

/-! ### Ledgers -/

namespace Ledger

theorem onLine_pending (l : Ledger) (k : Int) : Rename.onLine k l.pending = l.store.onLine k :=
  Store.onLine_renames l.sound k

theorem inLineOrder_pending (l : Ledger) : Rename.InLineOrder l.pending :=
  Store.inLineOrder_renames l.sound

@[simp] theorem pending_start (path : Bytes) (tool : Tool) : (start path tool).pending = [] := rfl

@[simp] theorem push_path (l : Ledger) (r : Rename) : (l.push r).path = l.path := rfl

@[simp] theorem push_tool (l : Ledger) (r : Rename) : (l.push r).tool = l.tool := rfl

@[simp] theorem take_path (l : Ledger) (line : Int) : (l.take line).2.path = l.path := rfl

@[simp] theorem take_tool (l : Ledger) (line : Int) : (l.take line).2.tool = l.tool := rfl

theorem pending_push (l : Ledger) (r : Rename) :
    (l.push r).pending = Rename.sortByLine (l.pending ++ [r]) := Store.renames_add l.sound r

theorem mem_pending_push {l : Ledger} {r x : Rename} :
    x ∈ (l.push r).pending ↔ x = r ∨ x ∈ l.pending := by
  rw [pending_push, (Rename.perm_sortByLine _).mem_iff, List.mem_append, List.mem_singleton,
    or_comm]

theorem take_fst (l : Ledger) (line : Int) : (l.take line).1 = Rename.onLine line l.pending :=
  Store.take_fst l.sound line

theorem pending_take (l : Ledger) (line : Int) :
    (l.take line).2.pending = l.pending.filter (·.line != line) := Store.renames_take l.sound line

/-- Nothing is taken from a line that has no rename. -/
theorem take_of_free {l : Ledger} {line : Int} (h : ∀ x ∈ l.pending, x.line ≠ line) :
    l.take line = ([], l) := by
  have hnone : l.store.onLine? line = none := by
    cases hlist : l.store.onLine? line with
    | none => rfl
    | some renames =>
      have hempty : l.store.onLine line = [] := by
        rw [← onLine_pending, Rename.onLine, List.filter_eq_nil_iff]
        simpa using h
      rw [Store.onLine, hlist] at hempty
      exact absurd hempty (l.sound.filled _ (Store.mem_of_onLine? hlist))
  simp [take, Store.take, hnone]

/-- The count tells how many renames are pending. -/
theorem size_eq (l : Ledger) : l.size = l.pending.length := by
  rw [size, Store.count_eq l.sound]
  rfl

theorem isEmpty_eq (l : Ledger) : l.isEmpty = l.pending.isEmpty := by
  rw [isEmpty, Store.count_eq l.sound]
  cases h : l.store.renames <;> simp [pending, h]
  omega

theorem occupant?_eq_none_iff {l : Ledger} {line : Int} :
    l.occupant? line = none ↔ ∀ x ∈ l.pending, x.line ≠ line := by
  rw [occupant?, ← onLine_pending, List.head?_eq_none_iff, Rename.onLine, List.filter_eq_nil_iff]
  simp

theorem of_occupant? {l : Ledger} {line : Int} {x : Rename} (h : l.occupant? line = some x) :
    x ∈ l.pending ∧ x.line = line := by
  rw [occupant?, ← onLine_pending] at h
  have hx := List.mem_of_head? h
  exact ⟨List.mem_of_mem_filter hx, Rename.line_of_mem_onLine hx⟩

theorem add_eq_ok_iff {l l' : Ledger} {r : Rename} :
    l.add r = .ok l' ↔
      (l.tool = .definitions → ∀ x ∈ l.pending, x.line ≠ r.line) ∧ l' = l.push r := by
  unfold add
  cases htool : l.tool with
  | calls => simp [eq_comm]
  | definitions =>
    cases hfirst : l.occupant? r.line with
    | none =>
      have hfree := occupant?_eq_none_iff.1 hfirst
      simp only [Except.ok.injEq]
      exact ⟨fun h => ⟨fun _ => hfree, h.symm⟩, fun h => h.2.symm⟩
    | some first =>
      obtain ⟨hmem, hline⟩ := of_occupant? hfirst
      simp only [reduceCtorEq, true_imp_iff, false_iff, not_and]
      exact fun hfree => absurd hline (hfree first hmem)

/-- The refusal of a definition names the one that is there, if no line has two. -/
theorem add_of_occupied {l : Ledger} {r x : Rename} (htool : l.tool = .definitions)
    (hsingle : (l.pending.map (·.line)).Nodup) (hx : x ∈ l.pending) (hline : x.line = r.line) :
    l.add r = .error ⟨l.path, r.line, x.name, r.name⟩ := by
  cases hfirst : l.occupant? r.line with
  | none => exact absurd hline (occupant?_eq_none_iff.1 hfirst x hx)
  | some first =>
    obtain ⟨hmem, hsame⟩ := of_occupant? hfirst
    obtain rfl : first = x := List.inj_on_of_nodup_map hsingle hmem hx (hsame.trans hline.symm)
    simp [add, htool, hfirst]

end Ledger

end GetterRename
