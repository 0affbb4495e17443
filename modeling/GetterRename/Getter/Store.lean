import GetterRename.Getter.Rename

/-!
# The store of a file

The renames found in one file and not yet applied.  They stand in one list for each line, in the
order of their discovery; how many they are is counted apart from the lists.

- `Store` : the lists by line and the count;
- `Store.add`, `Store.take` : one more rename, and the renames of a line taken away;
- `Store.renames` : all of them, by line;
- `Store.Sound` : the lists and the count agree.
-/

namespace GetterRename

/-- The pending renames of a file in lists by line, and their number. -/
structure Store where
  byLine : List (Int × List Rename) := []
  count : Int := 0
  deriving DecidableEq, Repr

namespace Store

/-- The list of a line, if it has one. -/
def onLine? (s : Store) (line : Int) : Option (List Rename) := s.byLine.lookup line

/-- The renames of a line. -/
def onLine (s : Store) (line : Int) : List Rename := (s.onLine? line).getD []

/-- The lists of the other lines. -/
def others (s : Store) (line : Int) : List (Int × List Rename) := s.byLine.filter (·.1 != line)

/-- Puts a rename behind those of its line. -/
def add (s : Store) (r : Rename) : Store :=
  ⟨(r.line, s.onLine r.line ++ [r]) :: s.others r.line, s.count + 1⟩

/-- The renames of a line, and the store without them. -/
def take (s : Store) (line : Int) : List Rename × Store :=
  match s.onLine? line with
  | some renames => (renames, ⟨s.others line, s.count - renames.length⟩)
  | none => ([], s)

/-- Puts a line in front of the first one further down. -/
def insertLine (line : Int) : List Int → List Int
  | [] => [line]
  | next :: lines => if line ≤ next then line :: next :: lines else next :: insertLine line lines

/-- The lines that have a list, from the top down. -/
def lines (s : Store) : List Int := (s.byLine.map (·.1)).foldr insertLine []

/-- All renames by line, and within a line in order of discovery. -/
def renames (s : Store) : List Rename := s.lines.flatMap s.onLine

/-! ## Lists and count -/

/-- The number of renames in some lists. -/
def total (lists : List (Int × List Rename)) : Nat := (lists.flatMap (·.2)).length

/-- No line has two lists, no list is empty, each rename is in the list of its line, and all of them
are counted. -/
structure Sound (s : Store) : Prop where
  single : s.byLine.Pairwise fun a b => a.1 ≠ b.1
  filled : ∀ e ∈ s.byLine, e.2 ≠ []
  placed : ∀ e ∈ s.byLine, ∀ r ∈ e.2, r.line = e.1
  counted : s.count = total s.byLine

theorem sound_empty : Sound {} := ⟨.nil, by simp, by simp, rfl⟩

variable {s : Store}

theorem mem_of_onLine? {line : Int} {renames : List Rename} (h : s.onLine? line = some renames) :
    (line, renames) ∈ s.byLine := by
  obtain ⟨before, after, heq, -⟩ := List.lookup_eq_some_iff.1 h
  rw [heq]
  exact List.mem_append_right _ List.mem_cons_self

theorem line_of_mem_onLine (h : s.Sound) {line : Int} {r : Rename} (hr : r ∈ s.onLine line) :
    r.line = line := by
  unfold onLine at hr
  cases hlist : s.onLine? line with
  | none => simp [hlist] at hr
  | some renames =>
    rw [hlist] at hr
    exact h.placed _ (mem_of_onLine? hlist) r hr

@[simp] theorem total_cons (line : Int) (renames : List Rename)
    (lists : List (Int × List Rename)) :
    total ((line, renames) :: lists) = renames.length + total lists := by
  simp [total]

/-- A line is counted with its list, the others with theirs. -/
theorem total_others (h : s.Sound) (line : Int) :
    total (s.others line) + (s.onLine line).length = total s.byLine := by
  obtain ⟨lists, count⟩ := s
  have hsingle := h.single
  clear h
  simp only [others, onLine, onLine?] at hsingle ⊢
  induction lists with
  | nil => rfl
  | cons e lists ih =>
    obtain ⟨k, renames⟩ := e
    obtain ⟨hk, hrest⟩ := List.pairwise_cons.1 hsingle
    by_cases hline : line = k
    · -- no list of the line comes behind
      have hself : lists.filter (·.1 != line) = lists := by
        rw [List.filter_eq_self]
        intro a ha
        simpa [hline] using (hk a ha).symm
      rw [List.filter_cons_of_neg (by simp [hline]), hself, hline, List.lookup_cons_self,
        Option.getD_some, total_cons, Nat.add_comm]
    · have hlookup : ((k, renames) :: lists).lookup line = lists.lookup line := by
        rw [List.lookup_cons, beq_false_of_ne hline]
      rw [List.filter_cons_of_pos (by simpa using Ne.symm hline), hlookup, total_cons, total_cons,
        Nat.add_assoc, ih hrest]

theorem Sound.add (h : s.Sound) (r : Rename) : (s.add r).Sound where
  single := by
    refine List.pairwise_cons.2 ⟨fun e he => ?_, h.single.filter _⟩
    have hline : e.1 ≠ r.line := by simpa using (List.mem_filter.1 he).2
    exact hline.symm
  filled := by
    intro e he
    rcases List.mem_cons.1 he with rfl | he
    · simp
    · exact h.filled e (List.mem_filter.1 he).1
  placed := by
    intro e he x hx
    rcases List.mem_cons.1 he with rfl | he
    · rcases List.mem_append.1 hx with hx | hx
      · exact line_of_mem_onLine h hx
      · rw [List.mem_singleton.1 hx]
    · exact h.placed e (List.mem_filter.1 he).1 x hx
  counted := by
    have htotal := total_others h r.line
    have hcount := h.counted
    simp only [Store.add, total_cons, List.length_append, List.length_singleton]
    omega

theorem Sound.take (h : s.Sound) (line : Int) : (s.take line).2.Sound := by
  unfold Store.take
  split
  · rename_i renames hlist
    have htotal := total_others h line
    have hcount := h.counted
    rw [onLine, hlist, Option.getD_some] at htotal
    exact ⟨h.single.filter _, fun e he => h.filled e (List.mem_filter.1 he).1,
      fun e he => h.placed e (List.mem_filter.1 he).1, by simp only; omega⟩
  · exact h

end Store

end GetterRename
