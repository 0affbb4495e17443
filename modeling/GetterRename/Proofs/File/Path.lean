import GetterRename.File.Path
import GetterRename.Proofs.Text.Split

/-!
# Paths in normal form

The names of a path are gathered on a stack.  What is on the stack is settled: gathered once more it
stays as it is.  So a path in normal form is the text of its names, and names put behind it are
found behind its own.

* `Path.isName` — the names that an entry may have;
* `Path.Clean.IsNormal`, `Path.Clean.ofPath_render` — a normal form is read back from its text;
* `Path.below_join_names`, `Path.ofPath_dir` — the names of a path below another, and above it;
* `Path.relative?_of_below`, `Path.relative?_dir` — where there is a way between paths;
* `Path.ofPath_join` — a way down, put behind another path;
* `Path.length_clean_le` — a normal form is no longer than the path;
* `Path.leads_foldl` — a normal form leads where the path leads.
-/

namespace GetterRename.Path

/-- Whether an entry may have the name. -/
def isName (name : Bytes) : Bool :=
  !name.isEmpty && name != here && name != up && !name.contains (byte '/')

theorem isName_iff {name : Bytes} :
    isName name = true ↔ name ≠ [] ∧ name ≠ here ∧ name ≠ up ∧ byte '/' ∉ name := by
  simp [isName, and_assoc]

theorem slash : Bytes.ofString "/" = [byte '/'] := by decide

namespace Clean

/-! ### The stack of names -/

variable {rooted : Bool} {stack parts : List Bytes} {part name : Bytes}

theorem push_nil (rooted : Bool) (stack : List Bytes) : push rooted stack [] = stack := rfl

theorem push_of_isSkipped (h : (part.isEmpty || part == here) = true) :
    push rooted stack part = stack := by
  unfold push
  rw [if_pos h]

theorem push_up {top : Bytes} (h : top ≠ up) : push rooted (top :: stack) up = stack := by
  simp +decide [push, h]

theorem push_of_isName (h : isName name = true) : push rooted stack name = name :: stack := by
  obtain ⟨hempty, hhere, hup, -⟩ := isName_iff.1 h
  simp [push, hempty, hhere, hup]

/-- What may be on the stack: a name, or the way up. -/
def IsPart (part : Bytes) : Prop := part ≠ [] ∧ part ≠ here ∧ byte '/' ∉ part

/-- Gathering the names of the stack gives the stack. -/
structure IsSettled (rooted : Bool) (stack : List Bytes) : Prop where
  gathered : stack.reverse.foldl (push rooted) [] = stack
  parts : ∀ part ∈ stack, IsPart part

theorem IsSettled.nil (rooted : Bool) : IsSettled rooted [] := ⟨rfl, nofun⟩

theorem IsSettled.tail {top : Bytes} (h : IsSettled rooted (top :: stack)) (hup : top ≠ up) :
    IsSettled rooted stack := by
  obtain ⟨htop, hrest⟩ := List.forall_mem_cons.1 h.parts
  have hname : isName top = true := isName_iff.2 ⟨htop.1, htop.2.1, hup, htop.2.2⟩
  have hgathered := h.gathered
  rw [List.reverse_cons, List.foldl_append, List.foldl_cons, List.foldl_nil,
    push_of_isName hname] at hgathered
  exact ⟨List.tail_eq_of_cons_eq hgathered, hrest⟩

theorem IsSettled.cons (h : IsSettled rooted stack) (hpart : IsPart part)
    (hpush : push rooted stack part = part :: stack) : IsSettled rooted (part :: stack) := by
  refine ⟨?_, List.forall_mem_cons.2 ⟨hpart, h.parts⟩⟩
  rw [List.reverse_cons, List.foldl_append, h.gathered]
  exact hpush

theorem IsSettled.push (h : IsSettled rooted stack) (hpart : byte '/' ∉ part) :
    IsSettled rooted (push rooted stack part) := by
  by_cases hskip : (part.isEmpty || part == here) = true
  · rwa [push_of_isSkipped hskip]
  obtain ⟨hempty, hhere⟩ : part ≠ [] ∧ part ≠ here := by simpa using hskip
  by_cases hup : part = up
  · subst hup
    cases stack with
    | nil =>
      cases rooted with
      | true => exact .nil _
      | false => exact .cons h ⟨hempty, hhere, hpart⟩ rfl
    | cons top rest =>
      by_cases htop : top = up
      · subst htop
        exact .cons h ⟨hempty, hhere, hpart⟩ rfl
      · rw [push_up htop]
        exact h.tail htop
  · have hname : isName part = true := isName_iff.2 ⟨hempty, hhere, hup, hpart⟩
    rw [push_of_isName hname]
    exact .cons h ⟨hempty, hhere, hpart⟩ (push_of_isName hname)

theorem IsSettled.foldl (h : IsSettled rooted stack) (hparts : ∀ part ∈ parts, byte '/' ∉ part) :
    IsSettled rooted (parts.foldl (Clean.push rooted) stack) := by
  induction parts generalizing stack with
  | nil => exact h
  | cons part parts ih =>
    obtain ⟨hpart, hrest⟩ := List.forall_mem_cons.1 hparts
    exact ih (h.push hpart) hrest

theorem mem_of_mem_foldl (h : name ∈ parts.foldl (Clean.push rooted) stack) :
    name ∈ parts ∨ name ∈ stack := by
  induction parts generalizing stack with
  | nil => exact .inr h
  | cons part parts ih =>
    rcases ih h with h | h
    · exact .inl (List.mem_cons_of_mem _ h)
    · rw [List.mem_cons, or_assoc, or_left_comm]
      refine .inr ?_
      unfold Clean.push at h
      grind

/-! ### Normal forms -/

def IsNormal (c : Clean) : Prop := IsSettled c.rooted c.parts.reverse

theorem isNormal_ofPath (path : Bytes) : (ofPath path).IsNormal := by
  unfold IsNormal ofPath
  rw [List.reverse_reverse]
  exact (IsSettled.nil _).foldl fun part h => Bytes.not_mem_of_mem_splitOn h

theorem ofPath_of_splitOn {path : Bytes} {c : Clean} (h : c.IsNormal)
    (hrooted : (path.head? == some (byte '/')) = c.rooted)
    (hsplit : (Bytes.splitOn (byte '/') path).foldl (push c.rooted) [] =
      c.parts.foldl (push c.rooted) []) : ofPath path = c := by
  have hgathered := h.gathered
  rw [List.reverse_reverse] at hgathered
  unfold ofPath
  simp only [hrooted, hsplit, hgathered, List.reverse_reverse]

/-- **A normal form** is read back from its text. -/
theorem ofPath_render {c : Clean} (h : c.IsNormal) : ofPath c.render = c := by
  have hparts : ∀ part ∈ c.parts, IsPart part := fun part hpart =>
    h.parts part (List.mem_reverse.2 hpart)
  have hslash : ∀ part ∈ c.parts, byte '/' ∉ part := fun part hpart => (hparts part hpart).2.2
  unfold render
  rw [slash]
  by_cases hrooted : c.rooted = true
  · rw [if_pos hrooted]
    refine ofPath_of_splitOn h (by simp [hrooted]) ?_
    rw [Bytes.splitOn, if_pos rfl, List.foldl_cons, push_nil]
    by_cases hempty : c.parts = []
    · simp [hempty, Bytes.join, Bytes.splitOn, push_nil]
    · rw [Bytes.splitOn_join hempty hslash]
  rw [if_neg hrooted, Bool.not_eq_true] at *
  cases hcases : c.parts with
  | nil =>
    rw [List.isEmpty_nil, if_pos rfl]
    refine ofPath_of_splitOn h (by simp +decide [hrooted]) ?_
    rw [hcases]
    rfl
  | cons part parts =>
    have hpart := hparts part (hcases ▸ List.mem_cons_self)
    rw [List.isEmpty_cons, if_neg (by simp), ← hcases]
    refine ofPath_of_splitOn h ?_ ?_
    · obtain ⟨b, rest, rfl⟩ := List.exists_cons_of_ne_nil hpart.1
      have hb : b ≠ byte '/' := fun hb => hpart.2.2 (hb ▸ List.mem_cons_self)
      rw [hcases, Bytes.head?_join _ _ hpart.1]
      simp [hrooted, hb]
    · rw [Bytes.splitOn_join (by simp [hcases]) hslash]

theorem render_ne_nil (c : Clean) (h : ∀ part ∈ c.parts, IsPart part) : c.render ≠ [] := by
  unfold render
  cases hcases : c.parts with
  | nil => cases c.rooted <;> simp +decide
  | cons part parts =>
    have hpart := (h part (hcases ▸ List.mem_cons_self)).1
    cases c.rooted with
    | true => simp
    | false =>
      rw [List.isEmpty_cons, if_neg (by simp), if_neg (by simp)]
      cases parts <;> simp [Bytes.join, hpart]

end Clean

open Clean (IsNormal ofPath ofPath_render isNormal_ofPath push)

theorem ofPath_clean (path : Bytes) : ofPath (clean path) = ofPath path :=
  ofPath_render (isNormal_ofPath path)

/-- A path whose names are known in normal form is determined by them. -/
theorem clean_eq {path : Bytes} {c : Clean} (h : ofPath path = c) : clean path = c.render := by
  rw [clean, h]

theorem clean_clean (path : Bytes) : clean (clean path) = clean path :=
  clean_eq (ofPath_clean path)

/-! ### Below a path -/

/-- The path `below` is in normal form and has further names behind those of `path`. -/
structure Below (path below : Bytes) (names : List Bytes) : Prop where
  clean : clean below = below
  each : ∀ name ∈ names, isName name = true
  names : ofPath below = ⟨(ofPath path).rooted, (ofPath path).parts ++ names⟩

theorem Below.trans {path below further : Bytes} {names more : List Bytes}
    (h : Below path below names) (h' : Below below further more) :
    Below path further (names ++ more) :=
  ⟨h'.clean, List.forall_mem_append.2 ⟨h.each, h'.each⟩,
    by rw [h'.names, h.names, List.append_assoc]⟩

theorem Below.unique {path below below' : Bytes} {names : List Bytes} (h : Below path below names)
    (h' : Below path below' names) : below = below' := by
  rw [← h.clean, ← h'.clean, Path.clean, Path.clean, h.names, h'.names]

theorem join_two {path name : Bytes} (hpath : path ≠ []) (hname : name ≠ []) :
    join [path, name] = clean (path ++ byte '/' :: name) := by
  obtain ⟨a, as, rfl⟩ := List.exists_cons_of_ne_nil hpath
  obtain ⟨b, bs, rfl⟩ := List.exists_cons_of_ne_nil hname
  simp [join, Bytes.join, slash]

theorem Clean.foldl_names {rooted : Bool} {stack names : List Bytes}
    (h : ∀ name ∈ names, isName name = true) :
    names.foldl (push rooted) stack = names.reverse ++ stack := by
  induction names generalizing stack with
  | nil => rfl
  | cons name names ih =>
    obtain ⟨hname, hrest⟩ := List.forall_mem_cons.1 h
    rw [List.foldl_cons, push_of_isName hname, ih hrest, List.reverse_cons, List.append_assoc]
    rfl

/-- A path and names behind it, joined, make a path below. -/
theorem below_join_names {path : Bytes} {names : List Bytes} (hpath : path ≠ []) (hne : names ≠ [])
    (hnames : ∀ name ∈ names, isName name = true) : Below path (join (path :: names)) names := by
  have hfilter : (path :: names).filter (!·.isEmpty) = path :: names := by
    rw [List.filter_eq_self]
    intro part hpart
    rcases List.mem_cons.1 hpart with rfl | hpart
    · simpa using hpath
    · simpa using (isName_iff.1 (hnames part hpart)).1
  have hhead : (path ++ byte '/' :: Bytes.join [byte '/'] names).head? = path.head? := by
    cases path with
    | nil => exact absurd rfl hpath
    | cons b rest => rfl
  have hjoin : join (path :: names) = clean (path ++ byte '/' :: Bytes.join [byte '/'] names) := by
    simp only [join, hfilter, slash, Bytes.join_cons _ _ hne, List.isEmpty_cons, List.append_assoc,
      List.singleton_append, Bool.false_eq_true, if_false]
  have hslash : ∀ name ∈ names, byte '/' ∉ name := fun name h =>
    (isName_iff.1 (hnames name h)).2.2.2
  rw [hjoin]
  refine ⟨clean_clean _, hnames, ?_⟩
  rw [ofPath_clean]
  simp only [ofPath, hhead, Bytes.splitOn_append, Bytes.splitOn_join hne hslash, List.foldl_append,
    Clean.foldl_names hnames, List.reverse_append, List.reverse_reverse]

/-- **An entry** is below its directory. -/
theorem below_join {path name : Bytes} (hpath : path ≠ []) (hname : isName name = true) :
    Below path (join [path, name]) [name] :=
  below_join_names hpath (List.cons_ne_nil _ _) (by simpa using hname)

theorem Below.ne_nil {path below : Bytes} {names : List Bytes} (h : Below path below names) :
    below ≠ [] := by
  rw [← h.clean]
  refine Clean.render_ne_nil _ fun part hpart => ?_
  exact (isNormal_ofPath below).parts part (List.mem_reverse.2 hpart)

theorem dropCommon_append (xs ys : List Bytes) : dropCommon xs (xs ++ ys) = ([], ys) := by
  induction xs with
  | nil => cases ys <;> rfl
  | cons x xs ih => simp [dropCommon, ih]

theorem dropCommon_append_left (xs ys : List Bytes) : dropCommon (xs ++ ys) xs = (ys, []) := by
  induction xs with
  | nil => cases ys <;> rfl
  | cons x xs ih => simp [dropCommon, ih]

theorem relative?_eq {path below : Bytes} {names : List Bytes}
    (h : ofPath below = ⟨(ofPath path).rooted, (ofPath path).parts ++ names⟩) :
    relative? path below = some (Clean.render ⟨false, names⟩) := by
  simp [relative?, h, dropCommon_append]

/-- There is a way down to a path below. -/
theorem relative?_of_below {path below : Bytes} {names : List Bytes} (h : Below path below names) :
    (relative? path below).isSome = true := by
  rw [relative?_eq h.names]
  rfl

/-- **The names of a way down** stand behind those of any path that it is put behind. -/
theorem ofPath_join {path : Bytes} {names : List Bytes} (hpath : path ≠ [])
    (hnames : ∀ name ∈ names, isName name = true) :
    ofPath (join [path, Clean.render ⟨false, names⟩]) =
      ⟨(ofPath path).rooted, (ofPath path).parts ++ names⟩ := by
  have hparts : ∀ name ∈ names, Clean.IsPart name := fun name h => by
    obtain ⟨hempty, hhere, -, hslash⟩ := isName_iff.1 (hnames name h)
    exact ⟨hempty, hhere, hslash⟩
  have hsplit : ∀ rooted stack, (Bytes.splitOn (byte '/') (Clean.render ⟨false, names⟩)).foldl
      (push rooted) stack = names.reverse ++ stack := by
    intro rooted stack
    cases names with
    | nil => rfl
    | cons name rest =>
      have hrender : Clean.render ⟨false, name :: rest⟩ = Bytes.join [byte '/'] (name :: rest) := by
        rw [← slash]
        rfl
      rw [hrender, Bytes.splitOn_join (List.cons_ne_nil _ _) fun part h => (hparts part h).2.2,
        Clean.foldl_names hnames]
  have hhead : ∀ rel, (path ++ byte '/' :: rel).head? = path.head? := by
    intro rel
    cases path with
    | nil => exact absurd rfl hpath
    | cons b rest => rfl
  rw [join_two hpath (Clean.render_ne_nil _ hparts), ofPath_clean]
  simp only [ofPath, hhead, Bytes.splitOn_append, List.foldl_append, hsplit, List.reverse_append,
    List.reverse_reverse]

/-! ### Above a path -/

/-- The names of a path but for what stands behind its last slash. -/
def Clean.above (path : Bytes) : Clean :=
  let rooted := path.head? == some (byte '/')
  ⟨rooted, ((Bytes.splitOn (byte '/') path).dropLast.foldl (push rooted) []).reverse⟩

theorem dropEndWhile_slash {text last : Bytes} {parts : List Bytes}
    (htext : text = parts.flatMap (· ++ [byte '/']) ++ last) (hlast : byte '/' ∉ last) :
    Bytes.dropEndWhile (· != byte '/') text = parts.flatMap (· ++ [byte '/']) := by
  have hall : ∀ b ∈ last.reverse, (b != byte '/') = true := by
    intro b hb
    rw [bne_iff_ne]
    rintro rfl
    exact hlast (List.mem_reverse.1 hb)
  rw [Bytes.dropEndWhile, htext, List.reverse_append, List.dropWhile_append_of_pos hall]
  rcases List.eq_nil_or_concat parts with rfl | ⟨init, part, rfl⟩
  · rfl
  · simp

/-- **The directory of a path.** -/
theorem ofPath_dir (path : Bytes) : ofPath (dir path) = Clean.above path := by
  obtain ⟨parts, last, hsplit, htext, hsep⟩ := Bytes.splitOn_spec (byte '/') path
  have hparts : ∀ part ∈ parts, byte '/' ∉ part := fun part h =>
    hsep part (List.mem_append_left _ h)
  have hlast : byte '/' ∉ last := hsep last (by simp)
  have hhead : (parts.flatMap (· ++ [byte '/'])).head? = some (byte '/') ↔
      path.head? = some (byte '/') := by
    rw [htext]
    cases parts with
    | nil =>
      cases last with
      | nil => simp
      | cons b rest =>
        have hb : b ≠ byte '/' := fun hb => hlast (hb ▸ List.mem_cons_self)
        simp [hb]
    | cons part parts => cases part <;> simp
  have hrooted : ((parts.flatMap (· ++ [byte '/'])).head? == some (byte '/')) =
      (path.head? == some (byte '/')) := by
    rw [Bool.eq_iff_iff, beq_iff_eq, beq_iff_eq]
    exact hhead
  rw [dir, ofPath_clean, dropEndWhile_slash htext hlast]
  simp only [ofPath, Clean.above, hrooted, Bytes.splitOn_flatMap hparts, hsplit,
    List.dropLast_concat, List.foldl_append, List.foldl_cons, List.foldl_nil, Clean.push_nil]

/-- A part changes the top of the stack at most, and takes away no way up. -/
theorem Clean.push_cases (rooted : Bool) (stack : List Bytes) (part : Bytes) :
    (∃ more, push rooted stack part = more ++ stack) ∨
      ∃ top, top ≠ up ∧ stack = top :: push rooted stack part := by
  unfold push
  split
  · exact .inl ⟨[], rfl⟩
  split
  · cases stack with
    | nil => exact .inl ⟨if rooted then [] else [up], by simp⟩
    | cons top rest =>
      by_cases htop : top = up
      · exact .inl ⟨[up], by simp [htop]⟩
      · exact .inr ⟨top, htop, by simp [htop]⟩
  · exact .inl ⟨[part], rfl⟩

/-- There is a way from the directory of a path to the path. -/
theorem relative?_dir (path : Bytes) : (relative? (dir path) path).isSome = true := by
  obtain ⟨parts, last, hsplit, -, -⟩ := Bytes.splitOn_spec (byte '/') path
  let rooted := path.head? == some (byte '/')
  let stack := parts.foldl (push rooted) []
  have habove : ofPath (dir path) = ⟨rooted, stack.reverse⟩ := by
    rw [ofPath_dir, Clean.above, hsplit, List.dropLast_concat]
  have hpath : ofPath path = ⟨rooted, (push rooted stack last).reverse⟩ := by
    rw [ofPath, hsplit, List.foldl_append, List.foldl_cons, List.foldl_nil]
  unfold relative?
  rw [habove, hpath]
  rcases Clean.push_cases rooted stack last with ⟨more, hpush⟩ | ⟨top, htop, hstack⟩
  · simp [hpush, dropCommon_append]
  · have hreverse : stack.reverse = (push rooted stack last).reverse ++ [top] := by
      rw [← List.reverse_cons, ← hstack]
    simp [hreverse, dropCommon_append_left, htop]

/-! ### Lengths -/

theorem weight_push_le (rooted : Bool) (stack : List Bytes) (part : Bytes) :
    Bytes.weight (push rooted stack part) ≤ Bytes.weight stack + (part.length + 1) := by
  unfold push
  split
  · omega
  split
  · rename_i hup
    have hup' : up.length = 2 := rfl
    have hlength : part.length = 2 := by rw [beq_iff_eq.1 hup, hup']
    cases stack with
    | nil => cases rooted <;> simp [hlength, hup']
    | cons top rest =>
      simp only
      split <;> simp only [Bytes.weight_cons, hup', hlength] <;> omega
  · rw [Bytes.weight_cons]
    omega

theorem weight_foldl_le (rooted : Bool) (stack parts : List Bytes) :
    Bytes.weight (parts.foldl (push rooted) stack) ≤ Bytes.weight stack + Bytes.weight parts := by
  induction parts generalizing stack with
  | nil => simp
  | cons part parts ih =>
    have hpush := weight_push_le rooted stack part
    have hrest := ih (push rooted stack part)
    rw [List.foldl_cons, Bytes.weight_cons]
    omega

/-- The names of a path are no longer than the path. Nothing stands in front of its first slash. -/
theorem weight_ofPath_le (path : Bytes) :
    Bytes.weight (ofPath path).parts + (if (ofPath path).rooted then 1 else 0) ≤
      path.length + 1 := by
  have hweight := Bytes.weight_splitOn (byte '/') path
  unfold ofPath
  cases hrooted : path.head? == some (byte '/') with
  | false =>
    have hparts := weight_foldl_le false [] (Bytes.splitOn (byte '/') path)
    rw [Bytes.weight_nil] at hparts
    simp only [Bytes.weight_reverse, Bool.false_eq_true, if_false]
    omega
  | true =>
    obtain ⟨rest, rfl⟩ : ∃ rest, path = byte '/' :: rest := by
      cases path with
      | nil => simp at hrooted
      | cons b rest => exact ⟨rest, by simpa using hrooted⟩
    have hparts := weight_foldl_le true [] (Bytes.splitOn (byte '/') rest)
    rw [Bytes.weight_nil] at hparts
    rw [Bytes.splitOn, if_pos rfl, Bytes.weight_cons, List.length_nil] at hweight
    simp only [Bytes.splitOn, if_true, List.foldl_cons, Clean.push_nil, Bytes.weight_reverse]
    omega

theorem length_clean_le {path : Bytes} (h : path ≠ []) : (clean path).length ≤ path.length := by
  have hweight := weight_ofPath_le path
  have hpos : 0 < path.length := List.length_pos_iff.2 h
  have hjoin : ∀ names, names ≠ [] → (Bytes.join "/" names).length + 1 = Bytes.weight names := by
    intro names hne
    rw [slash]
    exact Bytes.length_join (byte '/') hne
  unfold clean Clean.render
  by_cases hnames : (ofPath path).parts = []
  · have hhere : here.length = 1 := rfl
    cases hrooted : (ofPath path).rooted <;> simp [hnames, Bytes.join, hhere] <;> omega
  · have hlength := hjoin _ hnames
    cases hrooted : (ofPath path).rooted with
    | true =>
      simp only [hrooted, if_true, List.length_cons] at hweight ⊢
      omega
    | false =>
      simp only [hrooted, Bool.false_eq_true, if_false, List.isEmpty_iff, hnames] at hweight ⊢
      omega

/-- The normal form of a path holds no other bytes than the path, but for slashes and dots. -/
theorem mem_of_mem_clean {path : Bytes} {b : UInt8} (h : b ∈ clean path) :
    b ∈ path ∨ b = byte '/' ∨ b = byte '.' := by
  have hparts : ∀ name ∈ (ofPath path).parts, b ∈ name → b ∈ path ∨ b = byte '/' ∨ b = byte '.' := by
    intro name hname hb
    rcases Clean.mem_of_mem_foldl (List.mem_reverse.1 hname) with hname | hname
    · exact .inl (Bytes.mem_of_mem_splitOn hname hb)
    · simp at hname
  have hjoin : b ∈ Bytes.join "/" (ofPath path).parts → b ∈ path ∨ b = byte '/' ∨ b = byte '.' := by
    rw [slash]
    intro hb
    rcases Bytes.mem_join hb with hb | ⟨name, hname, hb⟩
    · exact .inr (.inl (List.mem_singleton.1 hb))
    · exact hparts name hname hb
  unfold clean Clean.render at h
  split at h
  · rcases List.mem_cons.1 h with rfl | h
    · exact .inr (.inl rfl)
    · exact hjoin h
  split at h
  · exact .inr (.inr (List.mem_singleton.1 h))
  · exact hjoin h

/-! ### Paths that are followed -/

section Follow

variable {ε : Type} {follow : List Bytes → Bytes → Except ε (List Bytes)}
  {start mid stack gathered parts : List Bytes} {rooted : Bool} {part : Bytes}

theorem step_of_isSkipped (h : (part.isEmpty || part == here) = true) : step stack part = stack :=
  if_pos h

theorem step_up : step stack up = stack.tail := rfl

theorem step_of_not_isSkipped (h : (part.isEmpty || part == here) = false) (hup : part ≠ up) :
    step stack part = part :: stack := by
  simp [step, h, hup]

theorem foldl_step_names {names : List Bytes} (h : ∀ name ∈ names, isName name = true) :
    names.foldl step stack = names.reverse ++ stack := by
  induction names generalizing stack with
  | nil => rfl
  | cons name names ih =>
    obtain ⟨hname, hrest⟩ := List.forall_mem_cons.1 h
    obtain ⟨hempty, hhere, hup, -⟩ := isName_iff.1 hname
    rw [List.foldl_cons, step_of_not_isSkipped (by simp [hempty, hhere]) hup, ih hrest]
    simp

theorem foldlM_append_eq_ok {more : List Bytes} :
    (parts ++ more).foldlM follow start = .ok stack ↔
      ∃ mid, parts.foldlM follow start = .ok mid ∧ more.foldlM follow mid = .ok stack := by
  rw [List.foldlM_append]
  cases parts.foldlM follow start with
  | error e => exact ⟨nofun, nofun⟩
  | ok mid => exact ⟨fun h => ⟨mid, rfl, h⟩, fun ⟨_, hmid, h⟩ => Except.ok.inj hmid ▸ h⟩

theorem foldlM_singleton : [part].foldlM follow start = follow start part := by
  rw [List.foldlM_cons]
  cases follow start part <;> rfl

/-- The way from `start` takes the steps of the parts gathered, and takes all of them. -/
structure Leads (follow : List Bytes → Bytes → Except ε (List Bytes))
    (start gathered stack : List Bytes) : Prop where
  way : gathered.reverse.foldlM follow start = .ok stack
  each : ∀ part ∈ gathered, (part.isEmpty || part == here) = false

theorem Leads.cons (h : Leads follow start gathered mid) (hlast : follow mid part = .ok stack)
    (hpart : (part.isEmpty || part == here) = false) :
    Leads follow start (part :: gathered) stack where
  way := by
    rw [List.reverse_cons]
    exact foldlM_append_eq_ok.2 ⟨mid, h.way, foldlM_singleton.trans hlast⟩
  each := List.forall_mem_cons.2 ⟨hpart, h.each⟩

theorem Leads.push (hfollow : ∀ s p s', follow s p = .ok s' → s' = step s p)
    (hstart : rooted = true → start = []) (h : Leads follow start gathered mid)
    (hlast : follow mid part = .ok stack) :
    Leads follow start (push rooted gathered part) stack := by
  obtain rfl := hfollow _ _ _ hlast
  cases hskip : part.isEmpty || part == here with
  | true => rwa [Clean.push_of_isSkipped hskip, step_of_isSkipped hskip]
  | false =>
    by_cases hup : part = up
    · subst hup
      cases gathered with
      | nil =>
        cases rooted with
        | true =>
          obtain rfl := hstart rfl
          obtain rfl : [] = mid := Except.ok.inj h.way
          exact h
        | false => exact h.cons hlast hskip
      | cons top rest =>
        by_cases htop : top = up
        · subst htop
          exact h.cons hlast hskip
        · obtain ⟨hpart, heach⟩ := List.forall_mem_cons.1 h.each
          have hway := h.way
          rw [List.reverse_cons, foldlM_append_eq_ok] at hway
          obtain ⟨below, hbelow, hname⟩ := hway
          rw [foldlM_singleton] at hname
          rw [Clean.push_up htop, hfollow _ _ _ hname, step_of_not_isSkipped hpart htop, step_up]
          exact ⟨hbelow, heach⟩
    · have hpush : Clean.push rooted gathered part = part :: gathered := by
        unfold Clean.push
        rw [hskip, if_neg (by simp), if_neg (by simpa using hup)]
      rw [hpush]
      exact h.cons hlast hskip

/-- **The normal form of a path** leads where the path leads, whatever is refused on the way. -/
theorem leads_foldl (hfollow : ∀ s p s', follow s p = .ok s' → s' = step s p)
    (hstart : rooted = true → start = []) (h : Leads follow start gathered mid)
    (hparts : parts.foldlM follow mid = .ok stack) :
    Leads follow start (parts.foldl (push rooted) gathered) stack := by
  induction parts generalizing gathered mid with
  | nil =>
    obtain rfl : mid = stack := Except.ok.inj hparts
    exact h
  | cons part parts ih =>
    rw [← List.singleton_append, foldlM_append_eq_ok] at hparts
    obtain ⟨next, hnext, hrest⟩ := hparts
    exact ih (h.push hfollow hstart (foldlM_singleton.symm.trans hnext)) hrest

theorem foldlM_ok (parts start : List Bytes) :
    parts.foldlM (fun s p => .ok (step s p)) start = (.ok (parts.foldl step start) : Except ε _) := by
  induction parts generalizing start with
  | nil => rfl
  | cons part parts ih =>
    rw [List.foldlM_cons]
    exact ih _

/-- A path and its normal form lead to the same place. -/
theorem foldl_step_gathered (hstart : rooted = true → start = []) :
    (parts.foldl (push rooted) []).reverse.foldl step start = parts.foldl step start := by
  have hleads : Leads (ε := Unit) (fun s p => .ok (step s p)) start [] start := ⟨rfl, nofun⟩
  have hway := (leads_foldl (fun _ _ _ h => (Except.ok.inj h).symm) hstart hleads
    (foldlM_ok parts start)).way
  rw [foldlM_ok] at hway
  exact Except.ok.inj hway

end Follow

end GetterRename.Path
