import GetterRename.Proofs.File.Path
import GetterRename.Run.Failure

/-!
# What stands where in a file tree

A tree is looked at through its nodes: at a list of names stands nothing, or an entry without what is
below it.  A path is followed by kinds and access alone, so a tree in which files have other contents
has the same paths.  Where a path leads, its directory is there; so a file that is there can be
replaced if the user may write it, and then its node is the only one that changes.

* `FileTree.node?` — what stands at a list of names;
* `FileTree.node?_put` — an entry is put into a directory;
* `FileTree.Alike` — trees with the same entries, but for the contents of files;
* `FileTree.locate_clean`, `FileTree.locate_above` — where a path leads, its normal form leads, and
  so does its directory;
* `FileTree.save_file` — a file that is there is replaced, or cannot be written.
-/

namespace GetterRename

open GetterRename.Path (isName Below)
open GetterRename.Path.Clean (ofPath)

theorem Entries.get?_insert (name other : Bytes) (entry : Entry) :
    ∀ entries : Entries, (entries.insert name entry).get? other =
      if other = name then some entry else entries.get? other
  | .nil => by simp [insert, get?, eq_comm]
  | .cons n e rest => by
    have ih := get?_insert name other entry rest
    unfold insert
    split
    · rename_i hn
      subst hn
      simp only [get?, eq_comm]
      split <;> simp_all
    split
    · simp only [get?, eq_comm]
    · rename_i hn _
      simp only [get?, ih]
      by_cases hother : n = other
      · subst hother
        simp [hn]
      · simp [hother]

/-! ### Entries -/

namespace Entry

variable {e new parent : Entry} {names above : List Bytes} {last : Bytes}

theorem isDir_iff : e.isDir = true ↔ ∃ access entries, e = dir access entries := by
  cases e <;> simp [isDir, info]

/-- Only a directory has something below it. -/
theorem exists_of_get?_cons {name : Bytes} (h : parent.get? (name :: names) = some e) :
    ∃ access entries below, parent = dir access entries ∧ entries.get? name = some below ∧
      below.get? names = some e := by
  cases parent with
  | dir access entries =>
    obtain ⟨below, hbelow, hrest⟩ := Option.bind_eq_some_iff.1 h
    exact ⟨access, entries, below, rfl, hbelow, hrest⟩
  | file access content => cases h
  | socket access => cases h

theorem get?_append (xs ys : List Bytes) (e : Entry) :
    e.get? (xs ++ ys) = (e.get? xs).bind (get? ys) := by
  induction xs generalizing e with
  | nil => rfl
  | cons x xs ih =>
    cases e with
    | dir access entries =>
      simp only [List.cons_append, get?]
      cases entries.get? x with
      | none => rfl
      | some e => exact ih e
    | file access content => rfl
    | socket access => rfl

def bare : Entry → Entry
  | dir access _ => dir access .nil
  | e => e

@[simp] theorem info_bare (e : Entry) : e.bare.info = e.info := by cases e <;> rfl

theorem bare_eq_file {access : Access} {content : Bytes} :
    e.bare = file access content ↔ e = file access content := by
  cases e <;> simp [bare]

/-- **An entry with nothing below it** is put into a directory, where no directory stands. -/
theorem bare_get?_put (hleaf : ∀ x xs, new.get? (x :: xs) = none)
    (habove : e.get? above = some parent) (hparent : parent.isDir = true)
    (hplace : ∀ old, e.get? (above ++ [last]) = some old → old.isDir = false)
    (others : List Bytes) :
    ((put new (above ++ [last]) e).get? others).map bare =
      if others = above ++ [last] then some new.bare else (e.get? others).map bare := by
  induction above generalizing e others with
  | nil =>
    obtain rfl : e = parent := Option.some.inj habove
    obtain ⟨access, entries, rfl⟩ := isDir_iff.1 hparent
    cases others with
    | nil => rfl
    | cons other others =>
      simp only [List.nil_append, put, get?, Entries.get?_insert] at hplace ⊢
      by_cases hother : other = last
      · subst hother
        cases others with
        | nil => simp [get?]
        | cons x xs =>
          -- below what is no directory there is nothing, before as well as now
          have hnone : (entries.get? other).bind (get? (x :: xs)) = none := by
            cases hold : entries.get? other with
            | none => rfl
            | some old =>
              have hfile := hplace old (by simp [hold])
              cases old with
              | dir access entries => simp [isDir, info] at hfile
              | file access content => rfl
              | socket access => rfl
          simp [hleaf, hnone]
      · simp [hother]
  | cons name above ih =>
    obtain ⟨access, entries, sub, rfl, hsub, hrest⟩ := exists_of_get?_cons habove
    cases others with
    | nil => rfl
    | cons other others =>
      have hinner := ih hrest (fun old hold => hplace old (by simp [get?, hsub, hold])) others
      by_cases hother : other = name
      · subst hother
        simp only [List.cons_append, put, hsub, Option.getD_some, get?, Entries.get?_insert,
          if_true, Option.bind_some, hinner, List.cons.injEq, true_and]
      · simp [put, hsub, get?, Entries.get?_insert, hother]

end Entry

namespace FileTree

variable {t t' : FileTree} {names above : List Bytes} {last path : Bytes}

/-! ### Nodes -/

/-- What stands at a list of names, without what is below it. -/
def node? (t : FileTree) (names : List Bytes) : Option Entry := (t.root.get? names).map Entry.bare

def IsDirAt (t : FileTree) (names : List Bytes) : Prop :=
  ∃ e, t.root.get? names = some e ∧ e.isDir = true

theorem info?_eq (t : FileTree) (names : List Bytes) :
    t.info? names = (t.node? names).map Entry.info := by
  simp [info?, node?, Function.comp_def]

theorem node?_eq_file {access : Access} {content : Bytes} :
    t.node? names = some (.file access content) ↔
      t.root.get? names = some (.file access content) := by
  simp [node?, Entry.bare_eq_file]

theorem isDirAt_iff : t.IsDirAt names ↔ ∃ access, t.info? names = some ⟨.dir, access⟩ := by
  unfold IsDirAt info?
  cases t.root.get? names with
  | none => simp
  | some e => cases e <;> simp [Entry.isDir, Entry.info]

/-- What has something below it is a directory. -/
theorem isDirAt_of_append {x : Bytes} {xs : List Bytes}
    (h : (t.root.get? (names ++ x :: xs)).isSome = true) : t.IsDirAt names := by
  rw [Entry.get?_append] at h
  cases hget : t.root.get? names with
  | none => simp [hget] at h
  | some e =>
    refine ⟨e, hget, ?_⟩
    rw [hget] at h
    obtain ⟨below, hbelow⟩ := Option.isSome_iff_exists.1 h
    obtain ⟨access, entries, -, rfl, -⟩ := Entry.exists_of_get?_cons hbelow
    rfl

theorem IsDirAt.init (h : t.IsDirAt (names ++ [last])) : t.IsDirAt names := by
  obtain ⟨e, he, -⟩ := h
  exact isDirAt_of_append (by rw [he]; rfl)

/-- **An entry with nothing below it** is put into a directory, and nothing else changes. -/
theorem node?_put {new : Entry} (hleaf : ∀ x xs, new.get? (x :: xs) = none)
    (habove : t.IsDirAt above) (hplace : ¬ t.IsDirAt (above ++ [last])) (others : List Bytes) :
    (t.put (above ++ [last]) new).node? others =
      if others = above ++ [last] then some new.bare else t.node? others := by
  obtain ⟨parent, hparent, hdir⟩ := habove
  refine Entry.bare_get?_put hleaf hparent hdir (fun old hold => ?_) others
  rw [← Bool.not_eq_true]
  exact fun hisDir => hplace ⟨old, hold, hisDir⟩

/-! ### Paths -/

theorem step_eq_ok {stack stack' : List Bytes} {part : Bytes} :
    t.step stack part = .ok stack' ↔ ∃ access, t.info? stack.reverse = some ⟨.dir, access⟩ ∧
      (part ≠ [] → access.search = true) ∧ part.length ≤ longestName ∧
        stack' = Path.step stack part := by
  unfold step
  cases t.info? stack.reverse with
  | none => simp
  | some info =>
    obtain ⟨kind, access⟩ := info
    cases kind with
    | dir =>
      simp only [Option.some.injEq, Entry.Info.mk.injEq, true_and, exists_eq_left']
      split
      · rename_i hno
        simp only [Bool.and_eq_true, Bool.not_eq_true', List.isEmpty_eq_false_iff] at hno
        simp [hno.1, hno.2]
      · rename_i hsearch
        have hsearch : part ≠ [] → access.search = true := by simpa using hsearch
        split
        · simp only [reduceCtorEq, false_iff]
          omega
        · rw [Except.ok.injEq]
          exact ⟨fun h => ⟨hsearch, by omega, h.symm⟩, fun h => h.2.2.symm⟩
    | file => simp
    | socket => simp

theorem eq_of_step {stack stack' : List Bytes} {part : Bytes} (h : t.step stack part = .ok stack') :
    stack' = Path.step stack part := by
  obtain ⟨-, -, -, -, heq⟩ := step_eq_ok.1 h
  exact heq

theorem isDirAt_of_step {stack stack' : List Bytes} {part : Bytes}
    (h : t.step stack part = .ok stack') : t.IsDirAt stack.reverse := by
  obtain ⟨access, hinfo, -⟩ := step_eq_ok.1 h
  exact isDirAt_iff.2 ⟨access, hinfo⟩

theorem step_nil {stack : List Bytes} (h : t.IsDirAt stack.reverse) :
    t.step stack [] = .ok stack := by
  obtain ⟨access, hinfo⟩ := isDirAt_iff.1 h
  exact step_eq_ok.2 ⟨access, hinfo, by simp, Nat.zero_le _, rfl⟩

theorem locate_eq_ok : t.locate path = .ok names ↔
    path ≠ [] ∧ 0 ∉ path ∧ path.length ≤ longestPath ∧
      (Bytes.splitOn (byte '/') path).foldlM t.step (t.start path) = .ok names.reverse := by
  unfold locate
  by_cases hzero : 0 ∈ path
  · simp [hzero]
  by_cases hlength : longestPath < path.length
  · simp [hzero, hlength, Nat.not_le.2 hlength]
  by_cases hempty : path = []
  · simp [hempty]
  · rw [if_neg (by simpa using hzero), if_neg hlength, if_neg (by simpa using hempty)]
    cases (Bytes.splitOn (byte '/') path).foldlM t.step (t.start path) with
    | error cause => simp [Except.map]
    | ok stack =>
      simp only [Except.map, Except.ok.injEq, hzero, not_false_eq_true, ne_eq, hempty,
        Nat.not_lt.1 hlength, true_and]
      exact ⟨fun h => by rw [← h, List.reverse_reverse], fun h => by rw [h, List.reverse_reverse]⟩

theorem start_of_rooted (h : (ofPath path).rooted = true) : t.start path = [] := if_pos h

theorem start_congr {other : Bytes} (h : (ofPath other).rooted = (ofPath path).rooted) :
    t.start other = t.start path := by
  have hhead : (other.head? == some (byte '/')) = (path.head? == some (byte '/')) := h
  simp [start, hhead]

theorem foldl_of_foldlM {parts start stack : List Bytes}
    (h : parts.foldlM t.step start = .ok stack) : stack = parts.foldl Path.step start := by
  induction parts generalizing start with
  | nil => exact (Except.ok.inj h).symm
  | cons part parts ih =>
    rw [← List.singleton_append, Path.foldlM_append_eq_ok] at h
    obtain ⟨mid, hmid, hrest⟩ := h
    rw [Path.foldlM_singleton] at hmid
    rw [List.foldl_cons, ← eq_of_step hmid]
    exact ih hrest

/-- A path leads to its own place. -/
theorem eq_place_of_locate (h : t.locate path = .ok names) : names = t.place path := by
  obtain ⟨-, -, -, hway⟩ := locate_eq_ok.1 h
  rw [place, ← foldl_of_foldlM hway, List.reverse_reverse]

theorem place_eq (t : FileTree) (path : Bytes) :
    t.place path = ((ofPath path).parts.foldl Path.step (t.start path)).reverse := by
  have hstart : (ofPath path).rooted = true → t.start path = [] := start_of_rooted
  exact congrArg List.reverse (Path.foldl_step_gathered hstart).symm

/-- **Names behind a path** stand behind its place. -/
theorem place_below {other : Bytes} (hnames : ∀ name ∈ names, isName name = true)
    (h : ofPath other = ⟨(ofPath path).rooted, (ofPath path).parts ++ names⟩) :
    t.place other = t.place path ++ names := by
  have hstart : t.start other = t.start path := start_congr (by rw [h])
  rw [place_eq, place_eq, hstart, h]
  simp only [List.foldl_append, Path.foldl_step_names hnames, List.reverse_append,
    List.reverse_reverse]

theorem exists_first (h : t.locate path = .ok names) :
    ∃ part rest stack, Bytes.splitOn (byte '/') path = part :: rest ∧
      t.step (t.start path) part = .ok stack ∧ rest.foldlM t.step stack = .ok names.reverse := by
  obtain ⟨-, -, -, hway⟩ := locate_eq_ok.1 h
  obtain ⟨part, rest, hsplit⟩ := List.exists_cons_of_ne_nil (Bytes.splitOn_ne_nil (byte '/') path)
  rw [hsplit, ← List.singleton_append, Path.foldlM_append_eq_ok] at hway
  obtain ⟨stack, hfirst, hrest⟩ := hway
  exact ⟨part, rest, stack, hsplit, Path.foldlM_singleton.symm.trans hfirst, hrest⟩

/-- A path that leads somewhere starts in a directory, and unless it is rooted in one that may be
searched. -/
theorem step_here (h : t.locate path = .ok names) :
    t.IsDirAt (t.start path).reverse ∧
      ((ofPath path).rooted = false → t.step (t.start path) Path.here = .ok (t.start path)) := by
  obtain ⟨hne, -, -, -⟩ := locate_eq_ok.1 h
  obtain ⟨part, rest, stack, hsplit, hfirst, -⟩ := exists_first h
  refine ⟨isDirAt_of_step hfirst, fun hrooted => ?_⟩
  obtain ⟨access, hinfo, hsearch, -, -⟩ := step_eq_ok.1 hfirst
  refine step_eq_ok.2 ⟨access, hinfo, fun _ => hsearch ?_, by decide, rfl⟩
  -- the first part of a path that is not rooted is not empty
  rintro rfl
  obtain ⟨b, bs, rfl⟩ := List.exists_cons_of_ne_nil hne
  have hb : b ≠ byte '/' := by simpa [ofPath] using hrooted
  unfold Bytes.splitOn at hsplit
  rw [if_neg hb] at hsplit
  split at hsplit <;> simp at hsplit

/-- The names of a normal form lead where the path leads. -/
theorem foldlM_parts (h : t.locate path = .ok names) :
    (ofPath path).parts.foldlM t.step (t.start path) = .ok names.reverse := by
  obtain ⟨-, -, -, hway⟩ := locate_eq_ok.1 h
  have hleads : Path.Leads t.step (t.start path) [] (t.start path) := ⟨rfl, nofun⟩
  exact (Path.leads_foldl (fun _ _ _ => eq_of_step) (fun hrooted => start_of_rooted hrooted) hleads
    hway).way

/-- **A normal form** is followed as the path is, also with further names behind it. -/
theorem foldlM_render {more : List Bytes} (h : t.locate path = .ok names)
    (hmore : ∀ name ∈ more, isName name = true) :
    (Bytes.splitOn (byte '/')
        (Path.Clean.render ⟨(ofPath path).rooted, (ofPath path).parts ++ more⟩)).foldlM t.step
      (t.start path) = more.foldlM t.step names.reverse := by
  obtain ⟨hdir, hhere⟩ := step_here h
  have hall : ((ofPath path).parts ++ more).foldlM t.step (t.start path) =
      more.foldlM t.step names.reverse := by
    rw [List.foldlM_append, foldlM_parts h]
    rfl
  have hslash : ∀ part ∈ (ofPath path).parts ++ more, byte '/' ∉ part := by
    intro part hpart
    rcases List.mem_append.1 hpart with hpart | hpart
    · exact ((Path.Clean.isNormal_ofPath path).parts part (List.mem_reverse.2 hpart)).2.2
    · exact (Path.isName_iff.1 (hmore part hpart)).2.2.2
  rw [← hall, Path.Clean.render, Path.slash]
  cases hrooted : (ofPath path).rooted with
  | true =>
    have hroot : t.step (t.start path) [] = .ok (t.start path) := step_nil hdir
    rw [if_pos rfl, Bytes.splitOn, if_pos rfl, List.foldlM_cons, hroot]
    by_cases hempty : (ofPath path).parts ++ more = []
    · rw [hempty]
      exact Path.foldlM_singleton.trans hroot
    · rw [Bytes.splitOn_join hempty hslash]
      rfl
  | false =>
    rw [if_neg (by simp)]
    by_cases hempty : (ofPath path).parts ++ more = []
    · rw [if_pos (by simp [hempty]), hempty]
      exact Path.foldlM_singleton.trans (hhere hrooted)
    · rw [if_neg (by simpa using hempty), Bytes.splitOn_join hempty hslash]

theorem locate_clean (h : t.locate path = .ok names) : t.locate (Path.clean path) = .ok names := by
  obtain ⟨hne, hzero, hlength, -⟩ := locate_eq_ok.1 h
  have hstart : t.start (Path.clean path) = t.start path :=
    start_congr (congrArg Path.Clean.rooted (Path.ofPath_clean path))
  have hway := foldlM_render h (List.forall_mem_nil _)
  rw [List.append_nil] at hway
  refine locate_eq_ok.2 ⟨Path.Clean.render_ne_nil _ fun part hpart =>
    (Path.Clean.isNormal_ofPath path).parts part (List.mem_reverse.2 hpart), fun hmem => ?_,
    Nat.le_trans (Path.length_clean_le hne) hlength, ?_⟩
  · rcases Path.mem_of_mem_clean hmem with hmem | hmem | hmem
    · exact hzero hmem
    · simp +decide at hmem
    · simp +decide at hmem
  · rw [hstart]
    exact hway

theorem exists_last (h : t.locate path = .ok names) :
    ∃ parts last stack, Bytes.splitOn (byte '/') path = parts ++ [last] ∧
      path = parts.flatMap (· ++ [byte '/']) ++ last ∧ (∀ part ∈ parts ++ [last], byte '/' ∉ part) ∧
        parts.foldlM t.step (t.start path) = .ok stack ∧ t.step stack last = .ok names.reverse := by
  obtain ⟨-, -, -, hway⟩ := locate_eq_ok.1 h
  obtain ⟨parts, last, hsplit, htext, hsep⟩ := Bytes.splitOn_spec (byte '/') path
  rw [hsplit, Path.foldlM_append_eq_ok] at hway
  obtain ⟨stack, hstack, hend⟩ := hway
  exact ⟨parts, last, stack, hsplit, htext, hsep, hstack, Path.foldlM_singleton.symm.trans hend⟩

section Last

variable {parts : List Bytes} {stack : List Bytes}

/-- The directory of a path is the normal form of the path up to its last slash. -/
theorem locate_dir (h : t.locate path = .ok names)
    (htext : path = parts.flatMap (· ++ [byte '/']) ++ last)
    (hsep : ∀ part ∈ parts ++ [last], byte '/' ∉ part)
    (hstack : parts.foldlM t.step (t.start path) = .ok stack) (hdir : t.IsDirAt stack.reverse) :
    t.locate (Path.dir path) = .ok stack.reverse := by
  obtain ⟨hne, hzero, hlength, -⟩ := locate_eq_ok.1 h
  have hlast : byte '/' ∉ last := hsep last (by simp)
  rw [Path.dir, Path.dropEndWhile_slash htext hlast]
  generalize hfront : parts.flatMap (· ++ [byte '/']) = front at htext
  by_cases hparts : parts = []
  · -- a path without a slash stands in the working directory
    subst hparts hfront
    obtain rfl : t.start path = stack := Except.ok.inj hstack
    have hrooted : (ofPath path).rooted = false := by
      rw [Bool.eq_false_iff]
      intro hrooted
      have hhead : path.head? = some (byte '/') := by simpa [ofPath] using hrooted
      rw [htext] at hhead
      exact hlast (List.mem_of_head? hhead)
    have hstart : t.start (Path.clean []) = t.start path := start_congr hrooted.symm
    refine locate_eq_ok.2 ⟨by decide, by decide, by decide, ?_⟩
    rw [List.reverse_reverse, List.flatMap_nil, hstart]
    exact Path.foldlM_singleton.trans ((step_here h).2 hrooted)
  · have hfrontne : front ≠ [] := by
      rw [← hfront]
      simpa using List.exists_mem_of_ne_nil parts hparts
    have hhead : front.head? = path.head? := by
      rw [htext]
      cases front with
      | nil => exact absurd rfl hfrontne
      | cons b bs => rfl
    have hstart : t.start front = t.start path := start_congr (by simp [ofPath, hhead])
    refine locate_clean (locate_eq_ok.2 ⟨hfrontne, fun hmem => hzero ?_, ?_, ?_⟩)
    · rw [htext]
      exact List.mem_append_left _ hmem
    · rw [htext, List.length_append] at hlength
      omega
    · rw [hstart, ← hfront,
        Bytes.splitOn_flatMap fun part hpart => hsep part (List.mem_append_left _ hpart),
        Path.foldlM_append_eq_ok, List.reverse_reverse]
      exact ⟨stack, hstack, Path.foldlM_singleton.trans (step_nil hdir)⟩

/-- A path that leads to no directory ends with a name: what is skipped or leads up stays among the
directories. -/
theorem isName_last (hlast : byte '/' ∉ last) (hend : t.step stack last = .ok names.reverse)
    (hplace : ¬ t.IsDirAt names) : isName last = true ∧ names = stack.reverse ++ [last] := by
  have hdir := isDirAt_of_step hend
  have heq : names = (Path.step stack last).reverse := by
    rw [← eq_of_step hend, List.reverse_reverse]
  have hskip : (last.isEmpty || last == Path.here) = false := by
    rw [Bool.eq_false_iff]
    intro hskip
    rw [Path.step_of_isSkipped hskip] at heq
    exact hplace (heq ▸ hdir)
  have hup : last ≠ Path.up := by
    rintro rfl
    rw [Path.step_up] at heq
    refine hplace ?_
    cases stack with
    | nil => exact heq ▸ hdir
    | cons top rest =>
      rw [List.reverse_cons] at hdir
      exact heq ▸ IsDirAt.init hdir
  rw [Path.step_of_not_isSkipped hskip hup, List.reverse_cons] at heq
  simp only [Bool.or_eq_false_iff, List.isEmpty_eq_false_iff, beq_eq_false_iff_ne] at hskip
  exact ⟨Path.isName_iff.2 ⟨hskip.1, hskip.2, hup, hlast⟩, heq⟩

end Last

/-- **The directory of a path** that leads somewhere is there. Where the path leads to no directory,
its place is a name behind that of its directory. -/
theorem locate_above (h : t.locate path = .ok names) :
    ∃ above, t.locate (Path.dir path) = .ok above ∧ t.IsDirAt above ∧
      (¬ t.IsDirAt names → ∃ last, isName last = true ∧ names = above ++ [last] ∧
        ofPath path = ⟨(ofPath (Path.dir path)).rooted, (ofPath (Path.dir path)).parts ++ [last]⟩) := by
  obtain ⟨parts, last, stack, hsplit, htext, hsep, hstack, hend⟩ := exists_last h
  have hdir := isDirAt_of_step hend
  refine ⟨stack.reverse, locate_dir h htext hsep hstack hdir, hdir, fun hplace => ⟨last, ?_⟩⟩
  obtain ⟨hname, heq⟩ := isName_last (hsep last (by simp)) hend hplace
  refine ⟨hname, heq, ?_⟩
  rw [Path.ofPath_dir, Path.Clean.above, hsplit, List.dropLast_concat, ofPath, hsplit,
    List.foldl_append, List.foldl_cons, List.foldl_nil, Path.Clean.push_of_isName hname,
    List.reverse_cons]

/-! ### Kinds -/

/-- The trees have the same entries, whatever is in the files. -/
structure Alike (t t' : FileTree) : Prop where
  here : t'.here = t.here
  info : ∀ names, t'.info? names = t.info? names

theorem Alike.refl (t : FileTree) : Alike t t := ⟨rfl, fun _ => rfl⟩

theorem Alike.trans {t'' : FileTree} (h : Alike t t') (h' : Alike t' t'') : Alike t t'' :=
  ⟨h'.here.trans h.here, fun names => (h'.info names).trans (h.info names)⟩

theorem Alike.start (h : Alike t t') (path : Bytes) : t'.start path = t.start path := by
  simp only [FileTree.start, h.here]

theorem Alike.place (h : Alike t t') (path : Bytes) : t'.place path = t.place path := by
  simp only [FileTree.place, h.start]

/-- **A path** leads to the same place in alike trees. -/
theorem Alike.locate (h : Alike t t') (path : Bytes) : t'.locate path = t.locate path := by
  have hstep : t'.step = t.step := by
    funext stack part
    simp only [FileTree.step, h.info]
  simp only [FileTree.locate, hstep, h.start]

/-! ### Files -/

theorem entry_eq_ok {e : Entry} :
    t.entry path = .ok e ↔ ∃ names, t.locate path = .ok names ∧ t.root.get? names = some e := by
  unfold entry
  cases t.locate path with
  | error cause => simp
  | ok names =>
    simp only [Except.ok.injEq, exists_eq_left']
    cases t.root.get? names <;> simp

theorem node?_of_entry {e : Entry} (h : t.entry path = .ok e) :
    t.node? (t.place path) = some e.bare := by
  obtain ⟨names, hlocate, hget⟩ := entry_eq_ok.1 h
  rw [← eq_place_of_locate hlocate, node?, hget, Option.map_some]

/-- **A path** stands for what is at its place. -/
theorem entry_congr (h : Alike t t') (hnode : t'.node? (t.place path) = t.node? (t.place path)) :
    (t'.entry path).map Entry.bare = (t.entry path).map Entry.bare := by
  unfold entry
  rw [h.locate]
  cases hlocate : t.locate path with
  | error cause => rfl
  | ok names =>
    rw [← eq_place_of_locate hlocate] at hnode
    simp only [node?] at hnode ⊢
    cases hget : t.root.get? names <;> cases hget' : t'.root.get? names <;>
      simp_all [Except.map]

/-- A file that stands at the place of a path is what the path stands for, where something was. -/
theorem entry_of_node? {access : Access} {content : Bytes} {e : Entry} (h : Alike t t')
    (hentry : t.entry path = .ok e) (hnode : t'.node? (t.place path) = some (.file access content)) :
    t'.entry path = .ok (.file access content) := by
  obtain ⟨names, hlocate, -⟩ := entry_eq_ok.1 hentry
  rw [← eq_place_of_locate hlocate, node?_eq_file] at hnode
  exact entry_eq_ok.2 ⟨names, (h.locate path).trans hlocate, hnode⟩

theorem entry_eq_file {access : Access} {content : Bytes} :
    t.entry path = .ok (.file access content) ↔
      (t.entry path).map Entry.bare = .ok (.file access content) := by
  cases t.entry path with
  | error cause => simp [Except.map]
  | ok e => simp [Except.map, Entry.bare_eq_file]

/-- What is no directory is told apart by its node. -/
theorem entry_of_map_bare {e : Entry} (hdir : e.isDir = false)
    (h : (t.entry path).map Entry.bare = .ok e.bare) : t.entry path = .ok e := by
  cases hentry : t.entry path with
  | error cause => simp [hentry, Except.map] at h
  | ok e' =>
    rw [hentry] at h
    cases e <;> cases e' <;> simp_all [Except.map, Entry.bare, Entry.isDir, Entry.info]

theorem read_eq (t : FileTree) (path : Bytes) :
    t.read path =
      match (t.entry path).map Entry.bare with
      | .error cause => .error ⟨"open", path, cause⟩
      | .ok e =>
        if !e.info.access.read then .error ⟨"open", path, .permissionDenied⟩
        else
          match e with
          | .file _ content => .ok content
          | .dir _ _ => .error ⟨"read", path, .isADirectory⟩
          | .socket _ => .error ⟨"open", path, .noSuchDevice⟩ := by
  unfold read
  cases t.entry path with
  | error cause => rfl
  | ok e => cases e <;> rfl

theorem read_eq_ok {src : Bytes} : t.read path = .ok src ↔
    ∃ access, access.read = true ∧ t.entry path = .ok (.file access src) := by
  constructor
  · intro h
    unfold read at h
    split at h
    · simp at h
    split at h
    · simp at h
    rename_i e hentry hread
    cases e with
    | file access content =>
      obtain rfl := Except.ok.inj h
      exact ⟨access, by simpa [Entry.info] using hread, hentry⟩
    | dir access entries => simp at h
    | socket access => simp at h
  · rintro ⟨access, hread, hentry⟩
    simp [read, hentry, Entry.info, hread]

/-- The directory of a path that leads somewhere need not be made. -/
theorem mkdirAll_dir (h : t.locate path = .ok names) : t.mkdirAll (Path.dir path) = .ok t := by
  obtain ⟨above, hlocate, hdir, -⟩ := locate_above h
  obtain ⟨e, hget, hisDir⟩ := hdir
  have hentry : t.entry (Path.dir path) = .ok e := entry_eq_ok.2 ⟨above, hlocate, hget⟩
  have hrender : (ofPath (Path.dir path)).render = Path.dir path := Path.clean_clean _
  have hstat : t.stat (ofPath (Path.dir path)).render = .ok true := by
    rw [hrender]
    simp only [stat, info, hentry, Except.map]
    exact congrArg Except.ok hisDir
  unfold mkdirAll mkdirs
  simp only [List.reverse_reverse, hstat]

/-- **A file that is there** is replaced where it is, if the user may write it. -/
theorem save_file {access : Access} {old : Bytes} (h : t.entry path = .ok (.file access old))
    (text : Bytes) (given : Access) :
    t.save path text given =
      if access.write then .ok (t.put (t.place path) (.file access text))
      else .error (.unwritable path ⟨"open", path, .permissionDenied⟩) := by
  obtain ⟨names, hlocate, hget⟩ := entry_eq_ok.1 h
  obtain rfl := eq_place_of_locate hlocate
  simp only [save, mkdirAll_dir hlocate, write, hlocate, hget]
  cases access.write <;> rfl

theorem exists_above_of_entry {access : Access} {content : Bytes}
    (h : t.entry path = .ok (.file access content)) :
    ∃ above last, t.place path = above ++ [last] ∧ t.IsDirAt above ∧
      ¬ t.IsDirAt (above ++ [last]) := by
  obtain ⟨names, hlocate, hget⟩ := entry_eq_ok.1 h
  obtain rfl := eq_place_of_locate hlocate
  have hplace : ¬ t.IsDirAt (t.place path) := by
    rintro ⟨e, he, hdir⟩
    obtain rfl := Option.some.inj (he.symm.trans hget)
    simp [Entry.isDir, Entry.info] at hdir
  obtain ⟨above, -, hdir, hleaf⟩ := locate_above hlocate
  obtain ⟨last, -, hnames, -⟩ := hleaf hplace
  exact ⟨above, last, hnames, hdir, hnames ▸ hplace⟩

section Replace

variable {access : Access} {old : Bytes} (h : t.entry path = .ok (.file access old)) (new : Bytes)

include h

/-- **A file gets another content**, and nothing else changes. -/
theorem node?_replace (others : List Bytes) :
    (t.put (t.place path) (.file access new)).node? others =
      if others = t.place path then some (.file access new) else t.node? others := by
  obtain ⟨above, last, hnames, habove, hplace⟩ := exists_above_of_entry h
  rw [hnames, node?_put (fun _ _ => rfl) habove hplace]
  rfl

theorem alike_replace : Alike t (t.put (t.place path) (.file access new)) where
  here := rfl
  info := by
    intro others
    rw [info?_eq, info?_eq, node?_replace h]
    split
    · rename_i heq
      rw [heq, node?_of_entry h]
      rfl
    · rfl

end Replace

end FileTree

end GetterRename
