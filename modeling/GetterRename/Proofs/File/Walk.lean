import GetterRename.Proofs.File.Sources

/-!
# What a walk comes by

A walk goes down from its root name by name and leaves out what is below a directory that it does
not enter.  It comes by the entries whose directories are all entered, and by each at the path that
its names make behind the root.  It may be refused one of them, or the names in a directory that it
comes by, also in one that it would not enter.

* `Path.under`, `Path.under_eq_join` — the path of an entry, from its names;
* `Path.base_eq`, `Path.endsWith_eq` — the last name of a path;
* `Entry.isReached` — the entries whose directories are all entered;
* `Entry.mem_tour_iff` — what a walk comes by;
* `Entry.IsOpen`, `Entry.isOk_walk` — the walks to which nothing is refused;
* `FileTree.entry_join`, `FileTree.entry_under` — a walk is refused what the file system refuses at
  its path, and what it comes by is there.
-/

namespace GetterRename

open GetterRename.Path (isName Below)
open GetterRename.Path.Clean (ofPath)

/-! ### Names behind a path -/

namespace Path

/-- The path of an entry that stands `names` below `path`. -/
def under (path : Bytes) (names : List Bytes) : Bytes :=
  names.foldl (fun above name => join [above, name]) path

variable {path : Bytes} {names : List Bytes}

theorem below_under (hpath : path ≠ []) (hne : names ≠ [])
    (hnames : ∀ name ∈ names, isName name = true) : Below path (under path names) names := by
  induction names generalizing path with
  | nil => exact absurd rfl hne
  | cons name names ih =>
    obtain ⟨hname, hrest⟩ := List.forall_mem_cons.1 hnames
    have hfirst := below_join hpath hname
    by_cases hlast : names = []
    · subst hlast
      exact hfirst
    · exact hfirst.trans (ih hfirst.ne_nil hlast hrest)

theorem under_eq_join (hpath : path ≠ []) (hne : names ≠ [])
    (hnames : ∀ name ∈ names, isName name = true) : under path names = join (path :: names) :=
  (below_under hpath hne hnames).unique (below_join_names hpath hne hnames)

/-- Different names behind a path make different paths. -/
theorem join_names_inj {names' : List Bytes} (hpath : path ≠ []) (hne : names ≠ [])
    (hnames : ∀ name ∈ names, isName name = true) (hne' : names' ≠ [])
    (hnames' : ∀ name ∈ names', isName name = true)
    (h : join (path :: names) = join (path :: names')) : names = names' := by
  have hofPath := (below_join_names hpath hne hnames).names
  rw [h, (below_join_names hpath hne' hnames').names] at hofPath
  exact (List.append_cancel_left (congrArg Clean.parts hofPath)).symm

theorem join_text (hne : names ≠ []) (hnames : ∀ name ∈ names, isName name = true) :
    join [path, Bytes.join "/" names] = join (path :: names) := by
  have hfilter : names.filter (!·.isEmpty) = names := by
    rw [List.filter_eq_self]
    intro name hname
    simpa using (isName_iff.1 (hnames name hname)).1
  have htext : (Bytes.join "/" names).isEmpty = false := by
    obtain ⟨name, rest, rfl⟩ := List.exists_cons_of_ne_nil hne
    have hname := (isName_iff.1 (hnames name (by simp))).1
    cases rest <;> simp [Bytes.join, hname]
  unfold join
  simp only [List.filter_cons, hfilter, htext, List.filter_nil]
  cases path with
  | nil => simp [hne, Bytes.join]
  | cons b rest => simp [Bytes.join_cons _ _ hne, Bytes.join]

/-- The text of names ends with the last of them, alone or behind a slash. -/
theorem render_concat (rooted : Bool) (above : List Bytes) (name : Bytes) :
    ∃ front, Clean.render ⟨rooted, above ++ [name]⟩ = front ++ name ∧
      (front = [] ∨ front.getLast? = some (byte '/')) := by
  have hjoin : ∃ front, Bytes.join [byte '/'] (above ++ [name]) = front ++ name ∧
      (front = [] ∨ front.getLast? = some (byte '/')) := by
    induction above with
    | nil => exact ⟨[], rfl, .inl rfl⟩
    | cons part above ih =>
      obtain ⟨front, hfront, hlast⟩ := ih
      refine ⟨part ++ byte '/' :: front, ?_, .inr ?_⟩
      · rw [List.cons_append, Bytes.join_cons _ _ (by simp), hfront]
        simp
      · rcases hlast with rfl | hlast
        · simp
        · simp [List.getLast?_append, List.getLast?_cons, hlast]
  obtain ⟨front, hfront, hlast⟩ := hjoin
  unfold Clean.render
  rw [slash]
  cases rooted with
  | true =>
    refine ⟨byte '/' :: front, by simp [hfront], .inr ?_⟩
    rcases hlast with rfl | hlast
    · rfl
    · simp [List.getLast?_cons, hlast]
  | false => exact ⟨front, by simp [hfront], hlast⟩

theorem Below.exists_front {below name : Bytes} {above : List Bytes}
    (h : Below path below (above ++ [name])) :
    ∃ front, below = front ++ name ∧ (front = [] ∨ front.getLast? = some (byte '/')) := by
  have hbelow := h.clean
  rw [Path.clean, h.names, ← List.append_assoc] at hbelow
  rw [← hbelow]
  exact render_concat _ _ _

theorem base_eq {front name : Bytes} (hname : byte '/' ∉ name)
    (hfront : front = [] ∨ front.getLast? = some (byte '/')) : base (front ++ name) = name := by
  have hall : ∀ b ∈ name.reverse, (b != byte '/') = true := by
    intro b hb
    rw [bne_iff_ne]
    rintro rfl
    exact hname (List.mem_reverse.1 hb)
  have htake : front.reverse.takeWhile (· != byte '/') = [] := by
    rcases hfront with rfl | hlast
    · rfl
    · obtain ⟨init, rfl⟩ := List.getLast?_eq_some_iff.1 hlast
      simp
  rw [base, List.reverse_append, List.takeWhile_append_of_pos hall, htake, List.append_nil,
    List.reverse_reverse]

/-- A path ends with a text without a slash exactly where its last name does. -/
theorem endsWith_eq {front name tail : Bytes} (htail : byte '/' ∉ tail)
    (hfront : front = [] ∨ front.getLast? = some (byte '/')) :
    Bytes.endsWith (front ++ name) tail = Bytes.endsWith name tail := by
  rw [Bool.eq_iff_iff]
  simp only [Bytes.endsWith, List.isSuffixOf_iff_suffix]
  refine ⟨fun h => ?_, fun h => h.trans (List.suffix_append _ _)⟩
  rcases List.suffix_or_suffix_of_suffix h (List.suffix_append front name) with h' | ⟨more, h'⟩
  · exact h'
  -- a longer end would reach the slash in front of the name
  · rcases hfront with rfl | hlast
    · exact h
    · obtain ⟨init, rfl⟩ := List.getLast?_eq_some_iff.1 hlast
      rcases List.eq_nil_or_concat more with rfl | ⟨start, b, rfl⟩
      · rw [← h']
        exact List.suffix_refl _
      · obtain ⟨pre, hpre⟩ := h
        rw [← h'] at hpre
        simp only [List.concat_eq_append, ← List.append_assoc, List.append_cancel_right_eq] at hpre
        obtain rfl : b = byte '/' := by simpa using (List.append_inj' hpre rfl).2
        exact absurd (by simp [← h']) htail

end Path

/-! ### Walks -/

theorem Entries.mem_names_of_get? {name : Bytes} {entry : Entry} :
    ∀ {entries : Entries}, entries.get? name = some entry → name ∈ entries.names
  | .cons n e rest, h => by
    unfold get? at h
    split at h
    · rename_i hn
      exact hn ▸ List.mem_cons_self
    · exact List.mem_cons_of_mem _ (mem_names_of_get? h)

namespace Entry

variable {enter : Bytes → Bool} {path : Bytes} {e : Entry} {names : List Bytes}

theorem isName_of_get? {below : Entry} (h : e.isWellNamed = true) (hget : e.get? names = some below) :
    ∀ name ∈ names, isName name = true := by
  induction names generalizing e with
  | nil => simp
  | cons name names ih =>
    obtain ⟨access, entries, e', rfl, he', hrest⟩ := exists_of_get?_cons hget
    exact List.forall_mem_cons.2
      ⟨Entries.isName_of_get? h he', ih (Entries.isWellNamed_get? h he') hrest⟩

/-- Whether a walk that enters these directories comes from `path` to the entry of the names. -/
def isReached (enter : Bytes → Bool) (path : Bytes) : List Bytes → Bool
  | [] => true
  | name :: names => enter path && isReached enter (Path.join [path, name]) names

/-- All directories on the way are entered. -/
theorem isReached_iff : isReached enter path names = true ↔
    ∀ above name below, names = above ++ name :: below → enter (Path.under path above) = true := by
  induction names generalizing path with
  | nil => simp [isReached]
  | cons first names ih =>
    rw [isReached, Bool.and_eq_true, ih]
    constructor
    · rintro ⟨hfirst, hrest⟩ above name below heq
      cases above with
      | nil => exact hfirst
      | cons other above =>
        obtain ⟨rfl, hnames⟩ := List.cons.inj heq
        exact hrest above name below hnames
    · intro h
      exact ⟨h [] first names rfl, fun above name below heq =>
        h (first :: above) name below (by rw [heq]; rfl)⟩

mutual

theorem exists_of_mem_tour : ∀ {path : Bytes} {e : Entry}, e.isWellNamed = true →
    ∀ x ∈ tour enter path e, ∃ names below, e.get? names = some below ∧
      isReached enter path names = true ∧ x = (Path.under path names, below.info.kind)
  | path, .file access content, _, x, hx =>
    ⟨[], .file access content, rfl, rfl, by rw [tour, List.mem_singleton] at hx; exact hx⟩
  | path, .socket access, _, x, hx =>
    ⟨[], .socket access, rfl, rfl, by rw [tour, List.mem_singleton] at hx; exact hx⟩
  | path, .dir access entries, h, x, hx => by
    rw [tour, List.mem_cons] at hx
    rcases hx with rfl | hx
    · exact ⟨[], .dir access entries, rfl, rfl, rfl⟩
    split at hx
    · rename_i henter
      obtain ⟨name, below, hentry, names, e, hget, hreached, hx⟩ :=
        exists_of_mem_tourEntries h x hx
      exact ⟨name :: names, e, by simp [get?, hentry, hget], by rw [isReached, henter, hreached]; rfl,
        hx⟩
    · simp at hx

theorem exists_of_mem_tourEntries : ∀ {path : Bytes} {entries : Entries},
    entries.isWellNamed = true → ∀ x ∈ tourEntries enter path entries,
      ∃ name below, entries.get? name = some below ∧ ∃ names e, below.get? names = some e ∧
        isReached enter (Path.join [path, name]) names = true ∧
        x = (Path.under path (name :: names), e.info.kind)
  | path, .nil, _, x, hx => by simp [tourEntries] at hx
  | path, .cons name entry rest, h, x, hx => by
    obtain ⟨-, hnew, hentry, hrest⟩ := Entries.isWellNamed_cons.1 h
    rw [tourEntries, List.mem_append] at hx
    rcases hx with hx | hx
    · exact ⟨name, entry, by simp [Entries.get?], exists_of_mem_tour hentry x hx⟩
    · obtain ⟨other, below, hget, hbelow⟩ := exists_of_mem_tourEntries hrest x hx
      -- a later entry has another name
      have hother : name ≠ other := by
        rintro rfl
        exact hnew (Entries.mem_names_of_get? hget)
      exact ⟨other, below, by simp [Entries.get?, hother, hget], hbelow⟩

end

theorem mem_tourEntries_of_get? {x : Bytes × Kind} {name : Bytes} {entry : Entry} :
    ∀ {entries : Entries}, entries.get? name = some entry →
      x ∈ tour enter (Path.join [path, name]) entry → x ∈ tourEntries enter path entries
  | .cons n e rest, hget, hx => by
    rw [tourEntries, List.mem_append]
    unfold Entries.get? at hget
    split at hget
    · rename_i hn
      obtain rfl := Option.some.inj hget
      exact .inl (hn ▸ hx)
    · exact .inr (mem_tourEntries_of_get? hget hx)

theorem mem_tour_of_get? {below : Entry} (hget : e.get? names = some below)
    (hreached : isReached enter path names = true) :
    (Path.under path names, below.info.kind) ∈ tour enter path e := by
  induction names generalizing e path with
  | nil =>
    obtain rfl := Option.some.inj hget
    cases e <;> simp [tour, info, Path.under]
  | cons name names ih =>
    obtain ⟨access, entries, e', rfl, he', hrest⟩ := exists_of_get?_cons hget
    rw [isReached, Bool.and_eq_true] at hreached
    rw [tour, if_pos hreached.1]
    exact List.mem_cons_of_mem _ (mem_tourEntries_of_get? he' (ih hrest hreached.2))

/-- **A walk** comes by the entries whose directories it enters. -/
theorem mem_tour_iff (h : e.isWellNamed = true) {x : Bytes × Kind} :
    x ∈ tour enter path e ↔ ∃ names below, e.get? names = some below ∧
      isReached enter path names = true ∧ x = (Path.under path names, below.info.kind) := by
  constructor
  · exact exists_of_mem_tour h x
  · rintro ⟨names, below, hget, hreached, rfl⟩
    exact mem_tour_of_get? hget hreached

/-! ### Refusals -/

/-- Nothing is refused to a walk from `path`: the directories that it comes by can be read, and the
entries that it comes by can be looked up. -/
structure IsOpen (enter : Bytes → Bool) (path : Bytes) (e : Entry) : Prop where
  read : ∀ names access entries, e.get? names = some (.dir access entries) →
    isReached enter path names = true → access.read = true
  lookUp : ∀ above name access entries below, e.get? above = some (.dir access entries) →
    entries.get? name = some below → isReached enter path (above ++ [name]) = true →
      access.lookUp (Path.under path (above ++ [name])) name = .ok ()

theorem isOpen_of_not_isDir (h : e.isDir = false) : IsOpen enter path e := by
  have hnone : ∀ names access entries, e.get? names ≠ some (.dir access entries) := by
    intro names access entries hget
    cases names with
    | nil =>
      obtain rfl := Option.some.inj hget
      simp [isDir, info] at h
    | cons name names =>
      obtain ⟨_, _, _, rfl, -, -⟩ := exists_of_get?_cons hget
      simp [isDir, info] at h
  exact ⟨fun names access entries hget => absurd hget (hnone names access entries),
    fun above _ access entries _ hget => absurd hget (hnone above access entries)⟩

theorem isOpen_dir {access : Access} {entries : Entries} : IsOpen enter path (.dir access entries) ↔
    access.read = true ∧ (enter path = true → ∀ name below, entries.get? name = some below →
      access.lookUp (Path.join [path, name]) name = .ok () ∧
        IsOpen enter (Path.join [path, name]) below) := by
  constructor
  · intro h
    refine ⟨h.read [] access entries rfl rfl, fun henter name below hbelow => ⟨?_, ?_, ?_⟩⟩
    · exact h.lookUp [] name access entries below rfl hbelow (by simp [isReached, henter])
    · intro names access' entries' hget hreached
      exact h.read (name :: names) access' entries' (by simpa [get?, hbelow] using hget)
        (by rw [isReached, henter, hreached]; rfl)
    · intro above name' access' entries' e' hget hget' hreached
      exact h.lookUp (name :: above) name' access' entries' e' (by simpa [get?, hbelow] using hget)
        hget' (by rw [List.cons_append, isReached, henter, hreached]; rfl)
  · rintro ⟨hread, hinside⟩
    constructor
    · intro names access' entries' hget hreached
      cases names with
      | nil =>
        obtain ⟨rfl, -⟩ := Entry.dir.inj (Option.some.inj hget)
        exact hread
      | cons name names =>
        rw [isReached, Bool.and_eq_true] at hreached
        obtain ⟨_, _, below, heq, hbelow, hrest⟩ := exists_of_get?_cons hget
        obtain ⟨rfl, rfl⟩ := Entry.dir.inj heq
        exact (hinside hreached.1 name below hbelow).2.read names access' entries' hrest hreached.2
    · intro above name access' entries' e' hget hget' hreached
      cases above with
      | nil =>
        obtain ⟨rfl, rfl⟩ := Entry.dir.inj (Option.some.inj hget)
        rw [List.nil_append, isReached, Bool.and_eq_true] at hreached
        exact (hinside hreached.1 name e' hget').1
      | cons first above =>
        rw [List.cons_append, isReached, Bool.and_eq_true] at hreached
        obtain ⟨_, _, below, heq, hbelow, hrest⟩ := exists_of_get?_cons hget
        obtain ⟨rfl, rfl⟩ := Entry.dir.inj heq
        exact (hinside hreached.1 first below hbelow).2.lookUp above name access' entries' e' hrest
          hget' hreached.2

mutual

/-- **A walk that meets no refusal** is one to which nothing is refused. -/
theorem isOk_walk : ∀ {path : Bytes} {e : Entry}, e.isWellNamed = true →
    ((walk enter path e).all Except.isOk = true ↔ IsOpen enter path e)
  | path, .file access content, _ => iff_of_true rfl (isOpen_of_not_isDir rfl)
  | path, .socket access, _ => iff_of_true rfl (isOpen_of_not_isDir rfl)
  | path, .dir access entries, h => by
    rw [isOpen_dir, ← isOk_walkEntries h, walk]
    cases access.read with
    | false => simp [Except.isOk, Except.toBool]
    | true => cases enter path <;> simp [Except.isOk, Except.toBool]

theorem isOk_walkEntries : ∀ {path : Bytes} {access : Access} {entries : Entries},
    entries.isWellNamed = true → ((walkEntries enter path access entries).all Except.isOk = true ↔
      ∀ name below, entries.get? name = some below →
        access.lookUp (Path.join [path, name]) name = .ok () ∧
          IsOpen enter (Path.join [path, name]) below)
  | path, access, .nil, _ => iff_of_true rfl (fun _ _ h => nomatch h)
  | path, access, .cons name entry rest, h => by
    obtain ⟨-, hnew, hentry, hrest⟩ := Entries.isWellNamed_cons.1 h
    rw [walkEntries, List.all_append, Bool.and_eq_true, isOk_walkEntries hrest]
    refine Iff.trans (and_congr_left fun _ => (?_ : _ ↔
      access.lookUp (Path.join [path, name]) name = .ok () ∧
        IsOpen enter (Path.join [path, name]) entry)) ?_
    · split
      · rename_i hlook
        simp [hlook, isOk_walk hentry]
      · rename_i cause hlook
        simp [hlook, Except.isOk, Except.toBool]
    constructor
    · rintro ⟨hname, hothers⟩ other below hget
      unfold Entries.get? at hget
      split at hget
      · rename_i heq
        obtain rfl := Option.some.inj hget
        exact heq ▸ hname
      · exact hothers other below hget
    · intro hall
      refine ⟨hall name entry (by simp [Entries.get?]), fun other below hget => ?_⟩
      -- a later entry has another name
      have hother : name ≠ other := by
        rintro rfl
        exact hnew (Entries.mem_names_of_get? hget)
      exact hall other below (by simp [Entries.get?, hother, hget])

end

end Entry

/-- **What a walk is told of an entry** is what the file system says of its path. -/
theorem FileTree.entry_join {t : FileTree} {path name : Bytes} {access : Access} {entries : Entries}
    {e : Entry} (h : t.entry path = .ok (.dir access entries)) (hname : isName name = true)
    (hget : entries.get? name = some e) :
    t.entry (Path.join [path, name]) =
      (access.lookUp (Path.join [path, name]) name).map fun _ => e := by
  obtain ⟨names, hlocate, hdir⟩ := entry_eq_ok.1 h
  have hbelow := Path.below_join (locate_eq_ok.1 hlocate).1 hname
  have hinfo : t.info? names.reverse.reverse = some ⟨.dir, access⟩ := by
    simp [info?, hdir, Entry.info]
  have hentry : t.root.get? (names ++ [name]) = some e := by
    rw [Entry.get?_append, hdir]
    simp [Entry.get?, hget]
  obtain ⟨hempty, hhere, hup, -⟩ := Path.isName_iff.1 hname
  have hskip : (name.isEmpty || name == Path.here) = false := by simp [hempty, hhere]
  have hway := foldlM_render hlocate (List.forall_mem_singleton.2 hname)
  rw [← hbelow.names, Path.foldlM_singleton] at hway
  have hstart : t.start (Path.join [path, name]) = t.start path := start_congr (by rw [hbelow.names])
  have hrender : (ofPath (Path.join [path, name])).render = Path.join [path, name] := hbelow.clean
  rw [hrender] at hway
  have hbelow : t.locate (Path.join [path, name]) =
      (access.lookUp (Path.join [path, name]) name).map fun _ => names ++ [name] := by
    unfold locate Access.lookUp
    rw [hstart, hway, step, hinfo]
    simp only [List.isEmpty_eq_false_iff.2 hbelow.ne_nil, List.isEmpty_eq_false_iff.2 hempty,
      Bool.not_false, Bool.true_and, Bool.false_eq_true, if_false,
      Path.step_of_not_isSkipped hskip hup]
    split
    · rfl
    split
    · rfl
    split
    · rfl
    split
    · rfl
    · simp [Except.map]
  unfold entry
  rw [hbelow]
  cases access.lookUp (Path.join [path, name]) name with
  | error cause => rfl
  | ok u => simp [Except.map, hentry]

/-- **What an open walk comes by** is at its path. -/
theorem FileTree.entry_under {t : FileTree} {enter : Bytes → Bool} {path : Bytes}
    {names : List Bytes} {e below : Entry} (h : t.entry path = .ok e) (he : e.isWellNamed = true)
    (hopen : Entry.IsOpen enter path e) (hreached : Entry.isReached enter path names = true)
    (hget : e.get? names = some below) : t.entry (Path.under path names) = .ok below := by
  induction names generalizing path e with
  | nil =>
    obtain rfl := Option.some.inj hget
    exact h
  | cons name names ih =>
    obtain ⟨access, entries, first, rfl, hfirst, hrest⟩ := Entry.exists_of_get?_cons hget
    obtain ⟨henter, hbelow⟩ := Bool.and_eq_true_iff.1 hreached
    obtain ⟨hlook, hopen⟩ := (Entry.isOpen_dir.1 hopen).2 henter name first hfirst
    have hentry := entry_join h (Entries.isName_of_get? he hfirst) hfirst
    rw [hlook] at hentry
    exact ih hentry (Entries.isWellNamed_get? he hfirst) hopen hbelow hrest

end GetterRename
