import GetterRename.File.Glob

/-!
# Matching a glob

A search walks a pattern and a path side by side.  A `*` first stands for nothing and a segment
`**` for no segment; when the walk fails, the last `*` takes one more character, and where it
meets a slash the last `**` takes one more segment.  A star that another one follows is settled:
it is never tried again.

- `Glob.Search` : the state of a walk, with the two places to go on from;
- `Glob.Search.step` : one step of it;
- `Glob.Search.run` : the outcome, which every step brings nearer (`Glob.Search.smaller_of_step`);
- `Glob.isMatch` : whether a pattern matches a path.
-/

namespace GetterRename.Glob

/-- What a pattern says of a path. -/
inductive Outcome where
  | matched
  | unmatched
  /-- The pattern fell apart: alternatives end at the first comma or brace, in a class too. -/
  | malformed
  deriving DecidableEq, Repr

namespace Outcome

/-- The outcome, if no other alternative is to be tried. -/
def final? : Outcome → Option Outcome
  | unmatched => none
  | outcome => some outcome

/-- The outcome of a failed walk before the given rest of the pattern. -/
def ofRest (pattern : List Nat) : Outcome :=
  if isValidFrom 0 pattern then unmatched else malformed

end Outcome

/-! ## The end of the path -/

/-- The patterns that match the end of a path: a directory counts for everything in it. -/
def emptyPatterns : List (List Nat) :=
  ["", "*", "**", "/**", "**/", "/**/"].map fun p => codes (Bytes.ofString p)

/-- What the pattern says of the end of a path. -/
def atEnd (pattern : List Nat) : Outcome :=
  if emptyPatterns.contains pattern then .matched
  else
    match pattern with
    | [] => .matched
    | c :: rest =>
      if c = '\x7b'.toNat then
        match _h : alternatives? 0 [] rest with
        | none => .malformed
        | some (parts, after) =>
          (parts.attach.findSome? fun ⟨part, _⟩ => (atEnd (part ++ after)).final?).getD .unmatched
      else .ofRest (c :: rest)
termination_by pattern.length
decreasing_by
  rename_i hp
  have := length_alternatives? _h hp
  simp only [List.length_append, List.length_cons, List.length_nil] at *
  omega

/-! ## Searches -/

/-- A place to go on from: a pattern and the rest of the path it was last tried on. -/
structure Retry where
  pattern : List Nat
  path : List Nat
  deriving DecidableEq, Repr

/-- A walk in progress. -/
structure Search where
  /-- What is left of the pattern. -/
  pattern : List Nat
  /-- What is left of the path. -/
  path : List Nat
  /-- Whether a segment starts here; only there a `**` is special. -/
  atStart : Bool
  /-- Behind the last `*` since the last segment `**`. -/
  star : Retry
  /-- Behind the last segment `**`. -/
  deep : Retry
  length_le_star : pattern.length ≤ star.pattern.length
  star_le_deep : star.pattern.length ≤ deep.pattern.length

namespace Search

/-- The start of a search: there is no star to go back to, so none of the path is left for one. -/
def start (pattern path : List Nat) : Search :=
  ⟨pattern, path, true, ⟨pattern, []⟩, ⟨pattern, []⟩, Nat.le_refl _, Nat.le_refl _⟩

/-- Goes on with less of the pattern and of the path. -/
def advance (s : Search) (pattern path : List Nat) (atStart : Bool)
    (h : pattern.length < s.pattern.length) : Search :=
  { s with
    pattern := pattern
    path := path
    atStart := atStart
    length_le_star := by have := s.length_le_star; omega }

/-- Goes on behind a `*` that stands for nothing. -/
def enterStar (s : Search) (pattern : List Nat) (h : pattern.length < s.pattern.length) : Search :=
  { s with
    pattern := pattern
    atStart := false
    star := ⟨pattern, s.path⟩
    length_le_star := Nat.le_refl _
    star_le_deep := by
      have := s.length_le_star
      have := s.star_le_deep
      simp only
      omega }

/-- Goes on behind a segment `**` that stands for no segment. -/
def enterDeep (s : Search) (pattern : List Nat) : Search :=
  ⟨pattern, s.path, true, ⟨pattern, []⟩, ⟨pattern, s.path⟩, Nat.le_refl _, Nat.le_refl _⟩

/-- Puts `pattern` where the rest of the pattern is, in the places to go on from too. -/
def substitute (s : Search) (pattern : List Nat) : Search :=
  let within (p : List Nat) := p.take (p.length - s.pattern.length) ++ pattern
  { pattern := pattern
    path := s.path
    atStart := true
    star := ⟨within s.star.pattern, s.star.path⟩
    deep := ⟨within s.deep.pattern, s.deep.path⟩
    length_le_star := by simp [within]
    star_le_deep := by
      have := s.star_le_deep
      simp only [within, List.length_append, List.length_take]
      omega }

/-- What is left of a path behind its first slash. -/
def behindSlash? : List Nat → Option (List Nat)
  | [] => none
  | c :: rest => if c = '/'.toNat then some rest else behindSlash? rest

/-- Lets the last segment `**` take one more segment. -/
def resumeDeep? (s : Search) : Option Search :=
  (behindSlash? s.deep.path).map fun rest =>
    ⟨s.deep.pattern, rest, true, ⟨s.deep.pattern, []⟩, ⟨s.deep.pattern, rest⟩, Nat.le_refl _,
      Nat.le_refl _⟩

/-- Where to go on when the walk fails. -/
def resume? (s : Search) : Option Search :=
  match s.star.path with
  | [] => s.resumeDeep?
  | c :: rest =>
    if c = '/'.toNat then s.resumeDeep?
    else
      some ⟨s.star.pattern, rest, false, ⟨s.star.pattern, rest⟩, s.deep, Nat.le_refl _,
        s.star_le_deep⟩

/-- What a step leads to. -/
inductive Step where
  | done (outcome : Outcome)
  /-- The searches to try in turn. -/
  | tryAll (searches : List Search)

/-- The step when the rest of the pattern does not fit the path. -/
def fail (s : Search) : Step :=
  match s.resume? with
  | some next => .tryAll [next]
  | none => .done (.ofRest s.pattern)

/-- One step of a search. -/
def step (s : Search) : Step :=
  match s.path with
  | [] => .done (atEnd s.pattern)
  | n :: path =>
    match hp : s.pattern with
    | [] => s.fail
    | c :: rest =>
      if c = '*'.toNat then
        match rest with
        | [] => .tryAll [s.enterStar [] (by simp [hp])]
        | d :: rest =>
          if d = '*'.toNat then
            if s.atStart && rest.isEmpty then .done .matched
            else if s.atStart && rest.head? == some '/'.toNat then
              .tryAll [s.enterDeep (rest.drop 1)]
            else .tryAll [s.enterStar rest (by simp only [hp, List.length_cons]; omega)]
          else .tryAll [s.enterStar (d :: rest) (by simp [hp])]
      else if c = '?'.toNat then
        if n = '/'.toNat then s.fail else .tryAll [s.advance rest path false (by simp [hp])]
      else if c = '['.toNat then
        match hc : CharSet.parse? rest with
        | none => .done .malformed
        | some (set, rest') =>
          if set.mem n then
            .tryAll [s.advance rest' path false (by
              have := CharSet.length_parse? hc
              simp only [hp, List.length_cons]
              omega)]
          else s.fail
      else if c = '\x7b'.toNat then
        match alternatives? 0 [] rest with
        | none => .done .malformed
        | some (parts, after) => .tryAll (parts.map fun part => s.substitute (part ++ after))
      else if c = '\\'.toNat then
        match rest with
        | [] => .done .malformed
        | d :: rest =>
          if d = n then
            .tryAll [s.advance rest path (d = '/'.toNat) (by simp only [hp, List.length_cons]; omega)]
          else s.fail
      else if c = n then .tryAll [s.advance rest path (c = '/'.toNat) (by simp [hp])]
      else s.fail

/-! ## Every step comes nearer to the end -/

/-- The order of progress: less pattern behind the last `**`, less path left for it, then the same
of the last `*`, then less of the pattern itself. -/
def Smaller (t s : Search) : Prop :=
  t.deep.pattern.length < s.deep.pattern.length ∨
    t.deep.pattern.length = s.deep.pattern.length ∧
      (t.deep.path.length < s.deep.path.length ∨
        t.deep.path.length = s.deep.path.length ∧
          (t.star.pattern.length < s.star.pattern.length ∨
            t.star.pattern.length = s.star.pattern.length ∧
              (t.star.path.length < s.star.path.length ∨
                t.star.path.length = s.star.path.length ∧ t.pattern.length < s.pattern.length)))

theorem smaller_advance (s : Search) {pattern path : List Nat} {atStart : Bool}
    (h : pattern.length < s.pattern.length) : (s.advance pattern path atStart h).Smaller s :=
  .inr ⟨rfl, .inr ⟨rfl, .inr ⟨rfl, .inr ⟨rfl, h⟩⟩⟩⟩

theorem smaller_enterStar (s : Search) {pattern : List Nat}
    (h : pattern.length < s.pattern.length) : (s.enterStar pattern h).Smaller s :=
  .inr ⟨rfl, .inr ⟨rfl, .inl (Nat.lt_of_lt_of_le h s.length_le_star)⟩⟩

theorem smaller_enterDeep (s : Search) {pattern : List Nat}
    (h : pattern.length < s.pattern.length) : (s.enterDeep pattern).Smaller s :=
  .inl (Nat.lt_of_lt_of_le h (Nat.le_trans s.length_le_star s.star_le_deep))

theorem smaller_substitute (s : Search) {pattern : List Nat}
    (h : pattern.length < s.pattern.length) : (s.substitute pattern).Smaller s := by
  have := s.length_le_star
  have := s.star_le_deep
  refine .inl ?_
  simp only [substitute, List.length_append, List.length_take]
  omega

theorem length_behindSlash? {path rest : List Nat} (h : behindSlash? path = some rest) :
    rest.length < path.length := by
  fun_induction behindSlash? path with
  | case1 => simp at h
  | case2 => simp_all
  | case3 _ _ _ ih => have := ih h; simp only [List.length_cons]; omega

theorem smaller_resumeDeep? {s t : Search} (h : s.resumeDeep? = some t) : t.Smaller s := by
  obtain ⟨rest, hr, rfl⟩ := Option.map_eq_some_iff.1 h
  exact .inr ⟨rfl, .inl (length_behindSlash? hr)⟩

theorem smaller_resume? {s t : Search} (h : s.resume? = some t) : t.Smaller s := by
  simp only [resume?] at h
  split at h
  · exact smaller_resumeDeep? h
  · rename_i hp
    split at h
    · exact smaller_resumeDeep? h
    · simp only [Option.some.injEq] at h
      subst h
      refine .inr ⟨rfl, .inr ⟨rfl, .inr ⟨rfl, .inl ?_⟩⟩⟩
      simp [hp]

theorem smaller_fail {s t : Search} {ts : List Search} (h : s.fail = .tryAll ts) (ht : t ∈ ts) :
    t.Smaller s := by
  simp only [fail] at h
  split at h
  · rename_i hr
    simp only [Step.tryAll.injEq] at h
    subst h
    simp only [List.mem_singleton] at ht
    exact ht ▸ smaller_resume? hr
  · simp at h

/-- A step leads to smaller searches only. -/
theorem smaller_of_step {s t : Search} {ts : List Search} (h : s.step = .tryAll ts)
    (ht : t ∈ ts) : t.Smaller s := by
  have one {u : Search} (hu : u.Smaller s) (h : Step.tryAll [u] = .tryAll ts) : t.Smaller s := by
    simp only [Step.tryAll.injEq] at h
    subst h
    simp only [List.mem_singleton] at ht
    exact ht ▸ hu
  unfold step at h
  split at h
  · simp at h
  · split at h
    · exact smaller_fail h ht
    · rename_i c rest hp
      split at h
      · split at h
        · exact one (smaller_enterStar ..) h
        · split at h
          · split at h
            · simp at h
            · split at h
              · refine one (smaller_enterDeep s ?_) h
                simp only [hp, List.length_cons, List.length_drop]
                omega
              · exact one (smaller_enterStar ..) h
          · exact one (smaller_enterStar ..) h
      · split at h
        · split at h
          · exact smaller_fail h ht
          · exact one (smaller_advance ..) h
        · split at h
          · split at h
            · simp at h
            · split at h
              · exact one (smaller_advance ..) h
              · exact smaller_fail h ht
          · split at h
            · split at h
              · simp at h
              · rename_i ha
                simp only [Step.tryAll.injEq] at h
                subst h
                obtain ⟨part, hpart, rfl⟩ := List.mem_map.1 ht
                refine smaller_substitute s ?_
                have := length_alternatives? ha hpart
                simp only [hp, List.length_append, List.length_cons, List.length_nil] at *
                omega
            · split at h
              · split at h
                · simp at h
                · split at h
                  · exact one (smaller_advance ..) h
                  · exact smaller_fail h ht
              · split at h
                · exact one (smaller_advance ..) h
                · exact smaller_fail h ht

/-- The outcome of a search. -/
def run (s : Search) : Outcome :=
  match _h : s.step with
  | .done outcome => outcome
  | .tryAll searches =>
    (searches.attach.findSome? fun ⟨t, _⟩ => t.run.final?).getD .unmatched
termination_by (s.deep.pattern.length, s.deep.path.length, s.star.pattern.length,
  s.star.path.length, s.pattern.length)
decreasing_by
  rename_i ht
  have := smaller_of_step _h ht
  simp only [Prod.lex_def]
  exact this

end Search

/-- Whether the pattern matches the path. -/
def isMatch (pattern path : Bytes) : Bool :=
  (Search.start (codes pattern) (codes path)).run == .matched

end GetterRename.Glob
