import GetterRename.Text.Utf8

/-!
# Globs

Patterns over slash-separated paths: `*` stands for a run of characters without a slash, `?` for
one character other than a slash, `[...]` for one character of a class, `{a,b}` for one of several
texts, and a backslash takes the next character as it is.  A whole segment `**` stands for any
number of segments.

- `Glob.CharSet.parse?` : the class behind an opening bracket;
- `Glob.alternatives?` : the alternatives behind an opening brace;
- `Glob.isValid` : whether a pattern is well formed.

Patterns are lists of code points here; `Glob.codes` makes them from bytes.
-/

namespace GetterRename.Glob

/-- The code points of a text. -/
def codes (text : Bytes) : List Nat :=
  (Utf8.chars text).map fun c => c.1.getD Utf8.replacement

/-! ## Classes of characters -/

/-- A class of characters: single ones and ranges. -/
structure CharSet where
  negated : Bool
  ranges : List (Nat × Nat)
  deriving DecidableEq, Repr

namespace CharSet

/-- Whether the code point is in the class. -/
def mem (s : CharSet) (code : Nat) : Bool :=
  (s.ranges.any fun r => r.1 ≤ code && code ≤ r.2) != s.negated

/-- The characters up to the closing bracket, each with whether it is escaped, and what follows
the bracket; nothing without a bracket. -/
def members? : List Nat → Option (List (Nat × Bool) × List Nat)
  | [] => none
  | [c] => if c = ']'.toNat then some ([], []) else none
  | c :: d :: rest =>
    if c = ']'.toNat then some ([], d :: rest)
    else if c = '\\'.toNat then (members? rest).map fun (more, rest) => ((d, true) :: more, rest)
    else (members? (d :: rest)).map fun (more, rest) => ((c, false) :: more, rest)

/-- The ranges of the characters of a class. `low` is the character before them, which a `-` with a
character behind it extends to a range. -/
def rangesOf (low : Option Nat) : List (Nat × Bool) → List (Nat × Nat)
  | [] => []
  | [(c, _)] => [(c, c)]
  | (c, escaped) :: (d, e) :: rest =>
    match low with
    | some l =>
      if c = '-'.toNat && !escaped then (l, d) :: rangesOf none rest
      else (c, c) :: rangesOf (some c) ((d, e) :: rest)
    | none => (c, c) :: rangesOf (some c) ((d, e) :: rest)

/-- The class behind an opening bracket and what follows it. An empty class is none. -/
def parse? (pattern : List Nat) : Option (CharSet × List Nat) :=
  let negated := pattern.head? == some '!'.toNat || pattern.head? == some '^'.toNat
  match members? (pattern.drop (if negated then 1 else 0)) with
  | some (m :: more, rest) => some (⟨negated, rangesOf none (m :: more)⟩, rest)
  | _ => none

theorem length_members? {pattern rest : List Nat} {ms : List (Nat × Bool)}
    (h : members? pattern = some (ms, rest)) : rest.length < pattern.length := by
  fun_induction members? pattern generalizing ms rest with
  | case1 => simp at h
  | case2 => simp_all
  | case3 => simp at h
  | case4 => simp_all
  | case5 _ _ _ ih =>
    obtain ⟨⟨more, after⟩, hm, he⟩ := Option.map_eq_some_iff.1 h
    have := ih hm
    simp only [Prod.mk.injEq] at he
    simp only [← he.2, List.length_cons] at *
    omega
  | case6 c d rest _ _ ih =>
    obtain ⟨⟨more, after⟩, hm, he⟩ := Option.map_eq_some_iff.1 h
    have := ih hm
    simp only [Prod.mk.injEq] at he
    simp only [← he.2, List.length_cons] at *
    omega

theorem length_parse? {pattern rest : List Nat} {set : CharSet}
    (h : parse? pattern = some (set, rest)) : rest.length < pattern.length := by
  simp only [parse?] at h
  split at h
  · rename_i hm
    have := length_members? hm
    simp only [Option.some.injEq, Prod.mk.injEq] at h
    simp only [← h.2, List.length_drop] at *
    omega
  · simp at h

end CharSet

/-! ## Alternatives -/

/-- The alternatives up to the brace that closes them and what follows it; nothing without a
brace. `depth` counts the braces opened since, and `part` is the alternative so far, the last
character first. -/
def alternatives? (depth : Nat) (part : List Nat) :
    List Nat → Option (List (List Nat) × List Nat)
  | [] => none
  | [c] => if c = '\x7d'.toNat && depth = 0 then some ([part.reverse], []) else none
  | c :: d :: rest =>
    if c = '\\'.toNat then alternatives? depth (d :: c :: part) rest
    else if c = '\x7b'.toNat then alternatives? (depth + 1) (c :: part) (d :: rest)
    else if c = '\x7d'.toNat then
      match depth with
      | 0 => some ([part.reverse], d :: rest)
      | n + 1 => alternatives? n (c :: part) (d :: rest)
    else if c = ','.toNat && depth = 0 then
      (alternatives? 0 [] (d :: rest)).map fun (parts, rest) => (part.reverse :: parts, rest)
    else alternatives? depth (c :: part) (d :: rest)

theorem length_rest_alternatives? {depth : Nat} {part pattern : List Nat}
    {parts : List (List Nat)} {rest : List Nat}
    (h : alternatives? depth part pattern = some (parts, rest)) : rest.length < pattern.length := by
  fun_induction alternatives? depth part pattern generalizing parts rest with
  | case1 => simp at h
  | case2 => simp_all
  | case3 => simp at h
  | case4 _ _ _ _ ih => have := ih h; simp only [List.length_cons]; omega
  | case5 _ _ _ _ _ ih => have := ih h; simp only [List.length_cons] at *; omega
  | case6 => simp_all
  | case7 _ _ _ _ _ _ ih => have := ih h; simp only [List.length_cons] at *; omega
  | case8 _ _ _ _ _ _ _ _ _ ih =>
    obtain ⟨⟨parts', rest'⟩, hp, he⟩ := Option.map_eq_some_iff.1 h
    simp only [Prod.mk.injEq] at he
    have := ih hp
    simp only [← he.2, List.length_cons] at *
    omega
  | case9 _ _ _ _ _ _ _ _ _ ih => have := ih h; simp only [List.length_cons] at *; omega

/-- An alternative with what follows the braces is shorter than the braces with it. -/
theorem length_alternatives? {depth : Nat} {part pattern : List Nat} {parts : List (List Nat)}
    {rest alt : List Nat} (h : alternatives? depth part pattern = some (parts, rest))
    (ha : alt ∈ parts) : alt.length + rest.length < part.length + pattern.length := by
  fun_induction alternatives? depth part pattern generalizing parts rest with
  | case1 => simp at h
  | case2 =>
    simp only [Option.some.injEq, Prod.mk.injEq] at h
    obtain ⟨rfl, rfl⟩ := h
    simp only [List.mem_singleton] at ha
    simp [ha]
  | case3 => simp at h
  | case4 _ _ _ _ ih => have := ih h ha; simp only [List.length_cons] at *; omega
  | case5 _ _ _ _ _ ih => have := ih h ha; simp only [List.length_cons] at *; omega
  | case6 =>
    simp only [Option.some.injEq, Prod.mk.injEq] at h
    obtain ⟨rfl, rfl⟩ := h
    simp only [List.mem_singleton] at ha
    simp [ha]
  | case7 _ _ _ _ _ _ ih => have := ih h ha; simp only [List.length_cons] at *; omega
  | case8 _ _ _ _ _ _ _ _ _ ih =>
    obtain ⟨⟨parts', rest'⟩, hp, he⟩ := Option.map_eq_some_iff.1 h
    simp only [Prod.mk.injEq] at he
    obtain ⟨rfl, rfl⟩ := he
    rcases List.mem_cons.1 ha with rfl | ha
    · have := length_rest_alternatives? hp
      simp only [List.length_cons, List.length_reverse] at *
      omega
    · have := ih hp ha
      simp only [List.length_cons, List.length_nil] at *
      omega
  | case9 _ _ _ _ _ _ _ _ _ ih => have := ih h ha; simp only [List.length_cons] at *; omega

/-! ## Well-formed patterns -/

/-- Whether the pattern is well formed behind `depth` open braces: no lone backslash at its end, no
open or empty class, no brace without its partner. -/
def isValidFrom (depth : Nat) (pattern : List Nat) : Bool :=
  match pattern with
  | [] => depth == 0
  | c :: rest =>
    if c = '\\'.toNat then
      match rest with
      | [] => false
      | _ :: rest' => isValidFrom depth rest'
    else if c = '['.toNat then
      match _h : CharSet.parse? rest with
      | none => false
      | some (_, rest') => isValidFrom depth rest'
    else if c = '\x7b'.toNat then isValidFrom (depth + 1) rest
    else if c = '\x7d'.toNat then depth != 0 && isValidFrom (depth - 1) rest
    else isValidFrom depth rest
termination_by pattern.length
decreasing_by
  · simp only [List.length_cons]; omega
  · have := CharSet.length_parse? _h
    simp only [List.length_cons]
    omega
  all_goals simp

/-- Whether the pattern is well formed. -/
def isValid (pattern : Bytes) : Bool := isValidFrom 0 (codes pattern)

end GetterRename.Glob
