import GetterRename.Proofs.Bounds.Access
import GetterRename.Source.Outline

/-!
# Angle brackets, with positions

The loops over a token list that count angle brackets.  The depth behind a token takes the token in
front of it into account, which is read by its position as well.

* `Checked.track?_eq` — the depth behind the token at a position;
* `Checked.skipAngles?_eq`, `Checked.scanUntil?_eq`, `Checked.split?_eq` — the loops;
* `Checked.formatTypeName?_eq` — the name of a type.
-/

namespace GetterRename.Checked

/-! ### The loops -/

section Loops

variable (tokens : List Token)

def followsArrow? (i : Nat) : Option Bool :=
  if 0 < i then (get? tokens ((i : Int) - 1)).map Angle.isArrowHead else some false

def track? (i depth : Nat) : Option Nat := do
  let t ← get? tokens i
  if t.isPunct '<' then some (depth + 1)
  else if t.isPunct '>' then
    let isArrow ← followsArrow? tokens i
    if isArrow then some depth else if 0 < depth then some (depth - 1) else some depth
  else some depth

/-- The position behind the token that brings the depth to zero. -/
def skipAnglesFrom? : Nat → Nat → Nat → Option Nat
  | 0, _, _ => none
  | n + 1, i, depth =>
    if i < tokens.length then do
      let depth ← track? tokens i depth
      if depth = 0 then some (i + 1) else skipAnglesFrom? n (i + 1) depth
    else some i

def skipAngles? (i : Nat) : Option Nat := skipAnglesFrom? tokens (turns tokens) i 0

def scanUntilFrom? (stop : Token → Bool) : Nat → Nat → Nat → Option Nat
  | 0, _, _ => none
  | n + 1, i, depth =>
    if i < tokens.length then do
      let t ← get? tokens i
      if depth = 0 && stop t then some i
      else
        let depth ← track? tokens i depth
        scanUntilFrom? stop n (i + 1) depth
    else some i

/-- The position of the first token from `i` on, outside of angle brackets, that satisfies `stop`. -/
def scanUntil? (stop : Token → Bool) (i : Nat) : Option Nat :=
  scanUntilFrom? tokens stop (turns tokens) i 0

/-- The parts with the one between two positions behind them, unless that is empty. -/
def cut? (start stop : Nat) (parts : List (List Token)) : Option (List (List Token)) :=
  if start < stop then do
    let part ← slice? tokens start stop
    some (parts ++ [part])
  else some parts

/-- The parts between separators; the part that starts at `start` is not complete. -/
def splitFrom? (sep : Char) : Nat → Nat → Nat → Nat → List (List Token) →
    Option (List (List Token))
  | 0, _, _, _, _ => none
  | n + 1, i, start, depth, parts =>
    if i < tokens.length then do
      let t ← get? tokens i
      if depth = 0 && t.isPunct sep then
        let parts ← cut? tokens start i parts
        splitFrom? sep n (i + 1) (i + 1) depth parts
      else
        let depth ← track? tokens i depth
        splitFrom? sep n (i + 1) start depth parts
    else cut? tokens start tokens.length parts

def split? (sep : Char) : Option (List (List Token)) :=
  splitFrom? tokens sep (turns tokens) 0 0 0 []

/-- The last identifier outside of angle brackets, `name` if there is none from `i` on. -/
def lastSegmentFrom? : Nat → Nat → Nat → Bytes → Option Bytes
  | 0, _, _, _ => none
  | n + 1, i, depth, name =>
    if i < tokens.length then do
      let t ← get? tokens i
      let name := if depth = 0 && t.isName then t.text else name
      let depth ← track? tokens i depth
      lastSegmentFrom? n (i + 1) depth name
    else some name

def lastSegment? : Option Bytes := lastSegmentFrom? tokens (turns tokens) 0 0 []

end Loops

/-! ### What they find -/

variable {tokens rest : List Token} {i depth n : Nat}

def before (tokens : List Token) (i : Nat) : Option Token := if 0 < i then tokens[i - 1]? else none

theorem getElem?_of_drop (h : tokens.drop i = rest) (k : Nat) : tokens[i + k]? = rest[k]? := by
  rw [← h, List.getElem?_drop]

theorem lt_length_of_drop {t : Token} (h : tokens.drop i = t :: rest) : i < tokens.length := by
  have := congrArg List.length h
  rw [List.length_drop, List.length_cons] at this
  omega

theorem followsArrow?_eq (h : i ≤ tokens.length) :
    followsArrow? tokens i = some ((before tokens i).any Angle.isArrowHead) := by
  unfold followsArrow? before
  split
  · rename_i hpos
    rw [get?_pred tokens hpos, List.getElem?_eq_getElem (by omega)]
    rfl
  · rfl

theorem track?_eq {t : Token} (h : tokens.drop i = t :: rest) (depth : Nat) :
    track? tokens i depth = some (Angle.step (before tokens i) t depth) := by
  have ht : tokens[i]? = some t := getElem?_of_drop h 0
  have hi : i ≤ tokens.length := Nat.le_of_lt (lt_length_of_drop h)
  simp only [track?, get?_natCast, ht, followsArrow?_eq hi, Option.bind_eq_bind, Option.bind_some,
    Angle.step]
  split
  · rfl
  by_cases hgt : t.isPunct '>' = true
  · rw [hgt, if_pos rfl]
    cases (before tokens i).any Angle.isArrowHead with
    | true => rfl
    | false =>
      simp only [Bool.false_eq_true, if_false, Bool.not_false, Bool.and_self, if_true]
      split
      · rfl
      · exact congrArg some (by omega)
  · simp only [hgt, Bool.false_and, Bool.false_eq_true, if_false]

theorem drop_succ {t : Token} (h : tokens.drop i = t :: rest) : tokens.drop (i + 1) = rest := by
  rw [← List.tail_drop, h]
  rfl

theorem length_of_drop (h : tokens.drop i = rest) : rest.length < turns tokens := by
  rw [← h, List.length_drop, turns]
  omega

theorem before_of_drop {t : Token} (h : tokens.drop i = t :: rest) :
    before tokens (i + 1) = some t := getElem?_of_drop h 0

theorem skipAnglesFrom?_eq (h : tokens.drop i = rest) (hn : rest.length < n) :
    skipAnglesFrom? tokens n i depth = some (i + Angle.reach (before tokens i) depth rest) := by
  induction n generalizing i depth rest with
  | zero => omega
  | succ n ih =>
    unfold skipAnglesFrom?
    cases rest with
    | nil => rw [if_neg (by simpa using h)]; rfl
    | cons t rest =>
      rw [if_pos (lt_length_of_drop h), track?_eq h, Option.bind_eq_bind, Option.bind_some,
        Angle.reach]
      cases Angle.step (before tokens i) t depth with
      | zero => rfl
      | succ depth =>
        rw [if_neg (Nat.succ_ne_zero depth), ih (drop_succ h) (by simpa using hn), before_of_drop h]
        show _ = some (i + (Angle.reach (some t) (depth + 1) rest + 1))
        exact congrArg some (by omega)

theorem scanUntilFrom?_eq (stop : Token → Bool) (h : tokens.drop i = rest) (hn : rest.length < n) :
    scanUntilFrom? tokens stop n i depth =
      some (i + Angle.lengthUntil stop (before tokens i) depth rest) := by
  induction n generalizing i depth rest with
  | zero => omega
  | succ n ih =>
    unfold scanUntilFrom?
    cases rest with
    | nil => rw [if_neg (by simpa using h)]; rfl
    | cons t rest =>
      have ht : tokens[i]? = some t := getElem?_of_drop h 0
      rw [if_pos (lt_length_of_drop h), get?_natCast, ht, Angle.lengthUntil]
      simp only [Option.bind_eq_bind, Option.bind_some, track?_eq h]
      split
      · rfl
      · rw [ih (drop_succ h) (by simpa using hn), before_of_drop h]
        exact congrArg some (by omega)

theorem length_of_part {start : Nat} {part : List Token} (hi : i ≤ tokens.length)
    (hpart : (tokens.take i).drop start = part.reverse) : i - start = part.length := by
  have hlength := congrArg List.length hpart
  rwa [List.length_drop, List.length_take_of_le hi, List.length_reverse] at hlength

theorem part_succ {start : Nat} {t : Token} {part : List Token} (h : tokens.drop i = t :: rest)
    (hstart : start ≤ i) (hpart : (tokens.take i).drop start = part.reverse) :
    (tokens.take (i + 1)).drop start = (t :: part).reverse := by
  have ht : tokens[i]? = some t := getElem?_of_drop h 0
  have hle : start ≤ (tokens.take i).length := by
    rw [List.length_take_of_le (Nat.le_of_lt (lt_length_of_drop h))]
    exact hstart
  rw [List.take_add_one, ht, List.drop_append_of_le_length hle, hpart, List.reverse_cons]
  rfl

/-- A part that was collected from the front is the slice from its start. -/
theorem cut?_eq {start : Nat} {part : List Token} (hstart : start ≤ i) (hi : i ≤ tokens.length)
    (hpart : (tokens.take i).drop start = part.reverse) (parts : List (List Token)) :
    cut? tokens start i parts =
      some (parts ++ if part.isEmpty then [] else [part.reverse]) := by
  have hlength := length_of_part hi hpart
  unfold cut?
  cases part with
  | nil =>
    rw [List.length_nil] at hlength
    rw [if_neg (by omega)]
    exact congrArg some (List.append_nil parts).symm
  | cons t part =>
    rw [List.length_cons] at hlength
    rw [if_pos (by omega), slice?_natCast tokens hstart hi, hpart]
    rfl

theorem splitFrom?_eq (sep : Char) {start : Nat} {part : List Token} {parts : List (List Token)}
    (h : tokens.drop i = rest) (hn : rest.length < n) (hstart : start ≤ i) (hi : i ≤ tokens.length)
    (hpart : (tokens.take i).drop start = part.reverse) :
    splitFrom? tokens sep n i start depth parts =
      some (parts ++ Angle.splitFrom sep (before tokens i) depth part rest) := by
  induction n generalizing i start depth part parts rest with
  | zero => omega
  | succ n ih =>
    unfold splitFrom?
    cases rest with
    | nil =>
      obtain rfl : i = tokens.length := by
        have : tokens.length ≤ i := by simpa using h
        omega
      rw [if_neg (Nat.lt_irrefl _), cut?_eq hstart hi hpart, Angle.splitFrom]
    | cons t rest =>
      have ht : tokens[i]? = some t := getElem?_of_drop h 0
      have hlt := lt_length_of_drop h
      rw [if_pos hlt, get?_natCast, ht, Angle.splitFrom]
      simp only [Option.bind_eq_bind, Option.bind_some, track?_eq h]
      split
      · -- a separator outside of angle brackets
        rename_i hsep
        obtain rfl : depth = 0 := by
          simp only [Bool.and_eq_true, decide_eq_true_eq] at hsep
          exact hsep.1
        have hempty : (tokens.take (i + 1)).drop (i + 1) = ([] : List Token).reverse := by simp
        rw [cut?_eq hstart hi hpart, Option.bind_some, ih (drop_succ h) (by simpa using hn)
          (Nat.le_refl (i + 1)) hlt hempty, before_of_drop h, List.append_assoc]
        cases part <;> rfl
      · rw [ih (drop_succ h) (by simpa using hn) (Nat.le_succ_of_le hstart) hlt
          (part_succ h hstart hpart), before_of_drop h]

theorem lastSegmentFrom?_eq {name : Bytes} (h : tokens.drop i = rest) (hn : rest.length < n) :
    lastSegmentFrom? tokens n i depth name =
      some (TypeName.lastSegmentFrom (before tokens i) depth name rest) := by
  induction n generalizing i depth name rest with
  | zero => omega
  | succ n ih =>
    unfold lastSegmentFrom?
    cases rest with
    | nil => rw [if_neg (by simpa using h)]; rfl
    | cons t rest =>
      have ht : tokens[i]? = some t := getElem?_of_drop h 0
      rw [if_pos (lt_length_of_drop h), get?_natCast, ht, TypeName.lastSegmentFrom]
      simp only [Option.bind_eq_bind, Option.bind_some, track?_eq h]
      rw [ih (drop_succ h) (by simpa using hn), before_of_drop h]

theorem skipAngles?_eq (h : tokens.drop i = rest) :
    skipAngles? tokens i = some (i + Angle.reach (before tokens i) 0 rest) :=
  skipAnglesFrom?_eq h (length_of_drop h)

theorem scanUntil?_eq (stop : Token → Bool) (h : tokens.drop i = rest) :
    scanUntil? tokens stop i = some (i + Angle.lengthUntil stop (before tokens i) 0 rest) :=
  scanUntilFrom?_eq stop h (length_of_drop h)

theorem split?_eq (tokens : List Token) (sep : Char) :
    split? tokens sep = some (Angle.split sep tokens) :=
  splitFrom?_eq sep (List.drop_zero : tokens.drop 0 = tokens) (Nat.lt_succ_self _) (Nat.le_refl 0)
    (Nat.zero_le _) rfl

theorem lastSegment?_eq (tokens : List Token) :
    lastSegment? tokens = some (TypeName.lastSegment tokens) :=
  lastSegmentFrom?_eq (i := 0) rfl (Nat.lt_succ_self _)

/-- The parts between separators are not empty. -/
theorem ne_nil_of_mem_splitFrom {sep : Char} {last : Option Token} {part ts : List Token}
    (h : ts ∈ Angle.splitFrom sep last depth part rest) : ts ≠ [] := by
  induction rest generalizing last depth part with
  | nil =>
    rw [Angle.splitFrom] at h
    split at h
    · cases h
    · rename_i hpart
      rw [List.mem_singleton] at h
      simpa [h] using hpart
  | cons t rest ih =>
    rw [Angle.splitFrom] at h
    split at h
    · split at h
      · exact ih h
      · rename_i hpart
        rcases List.mem_cons.1 h with rfl | h
        · simpa using hpart
        · exact ih h
    · exact ih h

theorem ne_nil_of_mem_split {sep : Char} {ts : List Token} (h : ts ∈ Angle.split sep tokens) :
    ts ≠ [] := ne_nil_of_mem_splitFrom h

theorem get?_zero_of_mem_split {sep : Char} {ts : List Token} (h : ts ∈ Angle.split sep tokens) :
    ∃ t rest, ts = t :: rest ∧ get? ts 0 = some t := by
  obtain ⟨t, rest, rfl⟩ := List.exists_cons_of_ne_nil (ne_nil_of_mem_split h)
  exact ⟨t, rest, rfl, get?_zero _⟩

/-! ### Names of types -/

def refLifetime? (tokens : List Token) : Option (Bytes × List Token) :=
  if 2 ≤ tokens.length then do
    let tick ← get? tokens 0
    if tick.isPunct '\'' then
      let name ← get? tokens 1
      let rest ← slice? tokens 2 tokens.length
      some ("'" ++ name.text ++ Bytes.ofString " ", rest)
    else some ([], tokens)
  else some ([], tokens)

def skipWord? (words : List String) (tokens : List Token) : Option (Bool × List Token) :=
  if 0 < tokens.length then do
    let first ← get? tokens 0
    if words.any first.isIdent then
      let rest ← slice? tokens 1 tokens.length
      some (true, rest)
    else some (false, tokens)
  else some (false, tokens)

def bounds? : List (List Token) → Option (List Bytes)
  | [] => some []
  | bound :: rest => do
    let first ← get? bound 0
    let names ← bounds? rest
    if first.isPunct '\'' then some names
    else
      let name ← lastSegment? bound
      some (name :: names)

def elem? (inner : List Token) : Option (List Token) := do
  let parts ← split? inner ';'
  if 0 < parts.length then get? parts 0 else some inner

def formatTypeName? : Nat → List Token → Option Bytes
  | 0, _ => none
  | n + 1, tokens =>
    if tokens.length = 0 then some []
    else do
      let first ← get? tokens 0
      let rest ← slice? tokens 1 tokens.length
      if first.isPunct '&' then
        let (lifetime, rest) ← refLifetime? rest
        let (isMut, rest) ← skipWord? ["mut"] rest
        let name ← formatTypeName? n rest
        some ("&" ++ (lifetime ++ if isMut then Bytes.ofString "mut " else []) ++ name)
      else if first.isPunct '*' then
        let (_, rest) ← skipWord? ["const", "mut"] rest
        let name ← formatTypeName? n rest
        some ("*" ++ name)
      else
        match first with
        | .group .bracket inner _ => do
          let elem ← elem? inner
          let name ← formatTypeName? n elem
          some ("[" ++ name ++ Bytes.ofString "]")
        | .group .paren inner _ => do
          let elems ← split? inner ','
          let names ← elems.mapM (formatTypeName? n)
          some ("(" ++ Bytes.join ", " names ++ Bytes.ofString ")")
        | _ =>
          if first.isIdent "dyn" then do
            let parts ← split? rest '+'
            let names ← bounds? parts
            some ("dyn " ++ Bytes.join " + " names)
          else lastSegment? tokens

theorem skipWord?_eq (words : List String) (tokens : List Token) :
    skipWord? words tokens = some (tokens.head?.any fun t => words.any (t.isIdent ·),
      tokens.drop (if tokens.head?.any fun t => words.any (t.isIdent ·) then 1 else 0)) := by
  cases tokens with
  | nil => rfl
  | cons t rest =>
    have hslice : slice? (t :: rest) 1 (t :: rest).length = some rest :=
      slice?_rest (t :: rest) (by simp)
    rw [skipWord?, if_pos (by simp), get?_zero, List.head?_cons, hslice]
    simp only [Option.bind_eq_bind, Option.bind_some]
    show _ = some (words.any (t.isIdent ·),
      (t :: rest).drop (if words.any (t.isIdent ·) then 1 else 0))
    cases words.any (t.isIdent ·) <;> rfl

/-- The lifetime and the `mut` behind a `&` are those of the name. -/
theorem refMarks_eq (tokens : List Token) : ∃ lifetime rest,
    refLifetime? tokens = some (lifetime, rest) ∧
      (TypeName.refMarks tokens).1 = lifetime ++
        (if rest.head?.any (·.isIdent "mut") then Bytes.ofString "mut " else []) ∧
      tokens.drop (TypeName.refMarks tokens).2 =
        rest.drop (if rest.head?.any (·.isIdent "mut") then 1 else 0) := by
  obtain - | ⟨tick, - | ⟨name, rest⟩⟩ := tokens
  · exact ⟨[], [], rfl, rfl, rfl⟩
  · refine ⟨[], [tick], rfl, ?_⟩
    cases hmut : tick.isIdent "mut" <;> simp [TypeName.refMarks, hmut]
  · have hslice : slice? (tick :: name :: rest) 2 (tick :: name :: rest).length = some rest :=
      slice?_rest (tick :: name :: rest) (by simp)
    have hsecond : get? (tick :: name :: rest) 1 = some name := get?_natCast _ 1
    cases htick : tick.isPunct '\'' with
    | true =>
      refine ⟨"'" ++ name.text ++ Bytes.ofString " ", rest, ?_, ?_⟩
      · rw [refLifetime?, if_pos (by simp), get?_zero, hsecond, hslice]
        simp [htick]
      · cases hmut : rest.head?.any (·.isIdent "mut") <;> simp [TypeName.refMarks, htick, hmut]
    | false =>
      refine ⟨[], tick :: name :: rest, ?_, ?_⟩
      · rw [refLifetime?, if_pos (by simp), get?_zero]
        simp [htick]
      · cases hmut : tick.isIdent "mut" <;> simp [TypeName.refMarks, htick, hmut]

theorem bounds?_eq {parts : List (List Token)} (h : ∀ part ∈ parts, part ≠ []) :
    bounds? parts = some (parts.filterMap fun bound =>
      if bound.head?.any (·.isPunct '\'') then none else some (TypeName.lastSegment bound)) := by
  induction parts with
  | nil => rfl
  | cons part parts ih =>
    obtain ⟨first, rest, rfl⟩ := List.exists_cons_of_ne_nil (h part List.mem_cons_self)
    have hrest := ih fun part hpart => h part (List.mem_cons_of_mem _ hpart)
    simp only [bounds?, get?_zero, List.head?_cons, hrest, lastSegment?_eq, Option.bind_eq_bind,
      Option.bind_some, List.filterMap_cons, Option.any_some]
    split
    · rename_i htick
      simp [htick]
    · rename_i htick
      simp [htick]

theorem elem?_eq (inner : List Token) :
    elem? inner = some ((Angle.split ';' inner).head?.getD inner) := by
  rw [elem?, split?_eq, Option.bind_eq_bind, Option.bind_some]
  cases Angle.split ';' inner with
  | nil => rfl
  | cons part parts => simp

theorem weightL_elem_le (inner : List Token) :
    Token.weightL ((Angle.split ';' inner).head?.getD inner) ≤ Token.weightL inner := by
  cases hparts : Angle.split ';' inner with
  | nil => exact Nat.le_refl _
  | cons part parts => exact Angle.weightL_mem_split (hparts ▸ List.mem_cons_self)

theorem formatTypeName?_eq {n : Nat} {tokens : List Token} (h : Token.weightL tokens < n) :
    formatTypeName? n tokens = some (TypeName.format tokens) := by
  induction n generalizing tokens with
  | zero => omega
  | succ n ih =>
    cases tokens with
    | nil => rw [TypeName.format]; rfl
    | cons first rest =>
      have hfirst := first.weight_pos
      rw [Token.weightL_cons] at h
      have hslice : slice? (first :: rest) 1 (first :: rest).length = some rest :=
        slice?_rest (first :: rest) (by simp)
      rw [formatTypeName?, if_neg (by simp), TypeName.format.eq_def]
      simp only [get?_zero, List.head?_cons, hslice, Option.bind_eq_bind, Option.bind_some]
      split
      · obtain ⟨lifetime, behind, hlifetime, hmarks, hdrop⟩ := refMarks_eq rest
        have hle := Token.weightL_drop_le (TypeName.refMarks rest).2 rest
        rw [hmarks, hdrop]
        rw [hdrop] at hle
        simp only [hlifetime, Option.bind_some, skipWord?_eq, List.any_cons, List.any_nil,
          Bool.or_false]
        rw [ih (by omega)]
        rfl
      split
      · have hle := Token.weightL_drop_le
          (if rest.head?.any fun t => t.isIdent "const" || t.isIdent "mut" then 1 else 0) rest
        simp only [skipWord?_eq, Option.bind_some, List.any_cons, List.any_nil, Bool.or_false]
        rw [ih (by omega)]
        rfl
      cases first with
      | group d inner p =>
        have hinner : Token.weightL inner < n := by
          rw [Token.weight_group] at h
          omega
        cases d with
        | bracket =>
          have helem := ih (Nat.lt_of_le_of_lt (weightL_elem_le inner) hinner)
          simp only [elem?_eq, Option.bind_some, helem]
          split
          · rename_i hparts
            rw [hparts]
            rfl
          · rename_i part parts hparts
            rw [hparts]
            rfl
        | paren =>
          have hnames : (Angle.split ',' inner).mapM (formatTypeName? n) =
              some ((Angle.split ',' inner).map TypeName.format) := by
            apply mapM_eq_map
            intro elem helem
            exact ih (Nat.lt_of_le_of_lt (Angle.weightL_mem_split helem) hinner)
          simp only [split?_eq, Option.bind_some, hnames, List.map_attach_eq_pmap, List.pmap_eq_map]
        | brace =>
          simp only [lastSegment?_eq]
          rfl
      | ident text p =>
        simp only
        split
        · rw [split?_eq, Option.bind_some, bounds?_eq fun part hpart => ne_nil_of_mem_split hpart]
          rfl
        · rw [lastSegment?_eq]
      | _ =>
        rw [lastSegment?_eq]
        rfl

end GetterRename.Checked
