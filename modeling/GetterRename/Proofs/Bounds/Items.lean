import GetterRename.Proofs.Bounds.Function

/-!
# Items, with positions

The items besides functions: blocks, modules, constants, and the words in front of an item that say
which one it is.  The header of an `impl` block is read up to its end first; the trait and the type
are slices of it.

* `Checked.impl?_spec`, `Checked.trait?_spec`, `Checked.module?_spec` — blocks;
* `Checked.constant?_spec`, `Checked.declaration?_spec` — constants;
* `Checked.item?_spec` — an item whose first word stands at a position.
-/

namespace GetterRename.Checked

section Steps

variable (tokens : List Token)

/-- The end of an `impl` header, and the position of the `for` that separates the trait from the
type. -/
def headerFrom? : Nat → Nat → Nat → Option Nat → Option (Nat × Option Nat)
  | 0, _, _, _ => none
  | n + 1, k, depth, forAt =>
    if k < tokens.length then do
      let t ← get? tokens k
      if depth = 0 && Outline.endsImplType t then some (k, forAt)
      else
        let depth ← track? tokens k depth
        let next ← at? tokens (k + 1)
        let isFor := depth = 0 && forAt.isNone && t.isIdent "for" && !next.any (·.isPunct '<')
        headerFrom? n (k + 1) depth (if isFor then some k else forAt)
    else some (k, forAt)

def implHead? (start stop : Nat) : Option Nat → Option Construct
  | some i => do
    let path ← slice? tokens start i
    let name ← lastSegment? path
    let type ← slice? tokens (i + 1 : Nat) stop
    let type ← formatTypeName? (Token.weightL type + 1) type
    return .impl (if name.isEmpty then none else some name) type
  | none => do
    let type ← slice? tokens start stop
    let type ← formatTypeName? (Token.weightL type + 1) type
    return .impl none type

def implStart? (k : Nat) : Option Nat := do
  let t ← at? tokens k
  if t.any (·.isPunct '<') then skipAngles? tokens k else some k

/-- An `impl` block whose keyword stands in front of a position. -/
def impl? (k : Nat) : Option (Step × Nat) := do
  let start ← implStart? tokens k
  let (stop, forAt) ← headerFrom? tokens (turns tokens) start 0 none
  let block ← find? tokens Outline.endsHeader stop
  match ← at? tokens block with
  | some (.group .brace items _) =>
    if start = stop then some (.nothing, k)
    else do
      let head ← implHead? tokens start stop forAt
      some (.construct head items, block + 1)
  | _ => some (.nothing, k)

/-- A trait whose name stands in front of a position. A trait alias is skipped. -/
def trait? (name : Bytes) (k : Nat) : Option (Step × Nat) := do
  let block ← find? tokens Outline.endsHeader k
  match ← at? tokens block with
  | some (.group .brace items _) => some (.construct (.trait name) items, block + 1)
  | _ => some (.nothing, block + 1)

def module? (name : Bytes) (k : Nat) : Option (Step × Nat) := do
  match ← at? tokens k with
  | some (.group .brace items _) => some (.construct (.module name) items, k + 1)
  | _ => some (.nothing, k)

def value? (k : Nat) : Option (List Token × Nat) := do
  let t ← at? tokens k
  if t.any (·.isPunct '=') then
    let stop ← find? tokens (Token.isPunct ';') (k + 1)
    let expr ← slice? tokens (k + 1 : Nat) stop
    some (expr, stop)
  else some ([], k)

def constant? (name : Bytes) (isStatic : Bool) (k : Nat) : Option (Step × Nat) := do
  let k ← scanUntil? tokens Outline.endsType k
  let (expr, k) ← value? tokens k
  let t ← at? tokens k
  some (.construct (.const name isStatic) expr, if t.any (·.isPunct ';') then k + 1 else k)

def declaredAt? (k : Nat) : Option (Option Bytes) := do
  let name ← at? tokens k
  let colon ← at? tokens (k + 1)
  match name with
  | some (.ident text _) => some (if colon.any (·.isPunct ':') then some text else none)
  | _ => some none

def declaration? (isStatic : Bool) (k : Nat) : Option (Option (Step × Nat)) := do
  match ← declaredAt? tokens k with
  | some name => (constant? tokens name isStatic (k + 2)).map some
  | none => some none

/-- The position behind a foreign block, which declares no getter. -/
def skipForeign? (k : Nat) : Option Nat := do
  let t ← at? tokens k
  let k := if t.any (·.isLiteral) then k + 1 else k
  let block ← at? tokens k
  some (if block.any (·.isGroupOf .brace) then k + 1 else k)

/-- The item whose keyword `t` stands in front of a position, if `t` starts one. -/
def item? (t : Token) (k : Nat) : Option (Option (Step × Nat)) := do
  let next ← at? tokens k
  if t.isIdent "fn" then
    match next with
    | some (.ident name p) => (fn? tokens ⟨name, p⟩ (k + 1)).map some
    | _ => some none
  else if t.isIdent "impl" then (impl? tokens k).map some
  else if t.isIdent "trait" then
    match next with
    | some (.ident name _) => (trait? tokens name (k + 1)).map some
    | _ => some none
  else if t.isIdent "mod" then
    match next with
    | some (.ident name _) => (module? tokens name (k + 1)).map some
    | _ => some none
  else if t.isIdent "const" then declaration? tokens false k
  else if t.isIdent "static" then
    if next.any (·.isIdent "mut") then do
      match ← declaration? tokens true (k + 1) with
      | some found => some (some found)
      | none => declaration? tokens true k
    else declaration? tokens true k
  else if t.isIdent "struct" || t.isIdent "enum" || t.isIdent "union" || t.isIdent "type" then
    match next with
    | some (.ident _ _) => some (some (.nothing, k + 1))
    | _ => some none
  else if t.isIdent "use" || (t.isIdent "extern" && next.any (·.isIdent "crate")) then
    -- the position may come to stand behind the end
    (find? tokens (Token.isPunct ';') k).map fun stop => some (.nothing, stop + 1)
  else if t.isIdent "extern" then (skipForeign? tokens k).map fun stop => some (.nothing, stop)
  else some none

end Steps

variable {tokens rest : List Token}

/-! ### Blocks -/

/-- A list of angle brackets that is closed ends with a `>`. -/
theorem before_reach {i depth : Nat} {last : Option Token} (h : tokens.drop i = rest)
    (hdepth : 0 < depth) (hclosed : rest.drop (Angle.reach last depth rest) ≠ []) :
    (before tokens (i + Angle.reach last depth rest)).any (·.isPunct '>') = true := by
  induction rest generalizing i last depth with
  | nil => simp at hclosed
  | cons t rest ih =>
    rw [Angle.reach] at hclosed ⊢
    cases hstep : Angle.step last t depth with
    | zero =>
      -- only a `>` brings the depth to zero
      rw [hstep] at hclosed
      simp only [before_of_drop h, Option.any_some]
      unfold Angle.step at hstep
      split at hstep
      · omega
      split at hstep
      · rename_i hgt
        exact (Bool.and_eq_true_iff.1 hgt).1
      · omega
    | succ d =>
      rw [hstep] at hclosed
      have hrest := ih (drop_succ h) (Nat.succ_pos d) hclosed
      rwa [Nat.add_assoc, Nat.add_comm 1] at hrest

/-- What ends the header of an `impl` block is no angle bracket. -/
theorem not_lt_of_endsImplType {t : Token} (h : Outline.endsImplType t = true) :
    t.isPunct '<' = false := by
  cases t with
  | punct c joint p =>
    obtain rfl : c = byte ';' := by
      simpa [Outline.endsImplType, Token.isGroupOf, Token.isIdent, Token.isPunct] using h
    rfl
  | _ => rfl

/-- Right behind a `for`, the header and the list agree on a `<`. -/
theorem head?_take_lengthUntil (last : Option Token) (depth : Nat) (ts : List Token)
    (hdepth : depth = 0) :
    (ts.take (Angle.lengthUntil Outline.endsImplType last depth ts)).head?.any (·.isPunct '<') =
      ts.head?.any (·.isPunct '<') := by
  subst hdepth
  cases ts with
  | nil => rfl
  | cons t ts =>
    rw [Angle.lengthUntil]
    split
    · rename_i hstop
      have ht : Outline.endsImplType t = true := (Bool.and_eq_true_iff.1 hstop).2
      exact (not_lt_of_endsImplType ht).symm
    · rfl

theorem headerFrom?_eq {n k depth : Nat} {forAt : Option Nat} (h : tokens.drop k = rest)
    (hn : rest.length < n) :
    headerFrom? tokens n k depth forAt =
      some (k + Angle.lengthUntil Outline.endsImplType (before tokens k) depth rest,
        forAt.or ((Outline.forIndex? (before tokens k) depth (rest.take
          (Angle.lengthUntil Outline.endsImplType (before tokens k) depth rest))).map (k + ·))) := by
  induction n generalizing k depth forAt rest with
  | zero => omega
  | succ n ih =>
    unfold headerFrom?
    cases rest with
    | nil =>
      rw [if_neg (by simpa using h)]
      simp [Angle.lengthUntil, Outline.forIndex?]
    | cons t rest =>
      have hnext := drop_succ h
      simp only [if_pos (lt_length_of_drop h), get?_natCast, head?_of_drop h, List.head?_cons,
        at?_eq, head?_of_drop hnext, track?_eq h, Option.bind_eq_bind, Option.bind_some,
        Angle.lengthUntil]
      by_cases hstop : (depth = 0 && Outline.endsImplType t) = true
      · rw [if_pos hstop, if_pos hstop]
        simp [Outline.forIndex?]
      rw [if_neg hstop, if_neg hstop, ih hnext (by simpa using hn), before_of_drop h,
        List.take_succ_cons, Outline.forIndex?]
      generalize Angle.step (before tokens k) t depth = d
      refine congrArg some (Prod.ext ?_ ?_)
      · simp only
        omega
      have hahead := head?_take_lengthUntil (some t) d rest
      have hmap : ∀ o : Option Nat, o.map (k + 1 + ·) = (o.map (· + 1)).map (k + ·) := by
        intro o
        rw [Option.map_map]
        congr 1
        funext x
        show k + 1 + x = k + (x + 1)
        omega
      simp only [hmap]
      cases forAt with
      | some f => simp
      | none =>
        simp only [Option.isNone_none, Bool.and_true, Option.none_or]
        by_cases hd : d = 0
        · subst hd
          rw [hahead rfl]
          simp only
          split
          · rfl
          · rfl
        · simp [hd]

theorem forIndex?_of_not_arrow {last : Option Token} (h : last.any Angle.isArrowHead = false)
    (depth : Nat) (ts : List Token) :
    Outline.forIndex? last depth ts = Outline.forIndex? none depth ts := by
  cases ts with
  | nil => rfl
  | cons t ts => rw [Outline.forIndex?, Outline.forIndex?, step_of_not_arrow h]

theorem forIndex?_lt {last : Option Token} {depth f : Nat} {ts : List Token}
    (h : Outline.forIndex? last depth ts = some f) : f < ts.length := by
  induction ts generalizing last depth f with
  | nil => cases h
  | cons t ts ih =>
    rw [Outline.forIndex?] at h
    split at h
    · obtain rfl := Option.some.inj h
      exact Nat.succ_pos _
    · obtain ⟨g, hg, rfl⟩ := Option.map_eq_some_iff.1 h
      exact Nat.succ_lt_succ (ih hg)

theorem implStart?_spec {k : Nat} (h : tokens.drop k = rest) (hk : k ≤ tokens.length)
    (hbefore : (before tokens k).any Angle.isArrowHead = false) :
    ∃ start, implStart? tokens k = some start ∧ tokens.drop start = (Outline.generics rest).2 ∧
      start ≤ tokens.length ∧ ((Outline.generics rest).2 ≠ [] →
        (before tokens start).any Angle.isArrowHead = false) := by
  simp only [implStart?, at?_eq, Option.bind_eq_bind, Option.bind_some, head?_of_drop h,
    Outline.generics]
  by_cases hlt : rest.head?.any (·.isPunct '<') = true
  · obtain - | ⟨t, inner⟩ := rest
    · exact absurd hlt Bool.false_ne_true
    obtain ⟨hskip, hdrop⟩ := skipAngles?_spec h hlt
    have hle := reach_le none 0 (t :: inner)
    have hlength := congrArg List.length h
    rw [List.length_drop] at hlength
    simp only [hlt, if_true, hskip]
    refine ⟨_, rfl, hdrop, by omega, ?_⟩
    intro hclosed
    -- the brackets are closed, by a `>`
    have hreach : Angle.reach none 0 (t :: inner) = Angle.reach (some t) 1 inner + 1 := by
      have ht : t.isPunct '<' = true := hlt
      simp only [Angle.reach, Angle.step, ht, if_true]
    rw [Angle.span, List.splitAt_eq, hreach] at hclosed
    have hgt := before_reach (drop_succ h) (Nat.succ_pos 0) hclosed
    rw [hreach, ← Nat.add_assoc, Nat.add_right_comm]
    generalize before tokens (k + 1 + Angle.reach (some t) 1 inner) = last at hgt
    cases last with
    | none => rfl
    | some u => exact not_arrow_of_isPunct hgt (by decide) (by decide)
  · simp only [hlt]
    exact ⟨k, rfl, h, hk, fun _ => hbefore⟩

theorem implHead?_eq {start : Nat} {ts : List Token} (h : tokens.drop start = ts)
    (hstart : start ≤ tokens.length) {n : Nat} (hn : n ≤ ts.length) :
    implHead? tokens start (start + n)
        ((Outline.forIndex? none 0 (ts.take n)).map (start + ·)) =
      some (Outline.implHead (ts.take n)) := by
  have hformat : ∀ type, formatTypeName? (Token.weightL type + 1) type =
      some (TypeName.format type) := fun type => formatTypeName?_eq (Nat.lt_succ_self _)
  unfold Outline.implHead
  cases hindex : Outline.forIndex? none 0 (ts.take n) with
  | none =>
    rw [Option.map_none, implHead?, slice?_of_drop h hstart hn, Option.bind_eq_bind,
      Option.bind_some, hformat]
    rfl
  | some f =>
    have hf : f < n := by
      have := forIndex?_lt hindex
      rw [List.length_take] at this
      omega
    have hlength := congrArg List.length h
    rw [List.length_drop] at hlength
    -- the type stands between the `for` and the end of the header
    have htype : slice? tokens (start + f + 1 : Nat) (start + n : Nat) =
        some ((ts.take n).drop (f + 1)) := by
      have hdrop : tokens.drop (start + f + 1) = ts.drop (f + 1) := drop_add h (f + 1)
      have hend : start + n = start + f + 1 + (n - (f + 1)) := by omega
      rw [hend, slice?_of_drop hdrop (by omega) (by rw [List.length_drop]; omega), List.drop_take]
    have hpath : slice? tokens start (start + f : Nat) = some ((ts.take n).take f) := by
      rw [slice?_of_drop h hstart (by omega), List.take_take, Nat.min_eq_left (by omega)]
    simp only [Option.map_some, implHead?, hpath, htype, lastSegment?_eq, hformat,
      Option.bind_eq_bind, Option.bind_some]
    rfl

theorem impl?_spec {k : Nat} (h : tokens.drop k = rest) (hk : k ≤ tokens.length)
    (hbefore : (before tokens k).any Angle.isArrowHead = false) :
    Ends tokens (impl? tokens k) (Outline.implAt rest) := by
  obtain ⟨start, hstart, h₁, hle, hfollows⟩ := implStart?_spec h hk hbefore
  unfold Outline.implAt Angle.spanUntil
  generalize (Outline.generics rest).2 = ts at h₁ hfollows
  -- in front of the header stands no arrow
  have hlength := lengthUntil_le Outline.endsImplType none 0 ts
  have hheader : headerFrom? tokens (turns tokens) start 0 none =
      some (start + Angle.lengthUntil Outline.endsImplType none 0 ts,
        (Outline.forIndex? none 0 (ts.take
          (Angle.lengthUntil Outline.endsImplType none 0 ts))).map (start + ·)) := by
    rw [headerFrom?_eq h₁ (length_of_drop h₁), Option.none_or]
    cases ts with
    | nil => rfl
    | cons t ts =>
      have harrow := hfollows (List.cons_ne_nil t ts)
      rw [lengthUntil_of_not_arrow harrow, forIndex?_of_not_arrow harrow]
  generalize Angle.lengthUntil Outline.endsImplType none 0 ts = n at hlength hheader
  obtain ⟨block, hfind, hdrop, -⟩ := find?_spec Outline.endsHeader (drop_add h₁ n)
  simp only [impl?, hstart, hheader, hfind, at?_eq, head?_of_drop hdrop, Option.bind_eq_bind,
    Option.bind_some, List.splitAt_eq, implHead?_eq h₁ hle hlength]
  have hempty : start = start + n ↔ (ts.take n).isEmpty = true := by
    rw [List.isEmpty_iff_length_eq_zero, List.length_take]
    omega
  generalize (ts.drop n).dropWhile (!Outline.endsHeader ·) = found at hdrop
  obtain - | ⟨t, after⟩ := found
  · exact ⟨k, rfl, h⟩
  cases t with
  | group d items q =>
    cases d with
    | brace =>
      simp only [List.head?_cons]
      by_cases hnone : start = start + n
      · rw [if_pos hnone, if_pos (hempty.1 hnone)]
        exact ⟨k, rfl, h⟩
      · rw [if_neg hnone, if_neg (mt hempty.2 hnone)]
        exact ⟨block + 1, rfl, drop_succ hdrop⟩
    | _ => exact ⟨k, rfl, h⟩
  | _ => exact ⟨k, rfl, h⟩

theorem trait?_spec (name : Bytes) {k : Nat} (h : tokens.drop k = rest) :
    Ends tokens (trait? tokens name k) (Outline.traitAt name rest) := by
  obtain ⟨block, hfind, hdrop, -⟩ := find?_spec Outline.endsHeader h
  simp only [trait?, hfind, at?_eq, Option.bind_eq_bind, Option.bind_some, head?_of_drop hdrop,
    Outline.traitAt]
  have hbehind := drop_add hdrop 1
  generalize rest.dropWhile (!Outline.endsHeader ·) = found at *
  obtain - | ⟨t, after⟩ := found
  · exact ⟨block + 1, rfl, hbehind⟩
  cases t with
  | group d items q => cases d <;> exact ⟨block + 1, rfl, hbehind⟩
  | _ => exact ⟨block + 1, rfl, hbehind⟩

theorem module?_spec (name : Bytes) {k : Nat} (h : tokens.drop k = rest) :
    Ends tokens (module? tokens name k) (Outline.moduleAt name rest) := by
  simp only [module?, at?_eq, Option.bind_eq_bind, Option.bind_some, head?_of_drop h,
    Outline.moduleAt]
  obtain - | ⟨t, after⟩ := rest
  · exact ⟨k, rfl, h⟩
  cases t with
  | group d items q =>
    cases d with
    | brace => exact ⟨k + 1, rfl, drop_succ h⟩
    | _ => exact ⟨k, rfl, h⟩
  | _ => exact ⟨k, rfl, h⟩

/-! ### Constants -/

theorem value?_spec {k : Nat} (h : tokens.drop k = rest) :
    ∃ stop, value? tokens k = some ((Outline.value rest).1, stop) ∧
      tokens.drop stop = (Outline.value rest).2 := by
  simp only [value?, at?_eq, Option.bind_eq_bind, Option.bind_some, head?_of_drop h, Outline.value]
  by_cases hvalue : rest.head?.any (·.isPunct '=') = true
  · obtain - | ⟨t, expr⟩ := rest
    · exact absurd hvalue Bool.false_ne_true
    have hexpr := drop_succ h
    obtain ⟨stop, hfind, hdrop, hstop⟩ := find?_spec (Token.isPunct ';') hexpr
    have hslice := slice?_of_drop hexpr (lt_length_of_drop h)
      (List.takeWhile_prefix (l := expr) (!Token.isPunct ';' ·)).length_le
    rw [← hstop, take_length_takeWhile] at hslice
    simp only [hvalue, if_true, hfind, Option.bind_some, hslice]
    exact ⟨stop, rfl, hdrop⟩
  · simp only [hvalue]
    exact ⟨k, rfl, h⟩

theorem constant?_spec (name : Bytes) (isStatic : Bool) {k : Nat} (h : tokens.drop k = rest)
    (hk : k ≤ tokens.length) (hbefore : (before tokens k).any Angle.isArrowHead = false) :
    Ends tokens (constant? tokens name isStatic k) (Outline.constantAt name isStatic rest) := by
  obtain ⟨k₁, hscan, -, h₁⟩ := scanUntil?_spec Outline.endsType h hk hbefore
  obtain ⟨k₂, hvalue, h₂⟩ := value?_spec h₁
  simp only [constant?, hscan, hvalue, at?_eq, Option.bind_eq_bind, Option.bind_some,
    head?_of_drop h₂, Outline.constantAt]
  refine ⟨_, rfl, ?_⟩
  simp only
  split
  · exact drop_add h₂ 1
  · exact h₂

theorem declaration?_spec (isStatic : Bool) {k : Nat} (h : tokens.drop k = rest) :
    EndsMaybe tokens (declaration? tokens isStatic k)
      ((Outline.declared? rest).map fun (name, after) =>
        Outline.constantAt name isStatic after) := by
  have hread := getElem?_of_drop h
  simp only [declaration?, declaredAt?, at?_eq, Option.bind_eq_bind, Option.bind_some,
    head?_of_drop h, hread 1]
  obtain - | ⟨name, - | ⟨colon, after⟩⟩ := rest
  · rfl
  · cases name <;> rfl
  cases name with
  | ident text q =>
    simp only [List.head?_cons, List.getElem?_cons_succ, List.getElem?_cons_zero, Option.any_some,
      Outline.declared?, Option.bind_some]
    by_cases hcolon : colon.isPunct ':' = true
    · have hafter := drop_succ (drop_succ h)
      have hle : k + 2 ≤ tokens.length := lt_length_of_drop (drop_succ h)
      have hbefore : (before tokens (k + 2)).any Angle.isArrowHead = false := by
        rw [before_of_drop (drop_succ h)]
        exact not_arrow_of_isPunct hcolon (by decide) (by decide)
      obtain ⟨stop, hconstant, hdrop⟩ := constant?_spec text isStatic hafter hle hbefore
      simp only [hcolon, if_true, Option.map_some, hconstant]
      exact ⟨stop, rfl, hdrop⟩
    · simp only [hcolon]
      rfl
  | _ => rfl

/-! ### Items -/

theorem skipForeign?_spec {k : Nat} (h : tokens.drop k = rest) :
    ∃ stop, skipForeign? tokens k = some stop ∧ tokens.drop stop = Outline.skipForeign rest := by
  -- the position behind the literal
  obtain ⟨i, body, hi, hbody, hdrop⟩ : ∃ i body,
      (if rest.head?.any (·.isLiteral) then k + 1 else k) = i ∧
      (if rest.head?.any (·.isLiteral) then rest.drop 1 else rest) = body ∧
      tokens.drop i = body := by
    refine ⟨_, _, rfl, rfl, ?_⟩
    split
    · exact drop_add h 1
    · exact h
  simp only [skipForeign?, at?_eq, Option.bind_eq_bind, Option.bind_some, head?_of_drop h, hi,
    head?_of_drop hdrop, Outline.skipForeign, hbody]
  refine ⟨_, rfl, ?_⟩
  split
  · exact drop_add hdrop 1
  · exact hdrop

theorem Ends.maybe {found : Option (Step × Nat)} {r : Step × List Token}
    (h : Ends tokens found r) : EndsMaybe tokens (found.map some) (some r) := by
  obtain ⟨stop, rfl, hdrop⟩ := h
  exact ⟨stop, rfl, hdrop⟩

theorem EndsMaybe.named {ts : List Token} {found : Bytes → Pos → Option (Step × Nat)}
    {r : Bytes → Pos → List Token → Step × List Token} :
    (∀ name p after, ts = .ident name p :: after → Ends tokens (found name p) (r name p after)) →
    EndsMaybe tokens
      (match ts.head? with
      | some (.ident name p) => (found name p).map some
      | _ => some none)
      (match ts with
      | .ident name p :: after => some (r name p after)
      | _ => none) := by
  intro h
  obtain - | ⟨u, after⟩ := ts
  · rfl
  cases u with
  | ident name p => exact (h name p after rfl).maybe
  | _ => rfl

theorem EndsMaybe.ite {c : Prop} [Decidable c] {found other : Option (Option (Step × Nat))}
    {r r' : Option (Step × List Token)} (h : c → EndsMaybe tokens found r)
    (h' : ¬ c → EndsMaybe tokens other r') :
    EndsMaybe tokens (if c then found else other) (if c then r else r') := by
  by_cases hc : c
  · rw [if_pos hc, if_pos hc]
    exact h hc
  · rw [if_neg hc, if_neg hc]
    exact h' hc

theorem not_arrow_of_isIdent {t : Token} {word : String} (h : t.isIdent word = true) :
    Angle.isArrowHead t = false := by
  obtain ⟨p, rfl⟩ := Token.exists_eq_of_isIdent h
  rfl

theorem static?_spec {k : Nat} (h : tokens.drop k = rest) :
    EndsMaybe tokens
      (if rest.head?.any (·.isIdent "mut") then do
        match ← declaration? tokens true (k + 1) with
        | some found => some (some found)
        | none => declaration? tokens true k
      else declaration? tokens true k)
      (if rest.head?.any (·.isIdent "mut") && (Outline.declared? (rest.drop 1)).isSome then
        (Outline.declared? (rest.drop 1)).map fun (name, after) => Outline.constantAt name true after
      else (Outline.declared? rest).map fun (name, after) => Outline.constantAt name true after) := by
  have hplain := declaration?_spec true h
  have hmutable := declaration?_spec true (drop_add h 1)
  by_cases hmut : rest.head?.any (·.isIdent "mut") = true
  · rw [if_pos hmut]
    cases hdeclared : Outline.declared? (rest.drop 1) with
    | none =>
      rw [hdeclared] at hmutable
      rw [if_neg (by simp), show declaration? tokens true (k + 1) = some none from hmutable]
      exact hplain
    | some found =>
      rw [hdeclared] at hmutable
      obtain ⟨stop, hread, hdrop⟩ := hmutable
      rw [if_pos (by simp [hmut]), hread]
      exact ⟨stop, rfl, hdrop⟩
  · rw [if_neg hmut, if_neg (by simp [hmut])]
    exact hplain

theorem item?_spec {t : Token} {k : Nat} (h : tokens.drop k = t :: rest) :
    EndsMaybe tokens (item? tokens t (k + 1)) (Outline.item? t rest) := by
  have hnext := drop_succ h
  simp only [item?, at?_eq, Option.bind_eq_bind, Option.bind_some, head?_of_drop hnext]
  unfold Outline.item?
  apply EndsMaybe.ite
  · intro _
    apply EndsMaybe.named
    rintro name p after rfl
    exact fn?_spec ⟨name, p⟩ (drop_succ hnext)
  intro _
  apply EndsMaybe.ite
  · intro himpl
    have hbefore : (before tokens (k + 1)).any Angle.isArrowHead = false := by
      rw [before_of_drop h]
      exact not_arrow_of_isIdent himpl
    exact (impl?_spec hnext (lt_length_of_drop h) hbefore).maybe
  intro _
  apply EndsMaybe.ite
  · intro _
    apply EndsMaybe.named
    rintro name p after rfl
    exact trait?_spec name (drop_succ hnext)
  intro _
  apply EndsMaybe.ite
  · intro _
    apply EndsMaybe.named
    rintro name p after rfl
    exact module?_spec name (drop_succ hnext)
  intro _
  apply EndsMaybe.ite
  · intro _
    exact declaration?_spec false hnext
  intro _
  apply EndsMaybe.ite
  · intro _
    exact static?_spec hnext
  intro _
  apply EndsMaybe.ite
  · -- a type, whose name is passed over
    intro _
    obtain - | ⟨u, after⟩ := rest
    · rfl
    cases u with
    | ident name p => exact ⟨k + 2, rfl, drop_succ hnext⟩
    | _ => rfl
  intro _
  apply EndsMaybe.ite
  · -- an import, up to its semicolon
    intro _
    obtain ⟨stop, hfind, hdrop, -⟩ := find?_spec (Token.isPunct ';') hnext
    rw [hfind]
    exact ⟨stop + 1, rfl, drop_add hdrop 1⟩
  intro _
  apply EndsMaybe.ite
  · intro _
    obtain ⟨stop, hskip, hdrop⟩ := skipForeign?_spec hnext
    rw [hskip]
    exact ⟨stop, rfl, hdrop⟩
  intro _
  rfl

end GetterRename.Checked
