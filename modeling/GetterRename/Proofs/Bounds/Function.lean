import GetterRename.Proofs.Bounds.Calls

/-!
# Functions, with positions

The header of a function has its parts at positions that depend on each other: the generic
parameters end where their angle brackets close, or at the end of the list; the return type ends
where a body may begin.  Each part is a slice between two such positions.

* `Checked.isReceiver?_eq` — whether a parameter is a receiver;
* `Checked.generics?_spec`, `Checked.output?_spec`, `Checked.skipWhere?_spec` — the parts;
* `Checked.fn?_spec` — a function.
-/

namespace GetterRename.Checked

/-- Whether a parameter starts with a mark, with the parameter. -/
abbrev Marked := List (Bool × List Token)

section Steps

variable (tokens : List Token)

def isLifetime? (param : List Token) : Option Bool := do
  let first ← get? param 0
  return first.isPunct '\''

/-- The position behind the `&` and the lifetime at the head of a parameter. -/
def skipRef? (param : List Token) : Option Nat :=
  if 0 < param.length then do
    let first ← get? param 0
    if first.isPunct '&' then
      if 2 < param.length then
        let tick ← get? param 1
        some (if tick.isPunct '\'' then 3 else 1)
      else some 1
    else some 0
  else some 0

def isMutAt? (param : List Token) (i : Nat) : Option Bool :=
  if i < param.length then (get? param i).map (·.isIdent "mut") else some false

def isReceiver? (param : List Token) : Option Bool := do
  let i ← skipRef? param
  let isMut ← isMutAt? param i
  let i := if isMut then i + 1 else i
  if param.length ≤ i then some false
  else
    let self ← get? param i
    if !self.isIdent "self" then some false
    else if i + 1 = param.length then some true
    else (get? param (i + 1 : Nat)).map (·.isPunct ':')

/-- The parameters with a mark that is read from each. -/
def marked? (mark? : List Token → Option Bool) (params : List (List Token)) : Option Marked :=
  params.mapM fun param => (mark? param).map (·, param)

def generics? (k : Nat) : Option (Marked × Nat) := do
  let t ← at? tokens k
  if t.any (·.isPunct '<') then
    let stop ← skipAngles? tokens k
    let inner ← slice? tokens (k + 1 : Nat) (max ((k : Int) + 1) ((stop : Int) - 1))
    let parts ← split? inner ','
    let params ← marked? isLifetime? parts
    some (params, stop)
  else some ([], k)

def output? (k : Nat) : Option (List Token × Nat) := do
  let a ← at? tokens k
  let b ← at? tokens (k + 1)
  if a.any (·.isPunct '-') && b.any (·.isPunct '>') then
    let stop ← scanUntil? tokens Outline.endsType (k + 2)
    let result ← slice? tokens (k + 2 : Nat) stop
    some (result, stop)
  else some ([], k)

def skipWhere? (k : Nat) : Option Nat := do
  let t ← at? tokens k
  if t.any (·.isIdent "where") then find? tokens Outline.endsHeader k else some k

/-- A function whose name stands in front of a position. -/
def fn? (name : Ident) (k : Nat) : Option (Step × Nat) := do
  let (params, k) ← generics? tokens k
  match ← at? tokens k with
  | some (.group .paren inner _) => do
    let parts ← split? inner ','
    let inputs ← marked? isReceiver? parts
    let (result, k) ← output? tokens (k + 1)
    let k ← skipWhere? tokens k
    let head := .fn ⟨name, params.map (·.2), inputs.map (·.2), result⟩
    match ← at? tokens k with
    | some (.group .brace body _) => some (.construct head body, k + 1)
    | some t => some (.construct head [], if t.isPunct ';' then k + 1 else k)
    | none => some (.construct head [], k)
  | _ => some (.nothing, k)

end Steps

variable {tokens rest : List Token}

/-! ### Parameters -/

theorem isLifetime?_eq {param : List Token} (h : param ≠ []) :
    isLifetime? param = some (Signature.isLifetime param) := by
  obtain ⟨first, rest, rfl⟩ := List.exists_cons_of_ne_nil h
  rfl

theorem skipRef?_spec (param : List Token) :
    ∃ i, skipRef? param = some i ∧ param.drop i = Signature.dropRef param := by
  obtain - | ⟨first, rest⟩ := param
  · exact ⟨0, rfl, rfl⟩
  rw [skipRef?, if_pos (by simp), get?_zero]
  simp only [List.head?_cons, Option.bind_eq_bind, Option.bind_some, Signature.dropRef]
  split
  · obtain - | ⟨tick, - | ⟨name, rest⟩⟩ := rest
    · exact ⟨1, rfl, rfl⟩
    · exact ⟨1, rfl, rfl⟩
    · have hread : get? (first :: tick :: name :: rest) 1 = some tick := get?_natCast _ 1
      rw [if_pos (by simp), hread, Option.bind_some]
      refine ⟨_, rfl, ?_⟩
      simp only
      split <;> rfl
  · exact ⟨0, rfl, rfl⟩

theorem isMutAt?_eq {param : List Token} {i : Nat} (h : param.drop i = rest) :
    isMutAt? param i = some (rest.head?.any (·.isIdent "mut")) := by
  unfold isMutAt?
  cases rest with
  | nil => rw [if_neg (by simpa using h)]; rfl
  | cons t rest =>
    rw [if_pos (lt_length_of_drop h), get?_natCast, head?_of_drop h]
    rfl

theorem isReceiver_eq (param : List Token) : Signature.isReceiver param =
    Signature.isSelf (if (Signature.dropRef param).head?.any (·.isIdent "mut") then
      (Signature.dropRef param).drop 1 else Signature.dropRef param) := by
  unfold Signature.isReceiver
  cases Signature.dropRef param <;> rfl

theorem isReceiver?_eq (param : List Token) :
    isReceiver? param = some (Signature.isReceiver param) := by
  obtain ⟨i, hskip, hdrop⟩ := skipRef?_spec param
  simp only [isReceiver?, hskip, isMutAt?_eq hdrop, Option.bind_eq_bind, Option.bind_some,
    isReceiver_eq]
  generalize Signature.dropRef param = rest at hdrop
  -- what stands behind the `mut`
  obtain ⟨k, self, hk, hself, hdrop'⟩ : ∃ k self,
      (if rest.head?.any (·.isIdent "mut") then i + 1 else i) = k ∧
      (if rest.head?.any (·.isIdent "mut") then rest.drop 1 else rest) = self ∧
      param.drop k = self := by
    refine ⟨_, _, rfl, rfl, ?_⟩
    split
    · exact drop_add hdrop 1
    · exact hdrop
  rw [hk, hself]
  cases self with
  | nil => rw [if_pos (by simpa using hdrop')]; rfl
  | cons t rest =>
    have hlt := lt_length_of_drop hdrop'
    have hlength := congrArg List.length hdrop'
    rw [List.length_drop, List.length_cons] at hlength
    rw [if_neg (by omega), get?_natCast, head?_of_drop hdrop']
    simp only [List.head?_cons, Option.bind_some, Signature.isSelf]
    cases t.isIdent "self" with
    | false => rfl
    | true =>
      rw [Bool.not_true, if_neg Bool.false_ne_true, Bool.true_and, get?_natCast,
        head?_of_drop (drop_succ hdrop')]
      cases rest with
      | nil =>
        rw [if_pos (by rw [List.length_nil] at hlength; omega)]
        rfl
      | cons colon rest =>
        rw [if_neg (by rw [List.length_cons] at hlength; omega)]
        rfl

/-- Every parameter has its mark. -/
theorem marked?_spec {mark? : List Token → Option Bool} {mark : List Token → Bool}
    {params : List (List Token)} (h : ∀ param ∈ params, mark? param = some (mark param)) :
    ∃ marked, marked? mark? params = some marked ∧ marked.map (·.2) = params := by
  refine ⟨params.map fun param => (mark param, param), ?_, ?_⟩
  · apply mapM_eq_map
    intro param hparam
    rw [h param hparam]
    rfl
  · rw [List.map_map]
    exact List.map_id params

/-! ### Slices -/

theorem slice?_of_drop {i n : Nat} (h : tokens.drop i = rest) (hi : i ≤ tokens.length)
    (hn : n ≤ rest.length) : slice? tokens i (i + n : Nat) = some (rest.take n) := by
  have hlength := congrArg List.length h
  rw [List.length_drop] at hlength
  rw [slice?_natCast tokens (Nat.le_add_right i n) (by omega), List.drop_take, h,
    Nat.add_sub_cancel_left]

theorem lengthUntil_le (stop : Token → Bool) (last : Option Token) (depth : Nat) (ts : List Token) :
    Angle.lengthUntil stop last depth ts ≤ ts.length := by
  induction ts generalizing last depth with
  | nil => exact Nat.le_refl 0
  | cons t ts ih =>
    rw [Angle.lengthUntil]
    split
    · exact Nat.zero_le _
    · exact Nat.succ_le_succ (ih _ _)

/-- Of the token in front of a list only counts whether it is the first half of an arrow. -/
theorem step_of_not_arrow {last : Option Token} (h : last.any Angle.isArrowHead = false)
    (t : Token) (depth : Nat) : Angle.step last t depth = Angle.step none t depth := by
  simp only [Angle.step, h, Option.any_none]

theorem not_arrow_of_isPunct {t : Token} {c : Char} (h : t.isPunct c = true)
    (hdash : byte c ≠ byte '-') (hequals : byte c ≠ byte '=') : Angle.isArrowHead t = false := by
  obtain ⟨joint, p, rfl⟩ := Token.exists_eq_of_isPunct h
  simp [Angle.isArrowHead, Token.isPunct, hdash, hequals]

theorem lengthUntil_of_not_arrow {last : Option Token} (h : last.any Angle.isArrowHead = false)
    (stop : Token → Bool) (depth : Nat) (ts : List Token) :
    Angle.lengthUntil stop last depth ts = Angle.lengthUntil stop none depth ts := by
  cases ts with
  | nil => rfl
  | cons t ts => rw [Angle.lengthUntil, Angle.lengthUntil, step_of_not_arrow h]

theorem scanUntil?_spec (stop : Token → Bool) {i : Nat} (h : tokens.drop i = rest)
    (hi : i ≤ tokens.length) (hbefore : (before tokens i).any Angle.isArrowHead = false) :
    ∃ k, scanUntil? tokens stop i = some k ∧
      slice? tokens i k = some (Angle.spanUntil stop rest).1 ∧
      tokens.drop k = (Angle.spanUntil stop rest).2 := by
  have hle := lengthUntil_le stop none 0 rest
  rw [Angle.spanUntil, List.splitAt_eq]
  refine ⟨i + Angle.lengthUntil stop none 0 rest, ?_, ?_, ?_⟩
  · rw [scanUntil?_eq stop h, lengthUntil_of_not_arrow hbefore]
  · exact slice?_of_drop h hi hle
  · exact drop_add h _

/-! ### Functions -/

theorem reach_le (last : Option Token) (depth : Nat) (ts : List Token) :
    Angle.reach last depth ts ≤ ts.length := by
  induction ts generalizing last depth with
  | nil => exact Nat.le_refl 0
  | cons t ts ih =>
    rw [Angle.reach]
    split
    · exact Nat.le_add_left 1 _
    · exact Nat.succ_le_succ (ih _ _)

theorem between_angles (t : Token) (inner : List Token) :
    ((Angle.span (t :: inner)).1.drop 1).dropLast =
      inner.take (Angle.reach none 0 (t :: inner) - 2) := by
  have hle := reach_le none 0 (t :: inner)
  rw [Angle.span, List.splitAt_eq, List.length_cons] at *
  generalize Angle.reach none 0 (t :: inner) = r at *
  cases r with
  | zero => rfl
  | succ r =>
    simp only [List.take_succ_cons, List.drop_succ_cons, List.drop_zero]
    rw [List.dropLast_eq_take, List.take_take, List.length_take]
    exact congrArg inner.take (by omega)

theorem generics?_spec {k : Nat} (h : tokens.drop k = rest) :
    ∃ params stop, generics? tokens k = some (params, stop) ∧
      params.map (·.2) = (Outline.generics rest).1 ∧ tokens.drop stop = (Outline.generics rest).2 := by
  simp only [generics?, at?_eq, Option.bind_eq_bind, Option.bind_some, head?_of_drop h,
    Outline.generics]
  split
  · rename_i hlt
    obtain - | ⟨t, inner⟩ := rest
    · exact absurd hlt Bool.false_ne_true
    obtain ⟨hskip, hdrop⟩ := skipAngles?_spec h hlt
    have hle := reach_le none 0 (t :: inner)
    have hlength := congrArg List.length h
    rw [List.length_drop] at hlength
    have hinner : slice? tokens (k + 1 : Nat)
        (max ((k : Int) + 1) ((k + Angle.reach none 0 (t :: inner) : Nat) - 1)) =
        some (((Angle.span (t :: inner)).1.drop 1).dropLast) := by
      rw [between_angles t inner]
      rw [List.length_cons] at hlength hle
      generalize Angle.reach none 0 (t :: inner) = r at *
      have hmax : max ((k : Int) + 1) ((k + r : Nat) - 1) = (k + 1 + (r - 2) : Nat) := by omega
      rw [hmax, slice?_of_drop (drop_succ h) (by omega) (by omega)]
    obtain ⟨params, hmarked, hparams⟩ := marked?_spec fun param hparam =>
      isLifetime?_eq (ne_nil_of_mem_split hparam)
    rw [hskip, Option.bind_some, hinner, Option.bind_some, split?_eq, Option.bind_some, hmarked]
    exact ⟨params, _, rfl, hparams, hdrop⟩
  · exact ⟨[], k, rfl, rfl, h⟩

theorem output?_spec {k : Nat} (h : tokens.drop k = rest) :
    ∃ stop, output? tokens k = some ((Outline.output rest).1, stop) ∧
      tokens.drop stop = (Outline.output rest).2 := by
  have hread := getElem?_of_drop h
  simp only [output?, at?_eq, Option.bind_eq_bind, Option.bind_some, head?_of_drop h, hread 1]
  obtain - | ⟨a, - | ⟨b, after⟩⟩ := rest
  · exact ⟨k, rfl, h⟩
  · exact ⟨k, by simp [Outline.output], h⟩
  · simp only [List.head?_cons, List.getElem?_cons_succ, List.getElem?_cons_zero, Option.any_some,
      Outline.output]
    by_cases harrow : (a.isPunct '-' && b.isPunct '>') = true
    · have hafter : tokens.drop (k + 2) = after := drop_succ (drop_succ h)
      have hle : k + 2 ≤ tokens.length := lt_length_of_drop (drop_succ h)
      have hbefore : (before tokens (k + 2)).any Angle.isArrowHead = false := by
        rw [before_of_drop (drop_succ h)]
        exact not_arrow_of_isPunct (Bool.and_eq_true_iff.1 harrow).2 (by decide) (by decide)
      obtain ⟨stop, hscan, hslice, hdrop⟩ := scanUntil?_spec Outline.endsType hafter hle hbefore
      simp only [harrow, if_true, hscan, hslice, Option.bind_some]
      exact ⟨stop, rfl, hdrop⟩
    · simp only [harrow]
      exact ⟨k, rfl, h⟩

theorem skipWhere?_spec {k : Nat} (h : tokens.drop k = rest) :
    ∃ stop, skipWhere? tokens k = some stop ∧ tokens.drop stop = Outline.skipWhere rest := by
  simp only [skipWhere?, at?_eq, Option.bind_eq_bind, Option.bind_some, head?_of_drop h,
    Outline.skipWhere]
  split
  · obtain ⟨stop, hfind, hdrop, -⟩ := find?_spec Outline.endsHeader h
    exact ⟨stop, hfind, hdrop⟩
  · exact ⟨k, rfl, h⟩

theorem fn?_spec (name : Ident) {k : Nat} (h : tokens.drop k = rest) :
    Ends tokens (fn? tokens name k) (Outline.fnAt name rest) := by
  obtain ⟨params, k₁, hgenerics, hparams, h₁⟩ := generics?_spec h
  simp only [fn?, hgenerics, at?_eq, Option.bind_eq_bind, Option.bind_some, head?_of_drop h₁,
    Outline.fnAt, hparams]
  generalize Outline.generics rest = found at h₁
  obtain ⟨params', - | ⟨t, after⟩⟩ := found
  · exact ⟨k₁, rfl, h₁⟩
  cases t with
  | group d inner q =>
    cases d with
    | paren =>
      obtain ⟨k₂, houtput, h₂⟩ := output?_spec (drop_succ h₁)
      obtain ⟨k₃, hwhere, h₃⟩ := skipWhere?_spec h₂
      obtain ⟨inputs, hmarked, hinputs⟩ :=
        marked?_spec fun param (_ : param ∈ Angle.split ',' inner) => isReceiver?_eq param
      simp only [List.head?_cons, split?_eq, hmarked, houtput, hwhere, head?_of_drop h₃,
        Option.bind_some, hinputs]
      generalize Outline.skipWhere (Outline.output after).2 = body at h₃
      obtain - | ⟨t, behind⟩ := body
      · exact ⟨k₃, rfl, h₃⟩
      cases t with
      | group d inner q =>
        cases d with
        | brace => exact ⟨k₃ + 1, rfl, drop_succ h₃⟩
        | _ => exact ⟨k₃, rfl, h₃⟩
      | punct c joint q =>
        refine ⟨_, rfl, ?_⟩
        simp only
        split
        · exact drop_succ h₃
        · exact h₃
      | _ => exact ⟨k₃, rfl, h₃⟩
    | _ => exact ⟨k₁, rfl, h₁⟩
  | _ => exact ⟨k₁, rfl, h₁⟩

end GetterRename.Checked
