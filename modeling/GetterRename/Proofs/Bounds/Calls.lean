import GetterRename.Proofs.Bounds.Reader

/-!
# Attributes and calls, with positions

A step says what it recognises and at which position the next step starts.  An attribute, a method
call and a path call look at most a few tokens ahead, and at a list of generic arguments.

* `Checked.Ends` — what a step recognises and what is left behind it;
* `Checked.attribute?_spec`, `Checked.dot?_spec`, `Checked.pathCall?_spec` — the steps.
-/

namespace GetterRename.Checked

section Steps

variable (tokens : List Token)

def attribute? (pos : Nat) : Option (Step × Nat) := do
  let bang ← at? tokens (pos + 1)
  let i := if bang.any (·.isPunct '!') then pos + 2 else pos + 1
  match ← at? tokens i with
  | some (.group .bracket content _) => do
    let docs ← attributeDocs? content
    some (.leaves docs, i + 1)
  | _ => some (.nothing, pos + 1)

def dot? (joint : Bool) (pos : Nat) : Option (Step × Nat) := do
  let next ← at? tokens (pos + 1)
  if joint && next.any (·.isPunct '.') then
    let stop ← dotsFrom? tokens (turns tokens) pos
    some (.nothing, stop)
  else
    match next with
    | some (.ident name p) => do
      let (fish, k) ← turbofish? tokens (pos + 2)
      match ← at? tokens k with
      | some (.group .paren args _) =>
        some (.construct (.methodCall ⟨⟨name, p⟩, fish, 0 < args.length⟩) args, k + 1)
      | _ => some (.nothing, k)
    | _ => some (.nothing, pos + 1)

/-- A path call whose last name stands at a position. -/
def pathCall? (name : Ident) (pos : Nat) : Option (Step × Nat) := do
  let (fish, k) ← turbofish? tokens (pos + 1)
  match ← at? tokens k with
  | some (.group .paren args _) => some (.construct (.call ⟨name, fish, 0 < args.length⟩) args, k + 1)
  | _ => some (.nothing, pos + 1)

end Steps

/-- What a step recognises, and what it leaves behind its position. -/
def Ends (tokens : List Token) (found : Option (Step × Nat)) (r : Step × List Token) : Prop :=
  ∃ pos, found = some (r.1, pos) ∧ tokens.drop pos = r.2

/-- The same for a step that may not apply. -/
def EndsMaybe (tokens : List Token) (found : Option (Option (Step × Nat))) :
    Option (Step × List Token) → Prop
  | some r => ∃ pos, found = some (some (r.1, pos)) ∧ tokens.drop pos = r.2
  | none => found = some none

variable {tokens rest : List Token} {pos : Nat}

theorem head?_of_drop (h : tokens.drop pos = rest) : tokens[pos]? = rest.head? := by
  rw [List.head?_eq_getElem?]
  exact getElem?_of_drop h 0

theorem attribute?_spec (h : tokens.drop (pos + 1) = rest) :
    Ends tokens (attribute? tokens pos) (Outline.attributeAt rest) := by
  -- the position of the brackets, and what is left there
  obtain ⟨i, body, hi, hbody, hdrop⟩ : ∃ i body,
      (if rest.head?.any (·.isPunct '!') then pos + 2 else pos + 1) = i ∧
      (if rest.head?.any (·.isPunct '!') then rest.drop 1 else rest) = body ∧
      tokens.drop i = body := by
    refine ⟨_, _, rfl, rfl, ?_⟩
    split
    · exact drop_add h 1
    · exact h
  simp only [attribute?, at?_eq, Option.bind_eq_bind, Option.bind_some, head?_of_drop h, hi,
    head?_of_drop hdrop, Outline.attributeAt, hbody]
  obtain - | ⟨t, after⟩ := body
  · exact ⟨pos + 1, rfl, h⟩
  cases t with
  | group d content q =>
    cases d with
    | bracket =>
      simp only [List.head?_cons, attributeDocs?_eq, Option.bind_some]
      exact ⟨i + 1, rfl, drop_succ hdrop⟩
    | _ => exact ⟨pos + 1, rfl, h⟩
  | _ => exact ⟨pos + 1, rfl, h⟩

theorem decide_length_pos (args : List Token) : decide (0 < args.length) = !args.isEmpty := by
  cases args <;> simp

theorem pathCall?_spec (name : Ident) (h : tokens.drop (pos + 1) = rest) :
    Ends tokens (pathCall? tokens name pos) (Outline.pathCall name rest) := by
  obtain ⟨k, hfish, hdrop⟩ := turbofish?_spec h
  simp only [pathCall?, hfish, at?_eq, Option.bind_eq_bind, Option.bind_some, head?_of_drop hdrop,
    Outline.pathCall, decide_length_pos]
  generalize Outline.turbofish rest = found at hdrop
  obtain ⟨fish, - | ⟨t, after⟩⟩ := found
  · exact ⟨pos + 1, rfl, h⟩
  cases t with
  | group d args q =>
    cases d with
    | paren => exact ⟨k + 1, rfl, drop_succ hdrop⟩
    | _ => exact ⟨pos + 1, rfl, h⟩
  | _ => exact ⟨pos + 1, rfl, h⟩

theorem dot?_spec (joint : Bool) {t : Token} (h : tokens.drop pos = t :: rest)
    (ht : t.isPunct '.' = true) :
    Ends tokens (dot? tokens joint pos) (Outline.dotAt joint rest) := by
  have hnext := drop_succ h
  simp only [dot?, at?_eq, Option.bind_eq_bind, Option.bind_some, head?_of_drop hnext,
    Outline.dotAt]
  split
  · obtain ⟨k, hk, hdrop⟩ := dotsFrom?_spec h (length_of_drop h)
    rw [hk, List.dropWhile_cons_of_pos ht] at *
    exact ⟨k, rfl, hdrop⟩
  obtain - | ⟨next, after⟩ := rest
  · exact ⟨pos + 1, rfl, hnext⟩
  cases next with
  | ident name q =>
    obtain ⟨k, hfish, hdrop⟩ := turbofish?_spec (drop_succ hnext)
    simp only [List.head?_cons, hfish, Option.bind_some, head?_of_drop hdrop,
      decide_length_pos]
    generalize Outline.turbofish after = found at hdrop
    obtain ⟨fish, - | ⟨u, behind⟩⟩ := found
    · exact ⟨k, rfl, hdrop⟩
    cases u with
    | group d args q =>
      cases d with
      | paren => exact ⟨k + 1, rfl, drop_succ hdrop⟩
      | _ => exact ⟨k, rfl, hdrop⟩
    | _ => exact ⟨k, rfl, hdrop⟩
  | _ => exact ⟨pos + 1, rfl, hnext⟩

end GetterRename.Checked
