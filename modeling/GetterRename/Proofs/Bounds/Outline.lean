import GetterRename.Proofs.Bounds.Items

/-!
# Reading the outline, with positions

A step reads ahead from its position, takes slices of the token list and says where the next step
starts.  What it recognises and what it leaves are those of the step that looks at the front of the
list, and the next position is further on.

* `Checked.step?_spec`, `Checked.step?_lt` — one step, which takes at least one token;
* `Checked.parse?_eq` — the nodes of a token list.
-/

namespace GetterRename.Checked

section Steps

variable (tokens : List Token)

/-- A macro definition or invocation whose first word stands at a position. -/
def macroUse? (word : Ident) (pos : Nat) : Option (Option (Step × Nat)) := do
  let bang ← at? tokens (pos + 1)
  let second ← at? tokens (pos + 2)
  let third ← at? tokens (pos + 3)
  match second, third with
  | some (.ident name _), some (.group _ body _) =>
    if word.text = Bytes.ofString "macro_rules" && bang.any (·.isPunct '!') then
      some (some (.leaves [.macroUse ⟨name, true, word.pos.line, body⟩], pos + 4))
    else some none
  | some (.group _ body _), _ =>
    if !Outline.keywords.contains word.text && bang.any fun t => t.isPunct '!' && !t.isJoint then
      some (some (.leaves [.macroUse ⟨word.text, false, word.pos.line, body⟩], pos + 3))
    else some none
  | _, _ => some none

def itemAt? (j : Nat) : Option (Option (Step × Nat)) := do
  match ← at? tokens j with
  | some t => item? tokens t (j + 1)
  | none => some none

/-- What starts with the word at a position. -/
def wordAt? (word : Ident) (pos : Nat) : Option (Step × Nat) := do
  match ← macroUse? tokens word pos with
  | some found => some found
  | none => do
    let j ← skipQualifiers? tokens pos
    match ← itemAt? tokens j with
    | some found => some found
    | none =>
      if j ≠ pos then some (.nothing, j)
      else if Outline.keywords.contains word.text then some (.nothing, pos + 1)
      else pathCall? tokens word pos

/-- One step from a position, and the position of the next one. -/
def step? (pos : Nat) : Option (Step × Nat) := do
  match ← get? tokens pos with
  | .doc text p => some (.leaves [.doc ⟨text, p.line⟩], pos + 1)
  | .group _ inner _ => some (.transparent inner, pos + 1)
  | .punct c joint _ =>
    if c = byte '#' then attribute? tokens pos
    else if c = byte '.' then dot? tokens joint pos
    else some (.nothing, pos + 1)
  | .ident text p => wordAt? tokens ⟨text, p⟩ pos
  | .literal _ _ => some (.nothing, pos + 1)

end Steps

def parseFrom? : Nat → List Token → Nat → Option (List Node)
  | 0, _, _ => none
  | n + 1, tokens, pos =>
    if pos < tokens.length then do
      let (found, next) ← step? tokens pos
      let inner ← parseFrom? n found.inside 0
      let nodes ← parseFrom? n tokens next
      some (found.nodes inner ++ nodes)
    else some []

def parse? (tokens : List Token) : Option (List Node) :=
  parseFrom? (Token.weightL tokens + 1) tokens 0

variable {tokens rest : List Token} {pos : Nat}

/-! ### Words -/

theorem macroUse?_spec (word : Ident) {t : Token} (h : tokens.drop pos = t :: rest) :
    EndsMaybe tokens (macroUse? tokens word pos) (Outline.macroUse? word rest) := by
  have hnext := drop_succ h
  have hread := getElem?_of_drop hnext
  have hbang : tokens[pos + 1]? = rest[0]? := hread 0
  have hsecond : tokens[pos + 2]? = rest[1]? := hread 1
  have hthird : tokens[pos + 3]? = rest[2]? := hread 2
  simp only [macroUse?, at?_eq, Option.bind_eq_bind, Option.bind_some, hbang, hsecond, hthird]
  obtain - | ⟨bang, - | ⟨second, more⟩⟩ := rest
  · rfl
  · rfl
  cases second with
  | group d body q =>
    simp only [List.getElem?_cons_zero, List.getElem?_cons_succ, Option.any_some,
      Outline.macroUse?, ← Bool.and_assoc]
    split
    · exact ⟨pos + 3, rfl, drop_succ (drop_succ hnext)⟩
    · rfl
  | ident name q =>
    obtain - | ⟨third, after⟩ := more
    · rfl
    cases third with
    | group d body q' =>
      simp only [List.getElem?_cons_zero, List.getElem?_cons_succ, Option.any_some,
        Outline.macroUse?]
      split
      · exact ⟨pos + 4, rfl, drop_succ (drop_succ (drop_succ hnext))⟩
      · rfl
    | _ => rfl
  | _ => rfl

theorem itemAt?_spec {k : Nat} (h : tokens.drop k = rest) :
    EndsMaybe tokens (itemAt? tokens k)
      (rest.head?.bind fun t => Outline.item? t (rest.drop 1)) := by
  simp only [itemAt?, at?_eq, Option.bind_eq_bind, Option.bind_some, head?_of_drop h]
  cases rest with
  | nil => rfl
  | cons t rest => exact item?_spec h

theorem wordAt?_spec {text : Bytes} {p : Pos} (h : tokens.drop pos = .ident text p :: rest) :
    Ends tokens (wordAt? tokens ⟨text, p⟩ pos) (Outline.word ⟨text, p⟩ rest) := by
  have hmacro := macroUse?_spec ⟨text, p⟩ h
  obtain ⟨j, hskip, hj⟩ := skipQualifiers?_spec h
  have hitem := itemAt?_spec hj
  unfold wordAt? Outline.word
  cases hm : Outline.macroUse? ⟨text, p⟩ rest with
  | some r =>
    rw [hm] at hmacro
    obtain ⟨stop, hread, hdrop⟩ := hmacro
    rw [hread]
    exact ⟨stop, rfl, hdrop⟩
  | none =>
    rw [hm] at hmacro
    rw [show macroUse? tokens ⟨text, p⟩ pos = some none from hmacro]
    simp only [Option.bind_eq_bind, Option.bind_some, hskip]
    -- the position moved exactly when fewer tokens are left
    have hmoved : (Outline.skipQualifiers (.ident text p :: rest)).length ≠ rest.length + 1 ↔
        j ≠ pos := by
      have hlt := lt_length_of_drop h
      have hlength := congrArg List.length h
      rw [← hj]
      rw [List.length_drop, List.length_cons] at *
      omega
    generalize Outline.skipQualifiers (.ident text p :: rest) = start at *
    cases hi : start.head?.bind fun t => Outline.item? t (start.drop 1) with
    | some r =>
      rw [hi] at hitem
      obtain ⟨stop, hread, hdrop⟩ := hitem
      rw [hread]
      exact ⟨stop, rfl, hdrop⟩
    | none =>
      rw [hi] at hitem
      rw [show itemAt? tokens j = some none from hitem]
      simp only [Option.bind_some]
      by_cases hne : j ≠ pos
      · rw [if_pos hne, if_pos (hmoved.2 hne)]
        exact ⟨j, rfl, hj⟩
      rw [if_neg hne, if_neg (mt hmoved.1 hne)]
      split
      · exact ⟨pos + 1, rfl, drop_succ h⟩
      · exact pathCall?_spec _ (drop_succ h)

/-! ### Steps -/

/-- **One step.**  No read of the token list is out of range; what the step recognises and what it
leaves are those of the step at the front of the list. -/
theorem step?_spec {t : Token} (h : tokens.drop pos = t :: rest) :
    Ends tokens (step? tokens pos) (Outline.step t rest) := by
  unfold step?
  rw [get?_natCast, head?_of_drop h, List.head?_cons, Option.bind_eq_bind, Option.bind_some]
  have hnext := drop_succ h
  cases t with
  | doc text p => exact ⟨pos + 1, rfl, hnext⟩
  | group d inner p => exact ⟨pos + 1, rfl, hnext⟩
  | ident text p => exact wordAt?_spec h
  | literal text p => exact ⟨pos + 1, rfl, hnext⟩
  | punct c joint p =>
    simp only [Outline.step]
    split
    · exact attribute?_spec hnext
    split
    · rename_i hdot
      exact dot?_spec joint h (by simp [Token.isPunct, hdot])
    · exact ⟨pos + 1, rfl, hnext⟩

/-- Every step takes at least one token. -/
theorem step?_lt {found : Step} {next : Nat} (h : step? tokens pos = some (found, next)) :
    pos < next := by
  cases hdrop : tokens.drop pos with
  | nil =>
    have hend : tokens.length ≤ pos := by simpa using hdrop
    rw [step?, get?_natCast, List.getElem?_eq_none hend] at h
    cases h
  | cons t rest =>
    obtain ⟨next', hstep, hbehind⟩ := step?_spec hdrop
    obtain ⟨-, rfl⟩ := Prod.mk.inj (Option.some.inj (hstep.symm.trans h))
    have hleft := Outline.left_step_lt t rest
    rw [Outline.left, ← hbehind, ← Token.weightL_cons, ← hdrop] at hleft
    apply Nat.lt_of_not_le
    intro hle
    -- the tokens of the step would be left behind it
    have hagain : tokens.drop pos = (tokens.drop next').drop (pos - next') := by
      rw [List.drop_drop]
      congr 1
      omega
    have := Token.weightL_drop_le (pos - next') (tokens.drop next')
    rw [← hagain] at this
    omega

theorem parseFrom?_eq {n : Nat} (h : tokens.drop pos = rest) (hn : Token.weightL rest < n) :
    parseFrom? n tokens pos = some (Outline.read rest) := by
  induction n generalizing tokens pos rest with
  | zero => omega
  | succ n ih =>
    unfold parseFrom?
    cases rest with
    | nil =>
      rw [if_neg (by simpa using h), Outline.read]
    | cons t rest =>
      obtain ⟨next, hstep, hbehind⟩ := step?_spec h
      have hleft := Outline.left_step_lt t rest
      rw [Outline.left] at hleft
      rw [Token.weightL_cons] at hn
      have hinner : parseFrom? n (Outline.step t rest).1.inside 0 =
          some (Outline.read (Outline.step t rest).1.inside) := ih List.drop_zero (by omega)
      have hnodes : parseFrom? n tokens next = some (Outline.read (Outline.step t rest).2) :=
        ih hbehind (by omega)
      simp only [if_pos (lt_length_of_drop h), hstep, hinner, hnodes, Option.bind_eq_bind,
        Option.bind_some]
      rw [Outline.read]

/-- **Reading the outline.**  The steps end, no read of a token list is out of range, and the nodes
are those of the list. -/
theorem parse?_eq (tokens : List Token) : parse? tokens = some (Outline.read tokens) :=
  parseFrom?_eq (List.drop_zero : tokens.drop 0 = tokens) (Nat.lt_succ_self _)

end GetterRename.Checked
