import GetterRename.Proofs.Bounds.Angles

/-!
# Reading ahead in a token list

What the outline is read with: a look at the token at a position, which gives nothing behind the end
of the list, and the loops that move a position on.  Positions may come to stand behind the end; what
is left from there is the empty list.

* `Checked.at?` — the token at a position;
* `Checked.find?_spec`, `Checked.turbofish?_spec`, `Checked.skipQualifiers?_spec` — positions moved
  on;
* `Checked.attributeDocs?_eq` — the lines of a documentation attribute.
-/

namespace GetterRename.Checked

/-! ### Positions -/

section Loops

variable (tokens : List Token)

/-- The token at a position, none behind the end of the list. -/
def at? (i : Nat) : Option (Option Token) :=
  if tokens.length ≤ i then some none else (get? tokens i).map some

def findFrom? (stop : Token → Bool) : Nat → Nat → Option Nat
  | 0, _ => none
  | n + 1, i =>
    if i < tokens.length then do
      let t ← get? tokens i
      if stop t then some i else findFrom? stop n (i + 1)
    else some i

/-- The position of the first token from `i` on that satisfies `stop`, or the end of the list. -/
def find? (stop : Token → Bool) (i : Nat) : Option Nat := findFrom? tokens stop (turns tokens) i

def dotsFrom? : Nat → Nat → Option Nat
  | 0, _ => none
  | n + 1, i => do
    let t ← at? tokens i
    if t.any (·.isPunct '.') then dotsFrom? n (i + 1) else some i

/-- The position behind `::<...>`, and whether it stands there. -/
def turbofish? (i : Nat) : Option (Bool × Nat) := do
  let a ← at? tokens i
  let b ← at? tokens (i + 1)
  let c ← at? tokens (i + 2)
  if a.any (·.isPunct ':') && b.any (·.isPunct ':') && c.any (·.isPunct '<') then
    let stop ← skipAngles? tokens (i + 2)
    some (true, stop)
  else some (false, i)

def qualifierSize? (i : Nat) : Option Nat := do
  let t ← get? tokens i
  let second ← at? tokens (i + 1)
  let third ← at? tokens (i + 2)
  if t.isIdent "pub" then some (if second.any (·.isGroupOf .paren) then 2 else 1)
  else if Outline.isQualifier t then
    some (if second.any fun next => next.isName && Outline.qualified.contains next.text then 1
      else 0)
  else if t.isIdent "extern" then
    if second.any (·.isLiteral) && third.any (·.isIdent "fn") then some 2
    else some (if second.any (·.isIdent "fn") then 1 else 0)
  else some 0

def skipQualifiersFrom? : Nat → Nat → Option Nat
  | 0, _ => none
  | n + 1, i =>
    if i < tokens.length then do
      let size ← qualifierSize? tokens i
      if size = 0 then some i else skipQualifiersFrom? n (i + size)
    else some i

/-- The position behind visibility and qualifiers such as `pub(crate) const unsafe`. -/
def skipQualifiers? (i : Nat) : Option Nat := skipQualifiersFrom? tokens (turns tokens) i

end Loops

variable {tokens rest : List Token} {i n : Nat}

@[simp] theorem at?_eq (tokens : List Token) (i : Nat) : at? tokens i = some tokens[i]? := by
  unfold at?
  split
  · rename_i hend
    rw [List.getElem?_eq_none hend]
  · rename_i hlt
    rw [get?_natCast, List.getElem?_eq_getElem (by omega)]
    rfl

theorem drop_add (h : tokens.drop i = rest) (k : Nat) : tokens.drop (i + k) = rest.drop k := by
  rw [← h, List.drop_drop]

theorem findFrom?_spec (stop : Token → Bool) (h : tokens.drop i = rest) (hn : rest.length < n) :
    ∃ k, findFrom? tokens stop n i = some k ∧ tokens.drop k = rest.dropWhile (!stop ·) ∧
      k = i + (rest.takeWhile (!stop ·)).length := by
  induction n generalizing i rest with
  | zero => omega
  | succ n ih =>
    unfold findFrom?
    cases rest with
    | nil => exact ⟨i, by rw [if_neg (by simpa using h)], h, rfl⟩
    | cons t rest =>
      have ht : tokens[i]? = some t := getElem?_of_drop h 0
      simp only [if_pos (lt_length_of_drop h), get?_natCast, ht, Option.bind_eq_bind,
        Option.bind_some]
      by_cases hstop : stop t = true
      · rw [if_pos hstop, List.dropWhile_cons_of_neg (by simp [hstop]),
          List.takeWhile_cons_of_neg (by simp [hstop])]
        exact ⟨i, rfl, h, rfl⟩
      · rw [if_neg hstop, List.dropWhile_cons_of_pos (by simp [hstop]),
          List.takeWhile_cons_of_pos (by simp [hstop])]
        obtain ⟨k, hk, hdrop, hlength⟩ := ih (drop_succ h) (by simpa using hn)
        refine ⟨k, hk, hdrop, ?_⟩
        rw [List.length_cons]
        omega

theorem find?_spec (stop : Token → Bool) (h : tokens.drop i = rest) :
    ∃ k, find? tokens stop i = some k ∧ tokens.drop k = rest.dropWhile (!stop ·) ∧
      k = i + (rest.takeWhile (!stop ·)).length :=
  findFrom?_spec stop h (length_of_drop h)

theorem dotsFrom?_spec (h : tokens.drop i = rest) (hn : rest.length < n) :
    ∃ k, dotsFrom? tokens n i = some k ∧ tokens.drop k = rest.dropWhile (·.isPunct '.') := by
  induction n generalizing i rest with
  | zero => omega
  | succ n ih =>
    have hread : tokens[i]? = rest[0]? := getElem?_of_drop h 0
    unfold dotsFrom?
    rw [at?_eq, Option.bind_eq_bind, Option.bind_some, hread]
    cases rest with
    | nil => exact ⟨i, rfl, h⟩
    | cons t rest =>
      rw [List.getElem?_cons_zero, Option.any_some]
      by_cases hdot : t.isPunct '.' = true
      · rw [if_pos hdot, List.dropWhile_cons_of_pos hdot]
        exact ih (drop_succ h) (by simpa using hn)
      · rw [if_neg hdot, List.dropWhile_cons_of_neg hdot]
        exact ⟨i, rfl, h⟩

/-- A `<` opens its list whatever stands in front of it. -/
theorem reach_of_lt {t : Token} (h : t.isPunct '<' = true) (last : Option Token) :
    Angle.reach last 0 (t :: rest) = Angle.reach none 0 (t :: rest) := by
  simp only [Angle.reach, Angle.step, h, if_true]

theorem skipAngles?_spec {t : Token} (h : tokens.drop i = t :: rest) (ht : t.isPunct '<' = true) :
    skipAngles? tokens i = some (i + Angle.reach none 0 (t :: rest)) ∧
      tokens.drop (i + Angle.reach none 0 (t :: rest)) = (Angle.span (t :: rest)).2 := by
  constructor
  · rw [skipAngles?_eq h, reach_of_lt ht]
  · rw [drop_add h, Angle.span, List.splitAt_eq]

theorem turbofish?_spec (h : tokens.drop i = rest) :
    ∃ k, turbofish? tokens i = some ((Outline.turbofish rest).1, k) ∧
      tokens.drop k = (Outline.turbofish rest).2 := by
  have hread := getElem?_of_drop h
  have hfirst : tokens[i]? = rest[0]? := hread 0
  simp only [turbofish?, at?_eq, Option.bind_eq_bind, Option.bind_some, hfirst, hread 1, hread 2]
  obtain - | ⟨a, - | ⟨b, - | ⟨c, after⟩⟩⟩ := rest
  · exact ⟨i, rfl, h⟩
  · exact ⟨i, by simp [Outline.turbofish], h⟩
  · exact ⟨i, by simp [Outline.turbofish], h⟩
  · simp only [List.getElem?_cons_zero, List.getElem?_cons_succ, Option.any_some, Outline.turbofish]
    split
    · rename_i hfish
      obtain ⟨-, hc⟩ := Bool.and_eq_true_iff.1 hfish
      obtain ⟨hskip, hdrop⟩ := skipAngles?_spec (drop_add h 2) hc
      rw [hskip]
      exact ⟨_, rfl, hdrop⟩
    · exact ⟨i, rfl, h⟩

/-! ### Qualifiers -/

theorem qualifierSize?_eq {t : Token} (h : tokens.drop i = t :: rest) :
    qualifierSize? tokens i = some (Outline.qualifierSize t rest) := by
  have ht : tokens[i]? = some t := getElem?_of_drop h 0
  have hsecond : tokens[i + 1]? = rest.head? := by
    rw [List.head?_eq_getElem?]
    exact getElem?_of_drop h 1
  have hthird : tokens[i + 2]? = rest[1]? := getElem?_of_drop h 2
  simp only [qualifierSize?, get?_natCast, ht, at?_eq, hsecond, hthird, Option.bind_eq_bind,
    Option.bind_some, Outline.qualifierSize]
  split
  · rfl
  split
  · rfl
  split
  · split <;> rfl
  · rfl

theorem skipQualifiersFrom_eq_drop (k : Nat) (ts : List Token) :
    Outline.skipQualifiersFrom k ts = Outline.skipQualifiers (ts.drop k) := by
  induction k generalizing ts with
  | zero => rfl
  | succ k ih =>
    cases ts with
    | nil => rfl
    | cons t ts => exact ih ts

theorem skipQualifiersFrom?_spec (h : tokens.drop i = rest) (hn : rest.length < n) :
    ∃ k, skipQualifiersFrom? tokens n i = some k ∧
      tokens.drop k = Outline.skipQualifiers rest := by
  induction n generalizing i rest with
  | zero => omega
  | succ n ih =>
    unfold skipQualifiersFrom?
    cases rest with
    | nil => exact ⟨i, by rw [if_neg (by simpa using h)], h⟩
    | cons t rest =>
      rw [if_pos (lt_length_of_drop h), qualifierSize?_eq h, Option.bind_eq_bind, Option.bind_some,
        Outline.skipQualifiers, Outline.skipQualifiersFrom]
      cases Outline.qualifierSize t rest with
      | zero => exact ⟨i, rfl, h⟩
      | succ k =>
        simp only [if_neg (Nat.succ_ne_zero k), skipQualifiersFrom_eq_drop]
        apply ih
        · exact drop_add h (k + 1)
        · rw [List.length_drop]
          rw [List.length_cons] at hn
          omega

theorem skipQualifiers?_spec (h : tokens.drop i = rest) :
    ∃ k, skipQualifiers? tokens i = some k ∧ tokens.drop k = Outline.skipQualifiers rest :=
  skipQualifiersFrom?_spec h (length_of_drop h)

/-! ### Documentation attributes -/

def unquote? (lit : Bytes) : Option Bytes := do
  let content ←
    if lit.head? = some (byte 'r') then
      (slice? lit 1 lit.length).map (Bytes.trim (· == byte '#'))
    else some lit
  return Bytes.dropTail "\"" (Bytes.dropHead "\"" content)

/-- The escapes of a line decoded from the position `i` on; `out` is what has been decoded. -/
def unescapeFrom? (line : Bytes) : Nat → Nat → Bytes → Option Bytes
  | 0, _, _ => none
  | n + 1, i, out =>
    if i < line.length then do
      let c ← get? line i
      if c != byte '\\' then unescapeFrom? line n (i + 1) (out ++ [c])
      else if i + 1 = line.length then some out
      else
        let next ← get? line (i + 1)
        if next = byte '\\' || next = byte '"' || next = byte '\'' then
          unescapeFrom? line n (i + 2) (out ++ [next])
        else unescapeFrom? line n (i + 2) (out ++ [c, next])
    else some out

def docLine? (isRaw : Bool) (text : Bytes) : Option Bytes :=
  let text := Bytes.dropTail "\r" text
  if isRaw then some text else unescapeFrom? text (turns text) 0 []

/-- The documentation lines of the literal of a `#[doc = ...]` attribute on line `line`. -/
def docLines? (lit : Bytes) (line : Nat) : Option (List Node) := do
  let content ← unquote? lit
  let texts ← (Bytes.splitOn (byte '\n') content).mapM (docLine? (lit.head? = some (byte 'r')))
  return texts.mapIdx fun i text => .doc ⟨text, line + i⟩

def attributeDocs? (content : List Token) : Option (List Node) :=
  if content.length != 3 then some []
  else do
    let a ← get? content 0
    let b ← get? content 1
    let c ← get? content 2
    match c with
    | .literal lit p =>
      if a.isIdent "doc" && b.isPunct '=' then docLines? lit p.line else some []
    | _ => some []

theorem unquote?_eq (lit : Bytes) : unquote? lit = some (Outline.unquote lit) := by
  unfold unquote? Outline.unquote
  split
  · rename_i hraw
    obtain ⟨rest, rfl⟩ := List.head?_eq_some_iff.1 hraw
    have hslice : slice? (byte 'r' :: rest) 1 (byte 'r' :: rest).length = some rest :=
      slice?_rest (byte 'r' :: rest) (by simp)
    rw [hslice]
    rfl
  · rfl

theorem unescapeFrom?_eq {doc text out : Bytes} (h : doc.drop i = text) (hn : text.length < n) :
    unescapeFrom? doc n i out = some (out ++ Outline.unescape text) := by
  induction n generalizing i text out with
  | zero => omega
  | succ n ih =>
    have hread : ∀ k, doc[i + k]? = text[k]? := fun k => by rw [← h, List.getElem?_drop]
    have hdrop : ∀ k, doc.drop (i + k) = text.drop k := fun k => by rw [← h, List.drop_drop]
    have hlength : text.length = doc.length - i := by rw [← h, List.length_drop]
    have hfirst : doc[i]? = text[0]? := hread 0
    unfold unescapeFrom?
    obtain - | ⟨b, - | ⟨c, rest⟩⟩ := text
    · rw [if_neg (by simp at hlength; omega)]
      simp [Outline.unescape]
    · -- the last byte of the line
      rw [List.length_singleton] at hlength
      rw [if_pos (by omega), get?_natCast, hfirst, List.getElem?_cons_zero, Option.bind_eq_bind,
        Option.bind_some, if_pos (by omega : i + 1 = doc.length), Outline.unescape]
      by_cases hb : b = byte '\\'
      · rw [if_neg (by simp [hb]), if_pos hb, List.append_nil]
      · rw [if_pos (by simp [hb]), if_neg hb, ih (hdrop 1) (by simp at hn ⊢; omega)]
        simp [Outline.unescape]
    · rw [List.length_cons, List.length_cons] at hlength
      have hnext : get? doc ((i : Int) + 1) = some c := by
        have := hread 1
        rw [← get?_natCast] at this
        exact this
      rw [if_pos (by omega), get?_natCast, hfirst, List.getElem?_cons_zero, Option.bind_eq_bind,
        Option.bind_some, if_neg (by omega : ¬ i + 1 = doc.length), Outline.unescape]
      simp only [List.length_cons] at hn
      by_cases hb : b = byte '\\'
      · rw [if_neg (by simp [hb]), if_pos hb, hnext, Option.bind_some]
        have hrest : ∀ out, unescapeFrom? doc n (i + 2) out = some (out ++ Outline.unescape rest) :=
          fun out => ih (hdrop 2) (show rest.length < n by omega)
        simp only [hrest, Bool.or_eq_true, decide_eq_true_eq]
        split <;> simp
      · rw [if_pos (by simp [hb]), if_neg hb, ih (hdrop 1) (show rest.length + 1 < n by omega)]
        simp

theorem docLine?_eq (isRaw : Bool) (text : Bytes) :
    docLine? isRaw text = some (if isRaw then Bytes.dropTail "\r" text
      else Outline.unescape (Bytes.dropTail "\r" text)) := by
  unfold docLine?
  cases isRaw with
  | true => rfl
  | false => exact unescapeFrom?_eq (i := 0) rfl (Nat.lt_succ_self _)

theorem docLines?_eq (lit : Bytes) (line : Nat) :
    docLines? lit line = some (Outline.docLines lit line) := by
  unfold docLines? Outline.docLines
  rw [unquote?_eq, Option.bind_eq_bind, Option.bind_some, mapM_eq_map fun text _ => docLine?_eq _ text,
    Option.bind_eq_bind, Option.bind_some, mapIdx_map]
  simp only [decide_eq_true_eq]
  rfl

theorem attributeDocs?_eq (content : List Token) :
    attributeDocs? content = some (Outline.attributeDocs content) := by
  unfold attributeDocs?
  split
  · rename_i hlength
    unfold Outline.attributeDocs
    split
    · simp at hlength
    · rfl
  · rename_i hlength
    obtain ⟨a, b, c, rfl⟩ : ∃ a b c, content = [a, b, c] := by
      obtain - | ⟨a, - | ⟨b, - | ⟨c, - | ⟨d, rest⟩⟩⟩⟩ := content
      · simp at hlength
      · simp at hlength
      · simp at hlength
      · exact ⟨a, b, c, rfl⟩
      · simp at hlength
    have hsecond : get? [a, b, c] 1 = some b := rfl
    have hthird : get? [a, b, c] 2 = some c := rfl
    rw [get?_zero, hsecond, hthird]
    simp only [List.head?_cons, Option.bind_eq_bind, Option.bind_some]
    cases c with
    | literal lit p =>
      simp only [Outline.attributeDocs, docLines?_eq]
      split <;> rfl
    | _ => rfl

end GetterRename.Checked
