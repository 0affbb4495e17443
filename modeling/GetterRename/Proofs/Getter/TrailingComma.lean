import GetterRename.Proofs.Getter.DefinitionRecall

/-!
# A comma behind the last input

The outline drops the empty part behind a last comma, so the comma makes no difference to it.  The
definition matcher takes each comma for another input.  Behind the inputs it goes on alike with and
without the last one, up to the decision about the function: where its shape matters it is refused
for the comma, unless it returns a `bool`.

* `Angle.split_concat`, `Outline.read_trailing_comma` — the outline without the comma;
* `DefinitionMatcher.Differ` — findings that differ in the decision about one function;
* `DefinitionMatcher.Twins`, `DefinitionMatcher.startAlike` — the runs with and without the comma;
* `DefinitionMatcher.renames_trailing_comma` — the renames with and without the comma.
-/

namespace GetterRename

/-! ### The outline -/

namespace Angle

def depthFrom (last : Option Token) (depth : Nat) : List Token → Nat
  | [] => depth
  | t :: rest => depthFrom (some t) (step last t depth) rest

theorem step_comma {t : Token} (h : t.isPunct ',' = true) (last : Option Token) (depth : Nat) :
    step last t depth = depth := by
  obtain ⟨joint, p, rfl⟩ := Token.exists_eq_of_isPunct h
  simp +decide [step, Token.isPunct]

theorem splitFrom_concat {comma : Token} (hcomma : comma.isPunct ',' = true) {ts : List Token}
    {last : Option Token} {depth : Nat} {part : List Token} (h : depthFrom last depth ts = 0) :
    splitFrom ',' last depth part (ts ++ [comma]) = splitFrom ',' last depth part ts := by
  induction ts generalizing last depth part with
  | nil =>
    obtain rfl : depth = 0 := h
    simp [splitFrom, hcomma]
  | cons t ts ih =>
    rw [List.cons_append, splitFrom, splitFrom]
    split
    · rename_i hsep
      obtain ⟨rfl, hsep⟩ : depth = 0 ∧ t.isPunct ',' = true := by simpa using hsep
      have hrest : depthFrom (some t) 0 ts = 0 := by
        rwa [depthFrom, step_comma hsep] at h
      rw [ih hrest]
    · exact ih h

/-- The part behind a last comma is empty, where all angle brackets are closed. -/
theorem split_concat {comma : Token} (hcomma : comma.isPunct ',' = true) {ts : List Token}
    (h : depthFrom none 0 ts = 0) : split ',' (ts ++ [comma]) = split ',' ts :=
  splitFrom_concat hcomma h

end Angle

/-- **A comma behind the last input** makes no difference to the outline. -/
theorem Outline.read_trailing_comma {comma : Token} (hcomma : comma.isPunct ',' = true)
    {inputs : List Token} (hclosed : Angle.depthFrom none 0 inputs = 0) (fnPos p q : Pos)
    (name : Bytes) (after : List Token) :
    read (.ident "fn" fnPos :: .ident name p :: .group .paren (inputs ++ [comma]) q :: after) =
      read (.ident "fn" fnPos :: .ident name p :: .group .paren inputs q :: after) := by
  have hfn : fnAt ⟨name, p⟩ (.group .paren (inputs ++ [comma]) q :: after) =
      fnAt ⟨name, p⟩ (.group .paren inputs q :: after) := by
    simp [fnAt, generics, Token.isPunct, Angle.split_concat hcomma hclosed]
  rw [read, read, step_fn, step_fn, hfn]

namespace DefinitionMatcher

variable {ctx : Context} {scope : Scope} {id : Ident}

/-! ### Findings that differ in one decision -/

variable (ctx scope id) in
/-- The findings are the same, but for the decision about a function of this name, for which the
second ones count a comma more. -/
inductive Differ : List Finding → List Finding → Prop
  | same (found : List Finding) : Differ found found
  | own {cand : Candidate} (hof : cand.Of ctx id) (before after : List Finding) :
    Differ (before ++ ctx.judge scope cand cand.streamObjection :: after)
      (before ++ ctx.judge scope (withCommas cand true) (withCommas cand true).streamObjection ::
        after)

theorem Differ.append {found found' : List Finding} (h : Differ ctx scope id found found')
    (before after : List Finding) :
    Differ ctx scope id (before ++ found ++ after) (before ++ found' ++ after) := by
  cases h with
  | same => exact .same _
  | own hof front back =>
    have hown : Differ ctx scope id _ _ := .own hof (before ++ front) (back ++ after)
    simpa using hown

theorem differ_decided {cand : Candidate} (hof : cand.Of ctx id) :
    Differ ctx scope id (decided ctx scope cand).2 (decided ctx scope (withCommas cand true)).2 :=
  .own hof [] []

/-! ### The runs with and without the comma -/

/-- The phases are the same, but for a receiver that is behind already. -/
def Alike (phase phase' : Phase) : Prop := phase' = phase ∨ phase = .argSelf ∧ phase' = .args

variable (ctx scope id) in
/-- The states of two runs and what they found: both hold the candidate of this name, the second one
with a comma more, or both are done with it. -/
inductive Twins : State × List Finding → State × List Finding → Prop
  | held {cand : Candidate} {phase phase' : Phase} (hof : cand.Of ctx id)
      (hphase : Alike phase phase') (depth : Nat) (found : List Finding) :
    Twins (.pending phase cand depth, found) (.pending phase' (withCommas cand true) depth, found)
  | settled {found found' : List Finding} (h : Differ ctx scope id found found') (state : State) :
    Twins (state, found) (state, found')

section Steps

variable {cand : Candidate} {phase phase' : Phase}

theorem Twins.kept (hof : cand.Of ctx id) (phase : Phase) (depth : Nat) :
    Twins ctx scope id (.pending phase cand depth, [])
      (.pending phase (withCommas cand true) depth, []) :=
  .held hof (.inl rfl) depth []

theorem Twins.decided (hof : cand.Of ctx id) :
    Twins ctx scope id (decided ctx scope cand) (decided ctx scope (withCommas cand true)) :=
  .settled (differ_decided hof) _

/-- Between the inputs and behind them it does not matter whether a receiver was read last. -/
theorem pendingPunct_args (h : phase = .args ∨ phase = .argSelf) {level depth : Nat} {c : UInt8}
    {afterDash : Bool} :
    pendingPunct ctx scope level c afterDash phase cand depth =
      if c = byte '-' && level = depth then
        (.pending .ret { cand with returnsBool := .no } depth, [])
      else if level ≠ depth + 1 then (.pending phase cand depth, [])
      else if c = byte '&' then (.pending .argRef cand depth, [])
      else if c = byte '\'' then (.pending .argLifetime cand depth, [])
      else if c = byte ',' then (.pending .args { cand with hasMultipleArgs := true } depth, [])
      else (.pending .args cand depth, []) := by
  rcases h with rfl | rfl <;> rfl

theorem twins_pendingPunct (hof : cand.Of ctx id) (hphase : Alike phase phase') (level : Nat)
    (c : UInt8) (afterDash : Bool) (depth : Nat) :
    Twins ctx scope id (pendingPunct ctx scope level c afterDash phase cand depth)
      (pendingPunct ctx scope level c afterDash phase' (withCommas cand true) depth) := by
  have hno : { cand with returnsBool := .no }.Of ctx id := hof.of_same ⟨rfl, rfl, rfl, rfl⟩
  have hargs : ∀ phase phase', (phase = .args ∨ phase = .argSelf) →
      (phase' = .args ∨ phase' = .argSelf) → Alike phase phase' →
      Twins ctx scope id (pendingPunct ctx scope level c afterDash phase cand depth)
        (pendingPunct ctx scope level c afterDash phase' (withCommas cand true) depth) := by
    intro phase phase' hargs hargs' hphase
    rw [pendingPunct_args hargs, pendingPunct_args hargs']
    split_ifs
    · exact .kept hno _ _
    · exact .held hof hphase _ _
    · exact .kept hof _ _
    · exact .kept hof _ _
    · -- the second candidate has had its comma
      exact .settled (.same []) _
    · exact .kept hof _ _
  rcases hphase with rfl | ⟨rfl, rfl⟩
  · cases phase' with
    | named =>
      simp only [pendingPunct]
      split
      · exact .kept hof _ _
      · exact .settled (.same []) _
    | params angles => exact .kept hof _ _
    | paramLifetime angles => exact .settled (.same []) _
    | args | argSelf => exact hargs _ _ (by simp) (by simp) (.inl rfl)
    | argRef | argLifetime | retLifetime => exact .kept hof _ _
    | ret =>
      simp only [pendingPunct]
      repeat' split
      · exact .kept hof _ _
      · exact .kept hof _ _
      · exact .decided hof
      · exact .decided hno
  · exact hargs _ _ (by simp) (by simp) (.inr ⟨rfl, rfl⟩)

theorem twins_pendingIdent (hof : cand.Of ctx id) (hphase : Alike phase phase') (text : Bytes)
    (depth : Nat) :
    Twins ctx scope id (pendingIdent ctx scope text phase cand depth)
      (pendingIdent ctx scope text phase' (withCommas cand true) depth) := by
  have hsame : ∀ cand' : Candidate, cand.Same cand' → cand'.Of ctx id := fun _ h => hof.of_same h
  rcases hphase with rfl | ⟨rfl, rfl⟩
  · cases phase' with
    | named => exact .settled (.same []) _
    | params angles =>
      exact .kept (hsame { cand with hasGenericParams := true } ⟨rfl, rfl, rfl, rfl⟩) _ _
    | argRef =>
      simp only [pendingIdent]
      split
      · exact .kept (hsame { cand with isMethod := true } ⟨rfl, rfl, rfl, rfl⟩) _ _
      · exact .kept hof _ _
    | ret =>
      have hknown : (withCommas cand true).returnsBool = cand.returnsBool := rfl
      simp only [pendingIdent, hknown]
      split_ifs
      · exact .kept (hsame { cand with returnsBool := .yes } ⟨rfl, rfl, rfl, rfl⟩) _ _
      · exact .decided hof
      · exact .decided (hsame { cand with returnsBool := .no } ⟨rfl, rfl, rfl, rfl⟩)
    | _ => exact .kept hof _ _
  · exact .kept hof _ _

theorem twins_pendingGroup (hof : cand.Of ctx id) (hphase : Alike phase phase') (level : Nat)
    (delim : Delimiter) (isEmpty : Bool) (depth : Nat) :
    Twins ctx scope id (pendingGroup ctx scope level delim isEmpty phase cand depth)
      (pendingGroup ctx scope level delim isEmpty phase' (withCommas cand true) depth) := by
  have hidle : Twins ctx scope id (.idle, []) (.idle, []) := .settled (.same []) _
  have hargs : { cand with hasNoArgs := cand.hasNoArgs || isEmpty }.Of ctx id :=
    hof.of_same ⟨rfl, rfl, rfl, rfl⟩
  rcases hphase with rfl | ⟨rfl, rfl⟩
  · cases phase' with
    | named =>
      simp only [pendingGroup]
      split
      · exact .kept hargs _ _
      · exact hidle
    | params angles =>
      simp only [pendingGroup]
      split_ifs
      · exact .kept hof _ _
      · exact .kept hargs _ _
      · exact hidle
    | paramLifetime angles => exact .kept hof _ _
    | args | argRef | argLifetime | argSelf =>
      simp only [pendingGroup]
      split
      · exact hidle
      · exact .kept hof _ _
    | ret | retLifetime =>
      simp only [pendingGroup]
      split
      · exact .decided hof
      · exact .decided (hof.of_same ⟨rfl, rfl, rfl, rfl⟩)
  · simp only [pendingGroup]
    split
    · exact hidle
    · exact .kept hof _ _

end Steps

theorem Twins.prepend {state state' : State} {found found' : List Finding}
    (h : Twins ctx scope id (state, found) (state', found')) (before : List Finding) :
    Twins ctx scope id (state, before ++ found) (state', before ++ found') := by
  cases h with
  | held hof hphase depth => exact .held hof hphase depth _
  | settled h state =>
    have happend := h.append before []
    rw [List.append_nil, List.append_nil] at happend
    exact .settled happend state

theorem Twins.differ {r r' : State × List Finding} (h : Twins ctx scope id r r') :
    Differ ctx scope id r.2 r'.2 := by
  cases h with
  | held hof hphase depth found => exact .same found
  | settled h state => exact h

variable (ctx scope id) in
/-- The machines of two runs over the same tokens, and what they found. -/
structure TwinRuns (r r' : Machine × List Finding) : Prop where
  twins : Twins ctx scope id (r.1.state, r.2) (r'.1.state, r'.2)
  afterDash : r'.1.afterDash = r.1.afterDash

variable (ctx scope id) in
/-- Two runs that start with the candidate in hand, the second one with a comma more. -/
def StartAlike (level : Nat) (ts : List Token) : Prop :=
  ∀ (cand : Candidate) (phase phase' : Phase) (depth : Nat) (afterDash : Bool),
    cand.Of ctx id → Alike phase phase' →
      TwinRuns ctx scope id (runL ctx scope level ⟨.pending phase cand depth, afterDash⟩ ts)
        (runL ctx scope level ⟨.pending phase' (withCommas cand true) depth, afterDash⟩ ts)

theorem TwinRuns.next {r r' : Machine × List Finding} (h : TwinRuns ctx scope id r r') {level : Nat}
    {ts : List Token} (hmore : StartAlike ctx scope id level ts) :
    TwinRuns ctx scope id
      ((runL ctx scope level r.1 ts).1, r.2 ++ (runL ctx scope level r.1 ts).2)
      ((runL ctx scope level r'.1 ts).1, r'.2 ++ (runL ctx scope level r'.1 ts).2) := by
  obtain ⟨⟨state, afterDash⟩, found⟩ := r
  obtain ⟨⟨state', afterDash'⟩, found'⟩ := r'
  obtain ⟨htwins, rfl⟩ := h
  cases htwins with
  | held hof hphase depth =>
    obtain ⟨htwins, hdash⟩ := hmore _ _ _ depth afterDash' hof hphase
    exact ⟨htwins.prepend _, hdash⟩
  | settled h =>
    have happend := h.append [] (runL ctx scope level ⟨state, afterDash'⟩ ts).2
    exact ⟨.settled happend _, rfl⟩

theorem twinRuns_leaf {cand : Candidate} {phase phase' : Phase} (hof : cand.Of ctx id)
    (hphase : Alike phase phase') (level depth : Nat) (afterDash : Bool) {t : Token}
    (ht : t.isGroup = false) :
    TwinRuns ctx scope id (run ctx scope level ⟨.pending phase cand depth, afterDash⟩ t)
      (run ctx scope level ⟨.pending phase' (withCommas cand true) depth, afterDash⟩ t) := by
  cases t with
  | group d inner p => simp [Token.isGroup] at ht
  | literal text p => exact ⟨.settled (.same []) _, rfl⟩
  | doc text p => exact ⟨.held hof hphase depth [], rfl⟩
  | punct c joint p =>
    refine ⟨?_, rfl⟩
    by_cases hend : c = byte ';' ∧ level = depth
    · simpa [run, punct, hend] using Twins.decided hof
    · simpa [run, punct, hend] using twins_pendingPunct hof hphase level c afterDash depth
  | ident text p =>
    have hargs : phase'.isInArgs = phase.isInArgs := by
      rcases hphase with rfl | ⟨rfl, rfl⟩ <;> rfl
    refine ⟨?_, rfl⟩
    simp only [run, ident, hargs]
    split
    · exact .settled (differ_decided hof) _
    · exact twins_pendingIdent hof hphase text depth

/-- **Two runs** that start with the candidate in hand differ in the decision about it at most. -/
theorem startAlike (level : Nat) (ts : List Token) : StartAlike ctx scope id level ts := by
  induction ts using Token.inductionL generalizing level with
  | nil =>
    intro cand phase phase' depth afterDash hof hphase
    exact ⟨.held hof hphase depth [], rfl⟩
  | leaf t ts ht ih =>
    intro cand phase phase' depth afterDash hof hphase
    exact (twinRuns_leaf hof hphase level depth afterDash ht).next (ih level)
  | group d inner p ts ihInner ih =>
    intro cand phase phase' depth afterDash hof hphase
    have hgroup : TwinRuns ctx scope id
        (⟨(pendingGroup ctx scope level d inner.isEmpty phase cand depth).1, afterDash⟩,
          (pendingGroup ctx scope level d inner.isEmpty phase cand depth).2)
        (⟨(pendingGroup ctx scope level d inner.isEmpty phase' (withCommas cand true) depth).1,
          afterDash⟩,
          (pendingGroup ctx scope level d inner.isEmpty phase' (withCommas cand true) depth).2) :=
      ⟨twins_pendingGroup hof hphase level d inner.isEmpty depth, rfl⟩
    have hinner := hgroup.next (ihInner (level + 1))
    have hrun : TwinRuns ctx scope id
        (run ctx scope level ⟨.pending phase cand depth, afterDash⟩ (.group d inner p))
        (run ctx scope level ⟨.pending phase' (withCommas cand true) depth, afterDash⟩
          (.group d inner p)) := ⟨hinner.twins, rfl⟩
    exact hrun.next (ih level)

/-! ### The decision -/

/-- A candidate with a comma more is refused where its shape matters, and renamed alike else. -/
theorem renames_judge_comma (cand : Candidate) :
    Finding.renames [ctx.judge scope (withCommas cand true)
        (withCommas cand true).streamObjection] =
      (Finding.renames [ctx.judge scope cand cand.streamObjection]).filter
        fun r => !ctx.mustCheckShape r.newName := by
  obtain ⟨reason, hreason⟩ : ∃ reason, (withCommas cand true).streamObjection = some reason := by
    simp only [Candidate.streamObjection, withCommas, Bool.or_true, if_true]
    split_ifs <;> exact ⟨_, rfl⟩
  have hadopt : ∀ r : Rename, (ctx.view.adopt r).newName = r.newName := by
    intro r
    unfold View.adopt
    split <;> rfl
  rw [hreason]
  unfold Context.judge
  simp only [withCommas]
  split
  · rfl
  · rename_i newName _
    cases hshape : ctx.mustCheckShape newName with
    | false => simp [Finding.renames, hadopt, hshape]
    | true =>
      cases cand.streamObjection <;>
        simp [Finding.renames, Context.skipNote, hadopt, hshape]

theorem Differ.renames {found found' : List Finding} (h : Differ ctx scope id found found') :
    ∃ before own after, own.length ≤ 1 ∧ (∀ r ∈ own, r.Renames ctx id) ∧
      Finding.renames found = before ++ own ++ after ∧
      Finding.renames found' =
        before ++ own.filter (fun r => !ctx.mustCheckShape r.newName) ++ after := by
  cases h with
  | same => exact ⟨Finding.renames found, [], [], by simp, by simp, by simp, by simp⟩
  | @own cand hof before after =>
    refine ⟨Finding.renames before, Finding.renames [ctx.judge scope cand cand.streamObjection],
      Finding.renames after, ?_, ?_, ?_, ?_⟩
    · rcases Finding.renames_judge hof scope cand.streamObjection with h | ⟨r, h, -⟩ <;> simp [h]
    · rcases Finding.renames_judge hof scope cand.streamObjection with h | ⟨r, h, hr, -⟩
      · simp [h]
      · simpa [h] using hr
    · rw [← Finding.renames_append, ← Finding.renames_append]
      simp
    · rw [← renames_judge_comma, ← Finding.renames_append, ← Finding.renames_append]
      simp

/-! ### Definitions -/

/-- The candidate behind its inputs, without and with a comma behind the last one. -/
theorem twinRuns_inputs {inputs : List Token} {comma : Token} {cand : Candidate}
    (hcomma : comma.isPunct ',' = true) (hne : inputs ≠ []) (hliteral : Token.NoLiteral inputs)
    (hcloses : Token.closes (Token.recent inputs) = true) (hof : cand.Of ctx id) (level : Nat)
    (q : Pos) :
    TwinRuns ctx scope id
      (run ctx scope level ⟨.pending .named cand level, false⟩ (.group .paren inputs q))
      (run ctx scope level ⟨.pending .named cand level, false⟩
        (.group .paren (inputs ++ [comma]) q)) := by
  obtain ⟨phase, cand', dashed, hpasses, hsame, hphase⟩ :=
    @passes_inputs_of_closes ctx scope
      { cand with hasNoArgs := cand.hasNoArgs || inputs.isEmpty } level false inputs hliteral hcloses
  have hcomma' := hpasses.append (.one (run_comma hcomma hphase))
  have hempty : (inputs ++ [comma]).isEmpty = inputs.isEmpty := by
    cases inputs with
    | nil => exact absurd rfl hne
    | cons t ts => rfl
  rw [← hempty] at hcomma'
  rw [run_inputs q (.inl rfl) hpasses, run_inputs q (.inl rfl) hcomma']
  have hof' : cand'.Of ctx id := (hof.of_same ⟨rfl, rfl, rfl, rfl⟩).of_same hsame
  have hheld : { cand' with hasMultipleArgs := true } = withCommas cand' true := by
    simp [withCommas]
  rw [hheld]
  refine ⟨.held hof' ?_ level [], rfl⟩
  rcases hphase with rfl | rfl
  · exact .inl rfl
  · exact .inr ⟨rfl, rfl⟩

/-- **A comma behind the last input.**  Where the inputs of a getter hold no literal and do not end
with what may come in front of `self`, a comma behind them makes no difference to the renames of a
stream but to its own: that is left out where the shape of a function matters to its new name. -/
theorem renames_trailing_comma {before inputs after : List Token} {comma : Token}
    {text suffix : Bytes} {fnPos p q : Pos} (hsuffix : Naming.suffix? text = some suffix)
    (hcomma : comma.isPunct ',' = true) (hne : inputs ≠ []) (hliteral : Token.NoLiteral inputs)
    (hcloses : Token.closes (Token.recent inputs) = true) :
    let trees inputs := before ++ .ident "fn" fnPos :: .ident text p ::
      .group .paren inputs q :: after
    ∃ above own below, own.length ≤ 1 ∧ (∀ r ∈ own, r.Renames ctx ⟨text, p⟩) ∧
      Finding.renames (findings ctx scope (trees inputs)) = above ++ own ++ below ∧
      Finding.renames (findings ctx scope (trees (inputs ++ [comma]))) =
        above ++ own.filter (fun r => !ctx.mustCheckShape r.newName) ++ below := by
  intro trees
  obtain ⟨cand, hof, -, hword⟩ := @exists_named ctx scope 0 text suffix p hsuffix
  let front := (runL ctx scope 0 {} before).2 ++
    (run ctx scope 0 (runL ctx scope 0 {} before).1 (.ident "fn" fnPos)).2
  have hfindings : ∀ inputs, findings ctx scope (trees inputs) = front ++
      ((run ctx scope 0 ⟨.pending .named cand 0, false⟩ (.group .paren inputs q)).2 ++
        (runL ctx scope 0
          (run ctx scope 0 ⟨.pending .named cand 0, false⟩ (.group .paren inputs q)).1 after).2) := by
    intro inputs
    have hfn : (run ctx scope 0 (runL ctx scope 0 {} before).1 (.ident "fn" fnPos)).1 =
        ⟨.fn 0, false⟩ := run_fn fnPos fun _ _ depth _ _ => Nat.zero_le depth
    simp only [findings, trees, runL_append, runL, hfn, hword, front, List.append_assoc,
      List.nil_append]
  have htwins := (@twinRuns_inputs ctx scope _ _ _ _ hcomma hne hliteral hcloses hof 0 q).next
    (startAlike 0 after)
  have hdiffer := (htwins.twins.differ.append front []).renames
  rw [List.append_nil, List.append_nil] at hdiffer
  rw [hfindings, hfindings]
  exact hdiffer

def selfInputs : List Token := [.punct (byte '&') true ⟨1, 9⟩, .ident "self" ⟨1, 10⟩]

/-- In `fn get_x(&self,) -> u8 {}` the comma stands for an input that is not there. -/
theorem renames_selfInputs :
    let ctx : Context := { path := "src/lib.rs", tool := .definitions, mode := .conservative }
    let trees inputs : List Token :=
      [.ident "fn" ⟨1, 0⟩, .ident "get_x" ⟨1, 3⟩, .group .paren inputs ⟨1, 8⟩,
        .punct (byte '-') true ⟨1, 17⟩, .punct (byte '>') false ⟨1, 18⟩, .ident "u8" ⟨1, 20⟩,
        .group .brace [] ⟨1, 23⟩]
    let renamed inputs := Finding.renames (findings ctx ⟨.macroBody, "m", []⟩ (trees inputs))
    (renamed selfInputs).map (·.newName.text) = ["x"] ∧
      renamed (selfInputs ++ [.punct (byte ',') false ⟨1, 14⟩]) = [] := by
  intro ctx trees renamed
  constructor
  · decide +kernel
  · decide +kernel

end DefinitionMatcher

end GetterRename
