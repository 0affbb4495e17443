import GetterRename.Proofs.Getter.Definition

/-!
# Definitions that are found

The definition matcher goes through the inputs of a function with its candidate in hand.  It loses
the candidate to a literal, and it misses the arrow behind inputs that end with `&` or a lifetime,
where it still looks for `self`.  Where neither is the case it misses no definition, unless it takes
the word `fn` for the type of an input of another function.

* `DefinitionMatcher.Reaches` — how the machine is set in front of a list inside the trees;
* `Token.closes` — inputs behind which an arrow is seen;
* `DefinitionMatcher.passes_inputs_of_noLiteral`, `passes_inputs_of_closes` — the machine on inputs
  without a literal;
* `DefinitionMatcher.exists_rename_of_definition` — a definition is renamed.
-/

namespace GetterRename

namespace Token

/-- No literal, at any depth. -/
def NoLiteral (ts : List Token) : Prop := ∀ t, .leaf t ∈ marksL ts → t.isLiteral = false

theorem NoLiteral.tail {t : Token} {ts : List Token} (h : NoLiteral (t :: ts)) : NoLiteral ts := by
  intro u hu
  apply h u
  rw [marksL_cons]
  exact List.mem_append_right _ hu

theorem NoLiteral.inner {d : Delimiter} {inner ts : List Token} {p : Pos}
    (h : NoLiteral (.group d inner p :: ts)) : NoLiteral inner := by
  intro u hu
  apply h u
  simp [hu]

theorem NoLiteral.head {t : Token} {ts : List Token} (h : NoLiteral (t :: ts))
    (ht : t.isGroup = false) : t.isLiteral = false := by
  apply h t
  simp [marks_leaf ht]

/-- Whether the tokens, the last one first, end neither with `&`, `'` or `mut` nor with what stands
right behind a tick. -/
def closes : List Token → Bool
  | [] => true
  | t :: before =>
    !(t.isPunct '&' || t.isPunct '\'' || t.isIdent "mut" || before.head?.any (·.isPunct '\''))

/-- The tokens but documentation, the last one first. -/
def recent (ts : List Token) : List Token := (ts.filter (!·.isDoc)).reverse

end Token

namespace DefinitionMatcher

variable {ctx : Context} {scope : Scope}

/-! ### Lists inside the trees -/

variable (ctx scope) in
/-- The machine comes to a token list inside the trees, or to all of them: `n` is the nesting level
there, and `m` the machine in front of it. -/
inductive Reaches (list : List Token) (n : Nat) (m : Machine) : Nat → Machine → List Token → Prop
  | here : Reaches list n m n m list
  | inside {level : Nat} {m₀ : Machine} {d : Delimiter} {inner before after : List Token} {p : Pos}
      (h : Reaches list n m (level + 1)
        ⟨(group ctx scope level d inner.isEmpty (runL ctx scope level m₀ before).1).1,
          (runL ctx scope level m₀ before).1.afterDash⟩ inner) :
      Reaches list n m level m₀ (before ++ .group d inner p :: after)

theorem Reaches.infix_findings {list trees : List Token} {n level : Nat} {m m₀ : Machine}
    (h : Reaches ctx scope list n m level m₀ trees) :
    (runL ctx scope n m list).2 <:+: (runL ctx scope level m₀ trees).2 := by
  induction h with
  | here => exact List.infix_refl _
  | inside h ih =>
    rw [runL_append]
    simp only [runL, run]
    refine ih.trans ?_
    rw [List.append_assoc, ← List.append_assoc]
    exact List.infix_append' _ _ _

/-! ### Inputs without a literal -/

section Inputs

variable {cand : Candidate} {depth level : Nat} {afterDash : Bool} {t : Token} {ts : List Token}

/-- In a group among the inputs nothing changes. -/
theorem passes_nested (ts : List Token) (hlevel : depth + 1 < level) (h : Token.NoLiteral ts) :
    ∃ dashed, Passes ctx scope level ⟨.pending .args cand depth, afterDash⟩ ts
      ⟨.pending .args cand depth, dashed⟩ := by
  induction ts using Token.inductionL generalizing level afterDash with
  | nil => exact ⟨afterDash, rfl⟩
  | leaf t ts ht ih =>
    have hlit := h.head ht
    have hne : level ≠ depth ∧ level ≠ depth + 1 := by omega
    obtain ⟨dashed, hstep⟩ : ∃ dashed, run ctx scope level ⟨.pending .args cand depth, afterDash⟩ t =
        (⟨.pending .args cand depth, dashed⟩, []) := by
      cases t with
      | group d inner p => simp [Token.isGroup] at ht
      | literal text p => simp [Token.isLiteral] at hlit
      | doc text p => exact ⟨_, rfl⟩
      | ident text p => exact ⟨_, run_ident (.inr ⟨rfl, by omega⟩)⟩
      | punct c joint p => exact ⟨_, by simp [run, punct, pendingPunct, hne.1, hne.2]; rfl⟩
    obtain ⟨dashed', hrest⟩ := @ih level dashed hlevel h.tail
    exact ⟨dashed', .cons hstep hrest⟩
  | group d inner p ts ihInner ih =>
    have hne : level ≠ depth := by omega
    obtain ⟨dashed, hinner⟩ := @ihInner (level + 1) afterDash (by omega) h.inner
    obtain ⟨dashed', hrest⟩ := @ih level false hlevel h.tail
    refine ⟨dashed', .cons ?_ hrest⟩
    simp [run, group, pendingGroup, hne, show runL ctx scope (level + 1) _ inner = (_, []) from hinner]

/-- What the phase says about the tokens of the inputs read last. -/
structure Looks (phase : Phase) (read : List Token) : Prop where
  inArgs : phase.isInArgs = true
  tick : phase = .argLifetime → read.head?.any (·.isPunct '\'') = true
  opened : phase = .argRef ∨ phase = .argLifetime → Token.closes read = false

theorem Looks.args (read : List Token) : Looks .args read := ⟨rfl, nofun, by simp⟩

theorem Looks.argSelf (read : List Token) : Looks .argSelf read := ⟨rfl, nofun, by simp⟩

theorem Looks.argRef {read : List Token} (h : Token.closes read = false) : Looks .argRef read :=
  ⟨rfl, nofun, fun _ => h⟩

theorem Looks.argLifetime {c : UInt8} {joint : Bool} {p : Pos} (h : c = byte '\'')
    (read : List Token) : Looks .argLifetime (.punct c joint p :: read) :=
  ⟨rfl, fun _ => by simp [Token.isPunct, h], fun _ => by simp [Token.closes, Token.isPunct, h]⟩

/-- Behind the inputs the arrow is seen. -/
theorem Looks.eq_of_closes {phase : Phase} {read : List Token} (h : Looks phase read)
    (hcloses : Token.closes read = true) : phase = .args ∨ phase = .argSelf := by
  cases phase with
  | args => exact .inl rfl
  | argSelf => exact .inr rfl
  | argRef => simp [h.opened (.inl rfl)] at hcloses
  | argLifetime => simp [h.opened (.inr rfl)] at hcloses
  | _ => exact absurd h.inArgs Bool.false_ne_true

theorem looks_punct {phase : Phase} {read : List Token} {c : UInt8} (joint : Bool) (p : Pos)
    (h : Looks phase read) :
    ∃ phase' cand', pendingPunct ctx scope (depth + 1) c afterDash phase cand depth =
      (.pending phase' cand' depth, []) ∧ cand.Same cand' ∧
        Looks phase' (.punct c joint p :: read) := by
  have hsame : cand.Same cand := .refl cand
  cases phase with
  | args | argSelf =>
    simp only [pendingPunct, Nat.succ_ne_self, decide_false, Bool.and_false, Bool.false_eq_true,
      if_false, ne_eq, not_true_eq_false]
    by_cases hamp : c = byte '&'
    · rw [if_pos hamp]
      exact ⟨_, _, rfl, hsame, .argRef (by simp [Token.closes, Token.isPunct, hamp])⟩
    by_cases htick : c = byte '\''
    · rw [if_neg hamp, if_pos htick]
      exact ⟨_, _, rfl, hsame, .argLifetime htick read⟩
    rw [if_neg hamp, if_neg htick]
    split
    · exact ⟨_, _, rfl, ⟨rfl, rfl, rfl, rfl⟩, .args _⟩
    · exact ⟨_, _, rfl, hsame, .args _⟩
  | argRef =>
    simp only [pendingPunct]
    split
    · rename_i htick
      exact ⟨_, _, rfl, hsame, .argLifetime htick read⟩
    · exact ⟨_, _, rfl, hsame, .args _⟩
  | argLifetime =>
    have hopen : Token.closes (.punct c joint p :: read) = false := by
      simp [Token.closes, h.tick rfl]
    exact ⟨_, _, rfl, hsame, .argRef hopen⟩
  | _ => exact absurd h.inArgs Bool.false_ne_true

theorem looks_ident {phase : Phase} {read : List Token} {text : Bytes} (p : Pos)
    (h : Looks phase read) :
    ∃ phase' cand', pendingIdent ctx scope text phase cand depth =
      (.pending phase' cand' depth, []) ∧ cand.Same cand' ∧ Looks phase' (.ident text p :: read) := by
  have hsame : cand.Same cand := .refl cand
  cases phase with
  | args => exact ⟨_, _, rfl, hsame, .args _⟩
  | argSelf => exact ⟨_, _, rfl, hsame, .args _⟩
  | argRef =>
    simp only [pendingIdent]
    split
    · exact ⟨_, _, rfl, ⟨rfl, rfl, rfl, rfl⟩, .argSelf _⟩
    split
    · rename_i hmut
      exact ⟨_, _, rfl, hsame, .argRef (by simp [Token.closes, Token.isIdent, hmut])⟩
    · exact ⟨_, _, rfl, hsame, .args _⟩
  | argLifetime =>
    have hopen : Token.closes (.ident text p :: read) = false := by
      simp [Token.closes, h.tick rfl]
    exact ⟨_, _, rfl, hsame, .argRef hopen⟩
  | _ => exact absurd h.inArgs Bool.false_ne_true

/-- **Inputs without a literal.**  The machine goes through them with its candidate in hand. -/
theorem passes_inputs_of_noLiteral (ts : List Token) {phase : Phase} {read : List Token}
    (hlit : Token.NoLiteral ts) (h : Looks phase read) :
    ∃ phase' cand' dashed,
      Passes ctx scope (depth + 1) ⟨.pending phase cand depth, afterDash⟩ ts
        ⟨.pending phase' cand' depth, dashed⟩ ∧ cand.Same cand' ∧
        Looks phase' (Token.recent ts ++ read) := by
  induction ts generalizing phase read cand afterDash with
  | nil => exact ⟨phase, cand, afterDash, rfl, .refl cand, h⟩
  | cons t ts ih =>
    obtain ⟨phase₁, cand₁, dashed₁, hstep, hsame, hlooks⟩ : ∃ phase₁ cand₁ dashed₁,
        run ctx scope (depth + 1) ⟨.pending phase cand depth, afterDash⟩ t =
          (⟨.pending phase₁ cand₁ depth, dashed₁⟩, []) ∧ cand.Same cand₁ ∧
          Looks phase₁ (if t.isDoc then read else t :: read) := by
      cases t with
      | literal text p => exact absurd (hlit.head rfl) nofun
      | doc text p => exact ⟨phase, cand, _, rfl, .refl cand, h⟩
      | ident text p =>
        obtain ⟨phase₁, cand₁, hstep, hsame, hlooks⟩ := @looks_ident ctx scope cand depth _ _ text p h
        refine ⟨phase₁, cand₁, false, ?_, hsame, hlooks⟩
        rw [run_ident (.inr ⟨h.inArgs, Nat.lt_succ_self depth⟩), hstep]
      | punct c joint p =>
        obtain ⟨phase₁, cand₁, hstep, hsame, hlooks⟩ :=
          @looks_punct ctx scope cand depth afterDash _ _ c joint p h
        refine ⟨phase₁, cand₁, c = byte '-' || c = byte '=', ?_, hsame, hlooks⟩
        simp only [run, punct, Nat.succ_ne_self, decide_false, Bool.and_false, Bool.false_eq_true,
          if_false, hstep]
      | group d inner p =>
        obtain ⟨dashed, hinner⟩ := @passes_nested ctx scope cand depth (depth + 2) afterDash inner
          (by omega) hlit.inner
        refine ⟨.args, cand, false, ?_, .refl cand, .args _⟩
        have hgroup : group ctx scope (depth + 1) d inner.isEmpty
            ⟨.pending phase cand depth, afterDash⟩ = (.pending .args cand depth, []) := by
          have hargs := h.inArgs
          cases phase <;> simp [Phase.isInArgs] at hargs <;> simp [group, pendingGroup]
        simp only [run, hgroup]
        rw [show runL ctx scope (depth + 1 + 1) _ inner = (_, []) from hinner]
        rfl
    obtain ⟨phase', cand', dashed, hrest, hsame', hlooks'⟩ := @ih cand₁ dashed₁ phase₁ _ hlit.tail hlooks
    refine ⟨phase', cand', dashed, .cons hstep hrest, hsame.trans hsame', ?_⟩
    cases hdoc : t.isDoc with
    | true => simpa [Token.recent, hdoc] using hlooks'
    | false => simpa [Token.recent, hdoc] using hlooks'

/-- **Inputs that are closed.**  Behind inputs without a literal that do not end with what may come
in front of `self`, the machine still holds the candidate and waits for the arrow. -/
theorem passes_inputs_of_closes {inputs : List Token} (hlit : Token.NoLiteral inputs)
    (hcloses : Token.closes (Token.recent inputs) = true) :
    ∃ phase cand' dashed,
      Passes ctx scope (depth + 1) ⟨.pending .args cand depth, afterDash⟩ inputs
        ⟨.pending phase cand' depth, dashed⟩ ∧ cand.Same cand' ∧
        (phase = .args ∨ phase = .argSelf) := by
  obtain ⟨phase, cand', dashed, hpasses, hsame, hlooks⟩ :=
    @passes_inputs_of_noLiteral ctx scope cand depth afterDash inputs .args [] hlit (.args [])
  rw [List.append_nil] at hlooks
  exact ⟨phase, cand', dashed, hpasses, hsame, hlooks.eq_of_closes hcloses⟩

end Inputs

/-! ### Definitions -/

/-- The word `fn` starts a definition, unless it is the type of an input of another function. -/
theorem run_fn {level : Nat} {m : Machine} (p : Pos)
    (h : ∀ phase cand depth, m.state = .pending phase cand depth → phase.isInArgs = true →
      level ≤ depth) :
    (run ctx scope level m (.ident "fn" p)).1 = ⟨.fn level, false⟩ := by
  obtain ⟨state, afterDash⟩ := m
  cases state with
  | idle => rfl
  | fn depth => rfl
  | pending phase cand depth =>
    have hnot : (phase.isInArgs && decide (depth < level)) = false := by
      cases hargs : phase.isInArgs with
      | false => rfl
      | true =>
        have := h phase cand depth rfl hargs
        simp
        omega
    simp [run, ident, hnot]

/-- A name with `get_` at its head makes a candidate behind the word `fn`. -/
theorem exists_named {level : Nat} {text suffix : Bytes} {p : Pos}
    (hsuffix : Naming.suffix? text = some suffix) :
    ∃ cand : Candidate, cand.Of ctx ⟨text, p⟩ ∧ cand.suffix = suffix ∧
      run ctx scope level ⟨.fn level, false⟩ (.ident text p) =
        (⟨.pending .named cand level, false⟩, []) := by
  have hname : text ≠ Bytes.ofString "fn" := by
    intro h
    rw [h, show Naming.suffix? (Bytes.ofString "fn") = none by decide +kernel] at hsuffix
    exact absurd hsuffix nofun
  let cand : Candidate := ⟨text, suffix, ctx.view.line p, ctx.view.column p, .no, false, false,
    false, false⟩
  have hcand : ctx.candidate? ⟨text, p⟩ .no false = some cand := by
    simp [Context.candidate?, hsuffix, cand]
  refine ⟨cand, Context.of_candidate? hcand, rfl, ?_⟩
  simp [run, ident, hname, fnName, hcand]

/-- The return type and the body complete a definition. -/
theorem judges_result {level : Nat} {cand : Candidate} (result : Bytes) (p q : Pos)
    (body after : List Token) (hno : cand.returnsBool = .no) :
    ∃ cand', cand.Same cand' ∧ ctx.judge scope cand' cand'.streamObjection ∈
      (runL ctx scope level ⟨.pending .ret cand level, false⟩
        (.ident result p :: .group .brace body q :: after)).2 := by
  by_cases hfn : result = Bytes.ofString "fn"
  · refine ⟨cand, .refl cand, ?_⟩
    simp [runL, run, ident, hfn, Phase.isInArgs, decided]
  simp only [runL]
  rw [run_ident (.inl hfn)]
  simp only [pendingIdent, hno]
  by_cases hbool : result = Bytes.ofString "bool"
  · refine ⟨{ cand with returnsBool := .yes }, ⟨rfl, rfl, rfl, rfl⟩, ?_⟩
    simp [hbool, run, group, pendingGroup, decided]
  by_cases hwhere : result = Bytes.ofString "where"
  · refine ⟨cand, .refl cand, ?_⟩
    simp +decide [hwhere, decided]
  · refine ⟨{ cand with returnsBool := .no }, ⟨rfl, rfl, rfl, rfl⟩, ?_⟩
    simp [hbool, hwhere, decided]

/-- **Definitions are not missed.**  In a list of the stream the word `fn`, a name with `get_` at its
head, inputs, an arrow, a word and a body give a rename, if the inputs hold no literal and do not end
with what may come in front of `self`, and the word `fn` is not taken for the type of an input of
another function. -/
theorem exists_rename_of_definition {trees before inputs body after : List Token}
    {dash angle : Token} {text suffix result : Bytes} {fnPos p q r s : Pos} {level : Nat}
    {m : Machine} (hmode : ctx.mode = .allGetFunctions)
    (hlist : Reaches ctx scope
      (before ++ .ident "fn" fnPos :: .ident text p :: .group .paren inputs q :: dash :: angle ::
        .ident result r :: .group .brace body s :: after) level m 0 {} trees)
    (hdash : dash.isPunct '-' = true) (hangle : angle.isPunct '>' = true)
    (hsuffix : Naming.suffix? text = some suffix) (hfree : Naming.isReserved suffix = false)
    (hliteral : Token.NoLiteral inputs) (hcloses : Token.closes (Token.recent inputs) = true)
    (houter : ∀ phase cand depth, (runL ctx scope level m before).1.state = .pending phase cand depth →
      phase.isInArgs = true → level ≤ depth) :
    ∃ r ∈ Finding.renames (findings ctx scope trees), r.Renames ctx ⟨text, p⟩ := by
  obtain ⟨cand, hof, hcand, hword⟩ := @exists_named ctx scope level text suffix p hsuffix
  obtain ⟨phase, cand', dashed, hpasses, hsame, hphase⟩ :=
    @passes_inputs_of_closes ctx scope
      { cand with hasNoArgs := cand.hasNoArgs || inputs.isEmpty } level false inputs hliteral hcloses
  have hinputs := run_inputs q (.inl rfl) hpasses
  have harrow := passes_arrow ctx scope cand' level hphase hdash hangle
  obtain ⟨judged, hjudged, hfinding⟩ := @judges_result ctx scope level
    { cand' with returnsBool := .no } result r s body after rfl
  have hof : judged.Of ctx ⟨text, p⟩ := by
    have hcand' : cand'.Of ctx ⟨text, p⟩ := (hof.of_same ⟨rfl, rfl, rfl, rfl⟩).of_same hsame
    exact (hcand'.of_same ⟨rfl, rfl, rfl, rfl⟩).of_same hjudged
  have hsuffix' : judged.suffix = suffix := (hjudged.2.1.trans hsame.2.1).trans hcand
  have hhead : Passes ctx scope level ⟨.fn level, false⟩
      (.ident text p :: .group .paren inputs q :: [dash, angle]) _ :=
    .cons hword (.cons hinputs harrow)
  -- the word `fn` starts anew
  rw [← hhead.runL_append, ← run_fn fnPos houter] at hfinding
  have hmem : ctx.judge scope judged judged.streamObjection ∈ findings ctx scope trees := by
    apply hlist.infix_findings.subset
    rw [runL_append]
    exact List.mem_append_right _ (List.mem_append_right _ hfinding)
  obtain ⟨found, hfound, hren, -⟩ := Finding.exists_rename_of_judge_mem hmode hof
    (show Naming.isReserved judged.suffix = false by rw [hsuffix', hfree]) hmem
  exact ⟨found, hfound, hren⟩

/-- In the stream itself, outside all groups, it does not matter what comes in front of `fn`. -/
theorem exists_rename_of_outer_definition {before inputs body after : List Token}
    {dash angle : Token} {text suffix result : Bytes} {fnPos p q r s : Pos}
    (hmode : ctx.mode = .allGetFunctions) (hdash : dash.isPunct '-' = true)
    (hangle : angle.isPunct '>' = true) (hsuffix : Naming.suffix? text = some suffix)
    (hfree : Naming.isReserved suffix = false) (hliteral : Token.NoLiteral inputs)
    (hcloses : Token.closes (Token.recent inputs) = true) :
    let trees := before ++ .ident "fn" fnPos :: .ident text p :: .group .paren inputs q :: dash ::
      angle :: .ident result r :: .group .brace body s :: after
    ∃ found ∈ Finding.renames (findings ctx scope trees), found.Renames ctx ⟨text, p⟩ :=
  exists_rename_of_definition hmode .here hdash hangle hsuffix hfree hliteral hcloses
    fun _ _ depth _ _ => Nat.zero_le depth

/-- The inputs of `fn get_x(f: impl Fn() + 'static) -> u8 {}`, which end with a lifetime. -/
def boundedInputs : List Token :=
  [.ident "f" ⟨1, 9⟩, .punct (byte ':') false ⟨1, 10⟩, .ident "impl" ⟨1, 12⟩, .ident "Fn" ⟨1, 17⟩,
    .group .paren [] ⟨1, 19⟩, .punct (byte '+') false ⟨1, 22⟩, .punct (byte '\'') true ⟨1, 24⟩,
    .ident "static" ⟨1, 25⟩]

/-- Behind a lifetime the matcher still looks for `self` and misses the arrow. -/
theorem renames_boundedInputs :
    let ctx : Context := { path := "src/lib.rs", tool := .definitions, mode := .allGetFunctions }
    Token.closes (Token.recent boundedInputs) = false ∧
      Finding.renames (findings ctx ⟨.macroBody, "m", []⟩
        [.ident "fn" ⟨1, 0⟩, .ident "get_x" ⟨1, 3⟩, .group .paren boundedInputs ⟨1, 8⟩,
          .punct (byte '-') true ⟨1, 33⟩, .punct (byte '>') false ⟨1, 34⟩, .ident "u8" ⟨1, 36⟩,
          .group .brace [] ⟨1, 39⟩]) = [] := by
  intro ctx
  constructor
  · decide +kernel
  · decide +kernel

end DefinitionMatcher

end GetterRename
