import GetterRename.Proofs.Getter.CallStream
import GetterRename.Proofs.Source.TokenList

/-!
# Method calls that are found

The call matcher sees a dot only while no other name waits for its parentheses, and it waits for
those of a name through punctuation and words of explicit generic arguments, but not through a
literal, a nested group or a character that ends any call.  Where both go well it misses no method
call.

* `Token.trailL` — the leaves read since the last opening delimiter;
* `CallMatcher.Waits` — an earlier name still waits for its parentheses;
* `CallMatcher.fits_runL` — the state of the matcher and the leaves read last;
* `CallMatcher.passes_arguments` — the matcher on explicit generic arguments;
* `CallMatcher.exists_rename_of_methodCall` — a method call is renamed.
-/

namespace GetterRename

namespace Token

mutual

/-- The leaves read since the last opening delimiter, behind a token tree. A closing delimiter
leaves no trace. -/
def trail (read : List Token) : Token → List Token
  | group _ tokens _ => trailL [] tokens
  | t => read ++ [t]

def trailL (read : List Token) : List Token → List Token
  | [] => read
  | t :: ts => trailL (trail read t) ts

end

@[simp] theorem trail_group (read : List Token) (d : Delimiter) (ts : List Token) (p : Pos) :
    trail read (group d ts p) = trailL [] ts := by
  simp [trail]

theorem trail_leaf {t : Token} (h : t.isGroup = false) (read : List Token) :
    trail read t = read ++ [t] := by
  cases t with
  | group d ts p => simp [isGroup] at h
  | _ => simp [trail]

def lastLeaf (read : List Token) : Option Token := (read.filter (!·.isDoc)).getLast?

theorem lastLeaf_append {t : Token} (h : t.isDoc = false) (read : List Token) :
    lastLeaf (read ++ [t]) = some t := by
  simp [lastLeaf, h]

theorem lastLeaf_doc (read : List Token) (text : Bytes) (p : Pos) :
    lastLeaf (read ++ [doc text p]) = lastLeaf read := by
  simp [lastLeaf, isDoc]

end Token

namespace CallMatcher

variable {ctx : Context} {scope : Scope}

/-! ### Names that wait -/

/-- The last leaves are a name with `get_` at its head and what the matcher passes over while it
waits for the parentheses of that name. -/
def Waits (read : List Token) : Prop :=
  ∃ earlier text p args, read = earlier ++ .ident text p :: args ∧
    (Naming.suffix? text).isSome = true ∧ Between args

namespace State

/-- What the state says about the leaves read since the last opening delimiter. -/
def Fits (read : List Token) : State → Prop
  | idle => True
  | dot => (Token.lastLeaf read).any (·.isPunct '.') = true
  | fnName => (Token.lastLeaf read).any (·.isIdent "fn") = true
  | state => ∃ earlier text p args, read = earlier ++ .ident text p :: args ∧
      (Naming.suffix? text).isSome = true ∧ state.Passed args

/-- Nothing is expected where no name waits and neither a dot nor the word `fn` was read last. -/
theorem Fits.eq_idle {read : List Token} {state : State} (h : state.Fits read) (hwaits : ¬ Waits read)
    (hlast : (Token.lastLeaf read).any (fun t => t.isPunct '.' || t.isIdent "fn") = false) :
    state = idle := by
  have held : ∀ {state : State}, (∃ earlier text p args, read = earlier ++ .ident text p :: args ∧
      (Naming.suffix? text).isSome = true ∧ state.Passed args) → False := by
    rintro state ⟨earlier, text, p, args, hread, hget, hpassed⟩
    exact hwaits ⟨earlier, text, p, args, hread, hget, between_of_passed hpassed⟩
  cases state with
  | idle => rfl
  | dot =>
    obtain ⟨t, ht, hdot⟩ := (Option.any_eq_true _ _).1 h
    rw [ht] at hlast
    simp [hdot] at hlast
  | fnName =>
    obtain ⟨t, ht, hfn⟩ := (Option.any_eq_true _ _).1 h
    rw [ht] at hlast
    simp [hfn] at hlast
  | named cand => exact (held h).elim
  | params cand => exact (held h).elim
  | lifetime cand => exact (held h).elim

end State

section Steps

variable {read : List Token} {state : State}

theorem fits_start {isMethod : Bool} (text : Bytes) (p : Pos) :
    (start ctx scope isMethod ⟨text, p⟩).1.Fits (read ++ [.ident text p]) := by
  unfold start
  split
  · rename_i cand hcand
    obtain ⟨suffix, hsuffix, -⟩ := Option.map_eq_some_iff.1 hcand
    exact ⟨read, text, p, [], rfl, by simp [show Naming.suffix? text = some suffix from hsuffix],
      by simp [State.Passed]⟩
  · trivial

/-- The token behind a name that waits, and what it makes of the arguments. -/
theorem held_append {P Q : List Token → Prop} {t : Token}
    (h : ∃ earlier text p args, read = earlier ++ .ident text p :: args ∧
      (Naming.suffix? text).isSome = true ∧ P args) (hstep : ∀ args, P args → Q (args ++ [t])) :
    ∃ earlier text p args, read ++ [t] = earlier ++ .ident text p :: args ∧
      (Naming.suffix? text).isSome = true ∧ Q args := by
  obtain ⟨earlier, text, p, args, rfl, hget, hargs⟩ := h
  exact ⟨earlier, text, p, args ++ [t], by simp, hget, hstep args hargs⟩

theorem fits_doc (h : state.Fits read) (text : Bytes) (p : Pos) :
    state.Fits (read ++ [.doc text p]) := by
  cases state with
  | idle => trivial
  | dot =>
    show (Token.lastLeaf (read ++ [.doc text p])).any _ = true
    rw [Token.lastLeaf_doc]
    exact h
  | fnName =>
    show (Token.lastLeaf (read ++ [.doc text p])).any _ = true
    rw [Token.lastLeaf_doc]
    exact h
  | named cand => exact held_append h fun args hpassed => hpassed.doc text p
  | params cand => exact held_append h fun args hpassed => hpassed.doc text p
  | lifetime cand => exact held_append h fun args hpassed => hpassed.doc text p

theorem fits_ident (h : state.Fits read) (text : Bytes) (p : Pos) :
    (ident ctx scope ⟨text, p⟩ state).1.Fits (read ++ [.ident text p]) := by
  unfold ident
  split
  · rename_i hfn
    show (Token.lastLeaf (read ++ [.ident text p])).any _ = true
    rw [Token.lastLeaf_append rfl]
    simpa [Token.isIdent] using hfn
  rename_i hfn
  have harg : isArgument (.ident text p) = true := by simpa [isArgument] using hfn
  cases state with
  | idle => exact fits_start text p
  | dot => exact fits_start text p
  | named cand => trivial
  | fnName => trivial
  | params cand => exact held_append h fun args hpassed => hpassed.argument harg rfl
  | lifetime cand => exact held_append h fun args hpassed => hpassed.name harg

theorem fits_punct (h : state.Fits read) (c : UInt8) (joint : Bool) (p : Pos) :
    (punct c state).Fits (read ++ [.punct c joint p]) := by
  unfold punct
  split
  · trivial
  rename_i hbreak
  have harg : isArgument (.punct c joint p) = true := by simpa [isArgument] using hbreak
  cases state with
  | idle =>
    simp only
    split
    · rename_i hc
      show (Token.lastLeaf (read ++ [.punct c joint p])).any _ = true
      rw [Token.lastLeaf_append rfl]
      simpa [Token.isPunct] using hc
    · trivial
  | named cand =>
    simp only
    split
    · rename_i hc
      have hopens : opensArguments (.punct c joint p) = true := by
        simpa [opensArguments, Token.isPunct] using hc
      exact held_append h fun args hpassed => hpassed.opens hopens harg
    · trivial
  | params cand =>
    simp only
    split
    · exact held_append h fun args hpassed => hpassed.tick harg
    · rename_i hc
      refine held_append h fun args hpassed => hpassed.argument harg ?_
      simpa [Token.isPunct] using hc
  | dot => trivial
  | lifetime cand => trivial
  | fnName => trivial

theorem fits_leaf {t : Token} (h : state.Fits read) (ht : t.isGroup = false) :
    (run ctx scope state t).1.Fits (read ++ [t]) := by
  cases t with
  | group d inner p => simp [Token.isGroup] at ht
  | literal text p => trivial
  | doc text p => exact fits_doc h text p
  | ident text p => exact fits_ident h text p
  | punct c joint p => exact fits_punct h c joint p

/-- **The state and the trail.**  What the matcher expects was read since the last opening
delimiter. -/
theorem fits_runL (ts : List Token) (h : state.Fits read) :
    (runL ctx scope state ts).1.Fits (Token.trailL read ts) := by
  induction ts using Token.inductionL generalizing read state with
  | nil => exact h
  | leaf t ts ht ih =>
    simp only [runL, Token.trailL, Token.trail_leaf ht]
    exact ih (fits_leaf h ht)
  | group d inner p ts ihInner ih =>
    simp only [runL, run, Token.trailL, Token.trail_group]
    -- a group starts with nothing expected, and its state goes on behind it
    exact ih (ihInner (show State.Fits [] .idle from trivial))

end Steps

/-! ### Runs in parts -/

theorem runL_append (state : State) (ts ts' : List Token) :
    runL ctx scope state (ts ++ ts') =
      ((runL ctx scope (runL ctx scope state ts).1 ts').1,
        (runL ctx scope state ts).2 ++ (runL ctx scope (runL ctx scope state ts).1 ts').2) := by
  induction ts generalizing state with
  | nil => rfl
  | cons t ts ih => simp [runL, ih]

/-- What is found in a list of the trees is found in the trees. -/
theorem infix_of_within {list trees : List Token} (h : Token.Within list trees) (state : State)
    (hstate : list = trees → state = .idle) :
    (runL ctx scope .idle list).2 <:+: (runL ctx scope state trees).2 := by
  induction h generalizing state with
  | here =>
    obtain rfl := hstate rfl
    exact List.infix_refl _
  | @inside d inner before after p h ih =>
    have hinner := ih .idle fun _ => rfl
    rw [runL_append]
    simp only [runL, run]
    refine hinner.trans ?_
    rw [List.append_assoc, ← List.append_assoc]
    exact List.infix_append' _ _ _

/-! ### Explicit generic arguments -/

/-- A candidate with the name of another one, which is called in the same way. -/
structure SameCall (c c' : Candidate) : Prop where
  same : c.Same c'
  isMethod : c'.isMethod = c.isMethod

theorem SameCall.refl (c : Candidate) : SameCall c c := ⟨.refl c, rfl⟩

theorem SameCall.trans {a b c : Candidate} (h : SameCall a b) (h' : SameCall b c) : SameCall a c :=
  ⟨h.same.trans h'.same, h'.isMethod.trans h.isMethod⟩

/-- Inside the arguments the matcher goes on, also from behind a tick. -/
theorem passes_params (cand : Candidate) (args : List Token)
    (hargs : ∀ t ∈ args, isArgument t = true) (hticks : Token.namesLifetimes args = true)
    (state : State) (hstate : state = .params cand ∨
      state = .lifetime cand ∧ (args.dropWhile Token.isDoc).head?.any Token.isName = true) :
    ∃ cand', runL ctx scope state args = (.params cand', []) ∧ SameCall cand cand' := by
  induction args generalizing cand state with
  | nil =>
    rcases hstate with rfl | ⟨-, hname⟩
    · exact ⟨cand, rfl, .refl cand⟩
    · simp at hname
  | cons t args ih =>
    obtain ⟨harg, hrest⟩ := List.forall_mem_cons.1 hargs
    simp only [Token.namesLifetimes, Bool.and_eq_true] at hticks
    obtain ⟨htick, hnames⟩ := hticks
    simp only [runL]
    cases t with
    | group d inner p => simp [isArgument] at harg
    | literal text p => simp [isArgument] at harg
    | doc text p =>
      obtain ⟨cand', hrun, hsame⟩ := ih cand hrest hnames state hstate
      exact ⟨cand', by simp [run, hrun], hsame⟩
    | ident text p =>
      have hfn : text ≠ Bytes.ofString "fn" := by simpa [isArgument] using harg
      rcases hstate with rfl | ⟨rfl, -⟩
      · obtain ⟨cand', hrun, hsame⟩ :=
          ih { cand with hasGenericParams := true } hrest hnames _ (.inl rfl)
        refine ⟨cand', by simp [run, ident, hfn, hrun], SameCall.trans ?_ hsame⟩
        exact ⟨⟨rfl, rfl, rfl, rfl⟩, rfl⟩
      · obtain ⟨cand', hrun, hsame⟩ := ih cand hrest hnames _ (.inl rfl)
        exact ⟨cand', by simp [run, ident, hfn, hrun], hsame⟩
    | punct c joint p =>
      have hbreak : breakers.contains c = false := by simpa [isArgument] using harg
      rcases hstate with rfl | ⟨-, hname⟩
      · by_cases hc : c = byte '\''
        · have hstep : punct c (.params cand) = .lifetime cand := by
            simp only [punct, hbreak, Bool.false_eq_true, if_false]
            exact if_pos hc
          obtain ⟨cand', hrun, hsame⟩ := ih cand hrest hnames (.lifetime cand)
            (.inr ⟨rfl, by simpa [Token.isPunct, hc] using htick⟩)
          exact ⟨cand', by simp [run, hstep, hrun], hsame⟩
        · have hstep : punct c (.params cand) = .params cand := by
            simp only [punct, hbreak, hc, Bool.false_eq_true, if_false]
          obtain ⟨cand', hrun, hsame⟩ := ih cand hrest hnames _ (.inl rfl)
          exact ⟨cand', by simp [run, hstep, hrun], hsame⟩
      · simp [Token.isDoc, Token.isName] at hname

/-- **Explicit generic arguments.**  Behind a name the matcher goes through them without a finding
and still waits for parentheses. -/
theorem passes_arguments (cand : Candidate) {args : List Token} (hargs : Between args)
    (hticks : Token.namesLifetimes args = true) :
    ∃ state cand', runL ctx scope (.named cand) args = (state, []) ∧
      (state = .named cand' ∨ state = .params cand') ∧ SameCall cand cand' := by
  obtain ⟨harguments, hopening⟩ := hargs
  induction args with
  | nil => exact ⟨_, cand, rfl, .inl rfl, .refl cand⟩
  | cons t args ih =>
    obtain ⟨harg, hrest⟩ := List.forall_mem_cons.1 harguments
    simp only [Token.namesLifetimes, Bool.and_eq_true] at hticks
    cases t with
    | doc text p =>
      obtain ⟨state, cand', hrun, hstate, hsame⟩ := ih hticks.2 hrest hopening
      exact ⟨state, cand', by simp [runL, run, hrun], hstate, hsame⟩
    | punct c joint p =>
      have hbreak : breakers.contains c = false := by simpa [isArgument] using harg
      have hc : c = byte ':' ∨ c = byte '<' := by
        simpa [Token.isDoc, opensArguments, Token.isPunct] using hopening
      obtain ⟨cand', hrun, hsame⟩ := @passes_params ctx scope cand args hrest hticks.2
        (.params cand) (.inl rfl)
      have hstep : punct c (.named cand) = .params cand := by
        simp only [punct, hbreak, Bool.false_eq_true, if_false]
        exact if_pos (by simpa using hc)
      exact ⟨_, cand', by simp [runL, run, hstep, hrun], .inr rfl, hsame⟩
    | ident text p => simp [Token.isDoc, opensArguments, Token.isPunct] at hopening
    | literal text p => simp [isArgument] at harg
    | group d inner p => simp [isArgument] at harg

/-! ### Calls -/

/-- **Method calls are not missed.**  In a list of the stream a dot, a name with `get_` at its head
and parentheses, maybe with explicit generic arguments in front of them, give a rename, if no
earlier name waits for its parentheses and neither another dot nor the word `fn` comes right before
the dot. -/
theorem exists_rename_of_methodCall {trees before args inner after : List Token} {dot : Token}
    {text suffix : Bytes} {p q : Pos} (hmode : ctx.mode = .allGetFunctions)
    (hlist : Token.Within
      (before ++ dot :: .ident text p :: (args ++ .group .paren inner q :: after)) trees)
    (hdot : dot.isPunct '.' = true) (hsuffix : Naming.suffix? text = some suffix)
    (hfree : Naming.isReserved suffix = false) (hargs : Between args)
    (hticks : Token.namesLifetimes args = true) (hwaits : ¬ Waits (Token.trailL [] before))
    (hlast : (Token.lastLeaf (Token.trailL [] before)).any
      (fun t => t.isPunct '.' || t.isIdent "fn") = false) :
    ∃ r ∈ Finding.renames (findings ctx scope trees), r.Renames ctx ⟨text, p⟩ ∧
      r.isMethod = true := by
  have hidle : (runL ctx scope .idle before).1 = .idle :=
    (fits_runL before (show State.Fits [] .idle from trivial)).eq_idle hwaits hlast
  have hname : text ≠ Bytes.ofString "fn" := by
    intro h
    rw [h, show Naming.suffix? (Bytes.ofString "fn") = none by decide +kernel] at hsuffix
    exact absurd hsuffix nofun
  -- behind the name the matcher holds the candidate of a method
  let cand : Candidate := ⟨text, suffix, ctx.view.line p, ctx.view.column p, .maybe, true, false,
    false, false⟩
  have hcand : ctx.candidate? ⟨text, p⟩ .maybe true = some cand := by
    simp [Context.candidate?, hsuffix, cand]
  have hof : cand.Of ctx ⟨text, p⟩ := Context.of_candidate? hcand
  obtain ⟨state, cand', hpassed, hstate, hsame⟩ := @passes_arguments ctx scope cand args hargs hticks
  have hdotState : (run ctx scope .idle dot).1 = .dot := by
    cases dot with
    | punct c joint r =>
      obtain rfl : c = byte '.' := by simpa [Token.isPunct] using hdot
      rfl
    | _ => simp [Token.isPunct] at hdot
  have hnamed : run ctx scope .dot (.ident text p) = (.named cand, []) := by
    simp [run, ident, hname, start, hcand]
  -- the parentheses complete the call
  let called : Candidate := { cand' with hasMultipleArgs := cand'.hasMultipleArgs || !inner.isEmpty }
  obtain ⟨objection, hgroup⟩ : ∃ objection,
      group ctx scope .paren inner.isEmpty state = [ctx.judge scope called objection] := by
    rcases hstate with rfl | rfl
    · exact ⟨_, rfl⟩
    · exact ⟨_, rfl⟩
  have hcalled : called.Of ctx ⟨text, p⟩ := (hof.of_same hsame.same).of_same ⟨rfl, rfl, rfl, rfl⟩
  have hcalledFree : Naming.isReserved called.suffix = false := by
    rw [show called.suffix = suffix from hsame.same.2.1, hfree]
  have hmem : ctx.judge scope called objection ∈ findings ctx scope trees := by
    apply (@infix_of_within ctx scope _ _ hlist .idle fun _ => rfl).subset
    rw [runL_append, hidle]
    refine List.mem_append_right _ ?_
    simp only [runL, hdotState, hnamed]
    rw [runL_append, hpassed]
    simp [runL, run, hgroup]
  obtain ⟨r, hr, hren, hmethod⟩ := Finding.exists_rename_of_judge_mem hmode hcalled hcalledFree hmem
  exact ⟨r, hr, hren, hmethod.trans hsame.isMethod⟩

/-- The tokens of `wrap(a, x.get_value::<'a>())`. -/
def nestedCall : List Token :=
  [.ident "wrap" ⟨1, 0⟩,
    .group .paren
      ([.ident "a" ⟨1, 5⟩, .punct (byte ',') false ⟨1, 6⟩, .ident "x" ⟨1, 8⟩] ++
        .punct (byte '.') false ⟨1, 9⟩ :: .ident "get_value" ⟨1, 10⟩ ::
          ([.punct (byte ':') true ⟨1, 19⟩, .punct (byte ':') true ⟨1, 20⟩,
            .punct (byte '<') true ⟨1, 21⟩, .punct (byte '\'') true ⟨1, 22⟩, .ident "a" ⟨1, 23⟩,
            .punct (byte '>') false ⟨1, 24⟩] ++ .group .paren [] ⟨1, 25⟩ :: [])) ⟨1, 4⟩]

theorem exists_rename_of_methodCall_nestedCall :
    let ctx : Context := { path := "src/lib.rs", tool := .calls, mode := .allGetFunctions }
    ∃ r ∈ Finding.renames (findings ctx ⟨.macroBody, "m", []⟩ nestedCall),
      r.Renames ctx ⟨"get_value", ⟨1, 10⟩⟩ ∧ r.isMethod = true := by
  intro ctx
  have hsuffix : Naming.suffix? "get_value" = some "value" := by decide +kernel
  have hfree : Naming.isReserved "value" = false := by decide +kernel
  have hlist : Token.Within _ nestedCall := @Token.Within.inside _ _ _ [.ident "wrap" ⟨1, 0⟩] [] _ .here
  refine @exists_rename_of_methodCall ctx _ _ _ _ _ _ _ _ _ _ _ rfl hlist rfl hsuffix hfree ⟨?_, rfl⟩ rfl ?_ rfl
  · decide +kernel
  · rintro ⟨earlier, text, p, args, hread, hget, -⟩
    -- no word in front of the dot has `get_` at its head
    have hmem : Token.ident text p ∈ earlier ++ .ident text p :: args := by simp
    rw [← hread] at hmem
    simp only [List.nil_append, Token.trailL, Token.trail, List.cons_append, List.mem_cons,
      Token.ident.injEq, reduceCtorEq, List.not_mem_nil, or_false, false_or] at hmem
    rcases hmem with ⟨rfl, -⟩ | ⟨rfl, -⟩
    · exact absurd hget (by decide +kernel)
    · exact absurd hget (by decide +kernel)

/-- The tokens of `s.get_x::<4>()`. -/
def literalArgument : List Token :=
  [.ident "s" ⟨1, 0⟩, .punct (byte '.') false ⟨1, 1⟩, .ident "get_x" ⟨1, 2⟩,
    .punct (byte ':') true ⟨1, 7⟩, .punct (byte ':') true ⟨1, 8⟩, .punct (byte '<') false ⟨1, 9⟩,
    .literal "4" ⟨1, 10⟩, .punct (byte '>') false ⟨1, 11⟩, .group .paren [] ⟨1, 12⟩]

/-- A literal among the explicit generic arguments hides the call. -/
theorem renames_literalArgument :
    let ctx : Context := { path := "src/lib.rs", tool := .calls, mode := .allGetFunctions }
    (∃ p q after, literalArgument =
        [.ident "s" ⟨1, 0⟩] ++ .punct (byte '.') false p :: .ident "get_x" q :: after ∧
        Outline.turbofish after = (true, [.group .paren [] ⟨1, 12⟩])) ∧
      Naming.suffix? "get_x" = some "x" ∧ Naming.isReserved "x" = false ∧
      Finding.renames (findings ctx ⟨.macroBody, "m", []⟩ literalArgument) = [] := by
  intro ctx
  refine ⟨⟨⟨1, 1⟩, ⟨1, 2⟩, _, rfl, rfl⟩, ?_, ?_, ?_⟩
  · decide +kernel
  · decide +kernel
  · decide +kernel

/-! ### Calls that are missed -/

/-- The tokens of `.get_x()` behind `before`, with `args` in front of the parentheses. -/
def dotCall (before args : List Token) : List Token :=
  before ++ .punct (byte '.') false ⟨1, 8⟩ :: .ident "get_x" ⟨1, 9⟩ ::
    (args ++ [.group .paren [] ⟨1, 30⟩])

/-- The tokens of `::<`. -/
def openAngle : List Token :=
  [.punct (byte ':') true ⟨1, 14⟩, .punct (byte ':') true ⟨1, 15⟩, .punct (byte '<') false ⟨1, 16⟩]

/-- No method of the stream is renamed. -/
def RenamesNoMethod (trees : List Token) : Prop :=
  let ctx : Context := { path := "src/lib.rs", tool := .calls, mode := .allGetFunctions }
  ∀ r ∈ Finding.renames (findings ctx ⟨.macroBody, "m", []⟩ trees), r.isMethod = false

instance (trees : List Token) : Decidable (RenamesNoMethod trees) :=
  inferInstanceAs (Decidable (∀ r ∈ _, _))

/-- The comma of `s.get_x::<A, B>()` hides the call. -/
theorem renamesNoMethod_comma :
    let args := openAngle ++ [.ident "A" ⟨1, 17⟩, .punct (byte ',') false ⟨1, 18⟩,
      .ident "B" ⟨1, 20⟩, .punct (byte '>') false ⟨1, 21⟩]
    ¬ Between args ∧ RenamesNoMethod (dotCall [.ident "s" ⟨1, 7⟩] args) := by
  refine ⟨fun h => absurd h.arguments ?_, ?_⟩
  · decide +kernel
  · decide +kernel

/-- A tick without a name among the arguments hides the call. -/
theorem renamesNoMethod_tick :
    let args := openAngle ++ [.punct (byte '\'') false ⟨1, 17⟩, .punct (byte '>') false ⟨1, 18⟩]
    Token.namesLifetimes args = false ∧
      RenamesNoMethod (dotCall [.ident "s" ⟨1, 7⟩] args) := by
  decide +kernel

/-- The name in front of the dot of `get_a.get_x()` still waits for its parentheses. -/
theorem renamesNoMethod_waits :
    let before := [.ident "get_a" ⟨1, 3⟩]
    Waits (Token.trailL [] before) ∧ RenamesNoMethod (dotCall before []) := by
  refine ⟨⟨[], "get_a", ⟨1, 3⟩, [], rfl, ?_, .of_docs (by simp)⟩, ?_⟩
  · decide +kernel
  · decide +kernel

/-- The second dot of `..get_x()` and the one of `fn.get_x()` are not seen: the name is renamed, but
not as that of a method. -/
theorem renamesNoMethod_last :
    (∀ t ∈ [.punct (byte '.') true ⟨1, 7⟩, .ident "fn" ⟨1, 6⟩],
      (Token.lastLeaf (Token.trailL [] [t])).any (fun t => t.isPunct '.' || t.isIdent "fn") = true ∧
        RenamesNoMethod (dotCall [t] [])) := by
  decide +kernel

end CallMatcher

end GetterRename
