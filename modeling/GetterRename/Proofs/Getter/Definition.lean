import GetterRename.Proofs.Getter.Analysis
import GetterRename.Proofs.Source.Definition

/-!
# Ordinary definitions

The definition matcher goes through an ordinary definition token by token and counts angle brackets
as it goes; the outline has its parts.  Both learn the same about the shape of the function, so they
decide alike.  Behind the arrow the matcher starts afresh.

* `DefinitionMatcher.Passes` — the machine goes through tokens without a finding;
* `DefinitionMatcher.passes_generics`, `passes_inputs` — the parts of a definition;
* `DefinitionMatcher.findings_ordinary` — the findings in an ordinary definition;
* `DefinitionMatcher.renames_ordinary` — the outline renames the same.
-/

namespace GetterRename.DefinitionMatcher

open Token (Joined isGenericParam isTyped SelfRef)

variable {ctx : Context} {scope : Scope}

/-! ### Runs without findings -/

theorem runL_append (level : Nat) (m : Machine) (ts ts' : List Token) :
    runL ctx scope level m (ts ++ ts') =
      ((runL ctx scope level (runL ctx scope level m ts).1 ts').1,
        (runL ctx scope level m ts).2 ++
          (runL ctx scope level (runL ctx scope level m ts).1 ts').2) := by
  induction ts generalizing m with
  | nil => rfl
  | cons t ts ih => simp [runL, ih]

/-- The machine goes through the tokens at a nesting level, without a finding. -/
def Passes (ctx : Context) (scope : Scope) (level : Nat) (m : Machine) (ts : List Token)
    (m' : Machine) : Prop :=
  runL ctx scope level m ts = (m', [])

namespace Passes

variable {level : Nat} {m m' m'' : Machine} {t : Token} {ts ts' : List Token}

theorem runL_append (h : Passes ctx scope level m ts m') (ts' : List Token) :
    runL ctx scope level m (ts ++ ts') = runL ctx scope level m' ts' := by
  rw [DefinitionMatcher.runL_append, show runL ctx scope level m ts = (m', []) from h]
  rfl

theorem append (h : Passes ctx scope level m ts m') (h' : Passes ctx scope level m' ts' m'') :
    Passes ctx scope level m (ts ++ ts') m'' :=
  (h.runL_append ts').trans h'

theorem cons (h : run ctx scope level m t = (m', [])) (h' : Passes ctx scope level m' ts m'') :
    Passes ctx scope level m (t :: ts) m'' := by
  have hone : Passes ctx scope level m [t] m' := by simp [Passes, runL, h]
  exact hone.append h'

theorem one (h : run ctx scope level m t = (m', [])) : Passes ctx scope level m [t] m' :=
  cons h rfl

end Passes

section Steps

variable {level depth : Nat} {cand : Candidate} {phase : Phase} {afterDash : Bool} {t : Token}

theorem run_punct {c : Char} (ht : t.isPunct c = true) (hc : byte c ≠ byte ';') :
    run ctx scope level ⟨.pending phase cand depth, afterDash⟩ t =
      let (state, found) := pendingPunct ctx scope level (byte c) afterDash phase cand depth
      (⟨state, byte c = byte '-' || byte c = byte '='⟩, found) := by
  obtain ⟨joint, p, rfl⟩ := Token.exists_eq_of_isPunct ht
  simp [run, punct, hc]

/-- A word in a definition; in the inputs even the word `fn` is a word like any other. -/
theorem run_ident {text : Bytes} {p : Pos}
    (hfn : text ≠ Bytes.ofString "fn" ∨ phase.isInArgs = true ∧ depth < level) :
    run ctx scope level ⟨.pending phase cand depth, afterDash⟩ (.ident text p) =
      let (state, found) := pendingIdent ctx scope text phase cand depth
      (⟨state, false⟩, found) := by
  rcases hfn with hfn | ⟨hargs, hlevel⟩
  · simp [run, ident, hfn]
  · simp [run, ident, hargs, hlevel]

end Steps

/-! ### Generic parameters -/

/-- The candidate with what its generic parameters say about it. -/
def withParams (cand : Candidate) (params : List (List Token)) : Candidate :=
  { cand with
    hasGenericParams := cand.hasGenericParams || params.any fun p => !Signature.isLifetime p }

section Generics

variable {level depth : Nat} {cand : Candidate} {angles : Int} {afterDash : Bool}

theorem passes_param {param : List Token} (h : isGenericParam param = true) :
    Passes ctx scope level ⟨.pending (.params angles) cand depth, afterDash⟩ param
      ⟨.pending (.params angles) (withParams cand [param]) depth, false⟩ := by
  simp only [isGenericParam, Bool.and_eq_true, Bool.or_eq_true, Bool.not_eq_true'] at h
  obtain ⟨hlifetime | ⟨hlength, hname⟩, hfn⟩ := h
  · obtain ⟨tick, text, p, rfl, htick⟩ := Token.exists_eq_of_isLifetime hlifetime
    have hfn' : text ≠ Bytes.ofString "fn" := by
      simp only [List.any_cons, Bool.or_eq_false_iff] at hfn
      simpa [Token.isIdent] using hfn.2
    have hparam : Signature.isLifetime [tick, .ident text p] = true := htick
    have htick' : run ctx scope level ⟨.pending (.params angles) cand depth, afterDash⟩ tick =
        (⟨.pending (.paramLifetime angles) cand depth, false⟩, []) := by
      refine (run_punct htick (by decide)).trans ?_
      simp +decide [pendingPunct]
    refine .cons htick' (.one ((run_ident (.inl hfn')).trans ?_))
    simp [pendingIdent, withParams, hparam]
  · obtain ⟨t, rfl⟩ := List.length_eq_one_iff.1 (by simpa using hlength)
    obtain ⟨text, p, rfl⟩ := Token.exists_eq_of_isName (show t.isName = true by simpa using hname)
    have hfn' : text ≠ Bytes.ofString "fn" := by
      simpa [Token.isIdent] using hfn
    refine .one ((run_ident (.inl hfn')).trans ?_)
    simp [pendingIdent, withParams, Signature.isLifetime, Token.isPunct]

theorem passes_params {params : List (List Token)} {ts : List Token} (h : Joined params ts)
    (hparams : ∀ param ∈ params, isGenericParam param = true) :
    Passes ctx scope level ⟨.pending (.params angles) cand depth, afterDash⟩ ts
      ⟨.pending (.params angles) (withParams cand params) depth, false⟩ := by
  induction h generalizing cand afterDash with
  | one param => exact passes_param (hparams param List.mem_cons_self)
  | @cons comma params ts param hcomma _ ih =>
    have hmore : Passes ctx scope level
        ⟨.pending (.params angles) (withParams cand [param]) depth, false⟩ ts
        ⟨.pending (.params angles) (withParams (withParams cand [param]) params) depth, false⟩ :=
      ih fun p hp => hparams p (List.mem_cons_of_mem _ hp)
    have hall : withParams (withParams cand [param]) params = withParams cand (param :: params) := by
      simp [withParams, Bool.or_assoc]
    rw [hall] at hmore
    refine (passes_param (hparams param List.mem_cons_self)).append (.cons ?_ hmore)
    refine (run_punct hcomma (by decide)).trans ?_
    simp +decide [pendingPunct]

variable (ctx scope level depth cand) in
/-- **Generic parameters.** Behind them, as behind the bare name, the inputs come next. -/
theorem passes_generics {params : List (List Token)} {ts : List Token}
    (h : Token.Generics params ts) :
    ∃ phase, (phase = .named ∨ phase = .params 0) ∧
      Passes ctx scope level ⟨.pending .named cand depth, false⟩ ts
        ⟨.pending phase (withParams cand params) depth, false⟩ := by
  cases h with
  | none => 
    refine ⟨.named, .inl rfl, ?_⟩
    simp [Passes, runL, withParams]
  | some hlt hgt hjoined hparams =>
    refine ⟨.params 0, .inr rfl, ?_⟩
    have hinner : Passes ctx scope level ⟨.pending (.params 1) cand depth, false⟩ _
        ⟨.pending (.params 1) (withParams cand params) depth, false⟩ :=
      passes_params hjoined hparams
    refine .cons ((run_punct hlt (by decide)).trans ?_)
      (hinner.append (.one ((run_punct hgt (by decide)).trans ?_)))
    · simp +decide [pendingPunct]
    · simp +decide [pendingPunct]

end Generics

/-! ### Inputs -/

/-- The candidate with what some inputs may add to it: a comma looks like another input. -/
def withCommas (cand : Candidate) (some : Bool) : Candidate :=
  { cand with hasMultipleArgs := cand.hasMultipleArgs || some }

section Inputs

variable {level : Nat} {cand : Candidate} {afterDash : Bool}

def inType (phase : Phase) : Prop := phase = .args ∨ phase = .argRef

theorem withCommas_false (cand : Candidate) : withCommas cand false = cand := by
  simp [withCommas]

theorem withCommas_withCommas (cand : Candidate) (a b : Bool) :
    withCommas (withCommas cand a) b = withCommas cand (a || b) := by
  simp [withCommas, Bool.or_assoc]

variable (ctx scope level cand afterDash) in
theorem run_typeToken {t : Token} {phase : Phase} (hphase : inType phase)
    (ht : t.isTypeToken = true) :
    ∃ phase' some, inType phase' ∧ ((t.isName || t.isPunct '>') = true → phase' = .args) ∧
      run ctx scope (level + 1) ⟨.pending phase cand level, afterDash⟩ t =
        (⟨.pending phase' (withCommas cand some) level, false⟩, []) := by
  cases t with
  | ident text p =>
    obtain ⟨hself, hfn, hmut⟩ : text ≠ Bytes.ofString "self" ∧ text ≠ Bytes.ofString "fn" ∧
        text ≠ Bytes.ofString "mut" := by simpa [Token.isTypeToken] using ht
    refine ⟨.args, false, .inl rfl, fun _ => rfl, ?_⟩
    rw [run_ident (.inl hfn), withCommas_false]
    rcases hphase with rfl | rfl
    · rfl
    · simp [pendingIdent, hself, hmut]
  | punct c joint p =>
    have hno : ∀ c ∈ Bytes.ofString "&:<>,",
        c ≠ byte ';' ∧ c ≠ byte '-' ∧ c ≠ byte '=' ∧ c ≠ byte '\'' := by decide +kernel
    obtain ⟨hsemi, hdash, heq, htick⟩ := hno c (by simpa [Token.isTypeToken] using ht)
    rcases hphase with rfl | rfl
    · by_cases hamp : c = byte '&'
      · refine ⟨.argRef, false, .inr rfl, fun h => ?_, ?_⟩
        · subst hamp
          exact absurd (show (byte '&' == byte '>') = true from h) (by decide)
        · simp +decide [run, punct, pendingPunct, hamp, withCommas_false]
      by_cases hcomma : c = byte ','
      · refine ⟨.args, true, .inl rfl, fun _ => rfl, ?_⟩
        simp +decide [run, punct, pendingPunct, hcomma, withCommas]
      · refine ⟨.args, false, .inl rfl, fun _ => rfl, ?_⟩
        simp [run, punct, pendingPunct, hsemi, hdash, heq, hamp, htick, hcomma, withCommas_false]
    · refine ⟨.args, false, .inl rfl, fun _ => rfl, ?_⟩
      simp [run, punct, pendingPunct, hsemi, hdash, heq, htick, withCommas_false]
  | _ => simp [Token.isTypeToken] at ht

variable (ctx scope level cand) in
theorem passes_typeTokens {ts : List Token} {phase : Phase} (hphase : inType phase)
    (hts : ∀ t ∈ ts, t.isTypeToken = true) :
    ∃ phase' some, inType phase' ∧
      (ts.getLast?.any (fun t => t.isName || t.isPunct '>') = true → phase' = .args) ∧
      Passes ctx scope (level + 1) ⟨.pending phase cand level, false⟩ ts
        ⟨.pending phase' (withCommas cand some) level, false⟩ := by
  induction ts generalizing phase cand with
  | nil => exact ⟨phase, false, hphase, nofun, by rw [withCommas_false]; rfl⟩
  | cons t ts ih =>
    obtain ⟨phase₁, some₁, hphase₁, hlast₁, hrun⟩ :=
      run_typeToken ctx scope level cand false hphase (hts t List.mem_cons_self)
    obtain ⟨phase', some', hphase', hlast, hpasses⟩ :=
      ih (withCommas cand some₁) hphase₁ fun t' h => hts t' (List.mem_cons_of_mem t h)
    rw [withCommas_withCommas] at hpasses
    refine ⟨phase', _, hphase', fun h => ?_, .cons hrun hpasses⟩
    obtain - | ⟨u, us⟩ := ts
    · -- the last token
      have hend : phase₁ = phase' := by
        have hstate := congrArg (fun r => r.1.state) hpasses
        simp only [runL, State.pending.injEq] at hstate
        exact hstate.1
      exact hend ▸ hlast₁ (by simpa using h)
    · exact hlast (by simpa using h)

variable (ctx scope level cand afterDash) in
theorem passes_typed {input : List Token} (h : isTyped input = true) :
    ∃ some, Passes ctx scope (level + 1) ⟨.pending .args cand level, afterDash⟩ input
      ⟨.pending .args (withCommas cand some) level, false⟩ := by
  unfold isTyped at h
  split at h
  · rename_i name colon type
    simp only [Bool.and_eq_true, Token.isType, List.all_eq_true] at h
    obtain ⟨⟨⟨hname, -⟩, hcolon⟩, ⟨htokens, -⟩, hlast⟩ := h
    obtain ⟨text, p, rfl⟩ := Token.exists_eq_of_isName hname
    obtain ⟨phase, some, -, hargs, hpasses⟩ :=
      passes_typeTokens ctx scope level cand (.inl rfl) htokens
    obtain rfl := hargs hlast
    refine ⟨some, .cons ((run_ident (.inr ⟨rfl, Nat.lt_succ_self _⟩)).trans rfl)
      (.cons ((run_punct hcolon (by decide)).trans ?_) hpasses)⟩
    simp +decide [pendingPunct]
  · simp at h

variable (ctx scope level cand afterDash) in
theorem passes_selfRef {input : List Token} (h : SelfRef input) :
    Passes ctx scope (level + 1) ⟨.pending .args cand level, afterDash⟩ input
      ⟨.pending .argSelf { cand with isMethod := true } level, false⟩ := by
  obtain ⟨hamp, hlifetime, hmutable, hword⟩ := h
  rename_i amp word lifetime mutable
  have hinArgs : Phase.argRef.isInArgs = true ∧ level < level + 1 := ⟨rfl, Nat.lt_succ_self _⟩
  have hamp' : run ctx scope (level + 1) ⟨.pending .args cand level, afterDash⟩ amp =
      (⟨.pending .argRef cand level, false⟩, []) := by
    refine (run_punct hamp (by decide)).trans ?_
    simp +decide [pendingPunct]
  have hlifetime' : Passes ctx scope (level + 1) ⟨.pending .argRef cand level, false⟩ lifetime
      ⟨.pending .argRef cand level, false⟩ := by
    rcases hlifetime with rfl | hlifetime
    · rfl
    obtain ⟨tick, text, p, rfl, htick⟩ := Token.exists_eq_of_isLifetime hlifetime
    have htick' : run ctx scope (level + 1) ⟨.pending .argRef cand level, false⟩ tick =
        (⟨.pending .argLifetime cand level, false⟩, []) := by
      refine (run_punct htick (by decide)).trans ?_
      simp +decide [pendingPunct]
    exact .cons htick' (.one ((run_ident (.inr ⟨rfl, hinArgs.2⟩)).trans rfl))
  have hmutable' : Passes ctx scope (level + 1) ⟨.pending .argRef cand level, false⟩ mutable
      ⟨.pending .argRef cand level, false⟩ := by
    rcases hmutable with rfl | ⟨t, rfl, hmut⟩
    · rfl
    · obtain ⟨p, rfl⟩ := Token.exists_eq_of_isIdent hmut
      exact .one ((run_ident (.inr hinArgs)).trans rfl)
  have hself : run ctx scope (level + 1) ⟨.pending .argRef cand level, false⟩ word =
      (⟨.pending .argSelf { cand with isMethod := true } level, false⟩, []) := by
    obtain ⟨p, rfl⟩ := Token.exists_eq_of_isIdent hword
    exact (run_ident (.inr hinArgs)).trans rfl
  exact .cons hamp' ((hlifetime'.append hmutable').append (.one hself))

theorem run_comma {t : Token} {phase : Phase} (ht : t.isPunct ',' = true)
    (hphase : phase = .args ∨ phase = .argSelf) :
    run ctx scope (level + 1) ⟨.pending phase cand level, afterDash⟩ t =
      (⟨.pending .args { cand with hasMultipleArgs := true } level, false⟩, []) := by
  refine (run_punct ht (by decide)).trans ?_
  rcases hphase with rfl | rfl <;> simp +decide [pendingPunct]

variable (ctx scope level cand afterDash) in
theorem passes_typedL {inputs : List (List Token)} {ts : List Token} (h : Joined inputs ts)
    (hinputs : ∀ input ∈ inputs, isTyped input = true) :
    ∃ some, Passes ctx scope (level + 1) ⟨.pending .args cand level, afterDash⟩ ts
      ⟨.pending .args (withCommas cand some) level, false⟩ := by
  induction h generalizing cand afterDash with
  | one input => exact passes_typed ctx scope level cand afterDash (hinputs input List.mem_cons_self)
  | @cons comma inputs ts input hcomma _ ih =>
    obtain ⟨some, hfirst⟩ :=
      passes_typed ctx scope level cand afterDash (hinputs input List.mem_cons_self)
    obtain ⟨some', hmore⟩ := ih { withCommas cand some with hasMultipleArgs := true } false
      fun input h => hinputs input (List.mem_cons_of_mem _ h)
    refine ⟨true, hfirst.append (.cons (run_comma hcomma (.inl rfl)) ?_)⟩
    have hall : withCommas { withCommas cand some with hasMultipleArgs := true } some' =
        withCommas cand true := by simp [withCommas]
    rwa [hall] at hmore

/-- The candidate with what the inputs say about it: whether it is a method, and whether there may
be more inputs than one. -/
def withInputs (cand : Candidate) (isMethod some : Bool) : Candidate :=
  { cand with isMethod, hasMultipleArgs := some }

variable (ctx scope level) in
/-- **Inputs.** Behind them it is known whether the function is a method, and of a method whether
there are other inputs. -/
theorem passes_inputs {inputs : List (List Token)} {ts : List Token} (h : Token.Inputs inputs ts)
    (hmethod : cand.isMethod = false) (hone : cand.hasMultipleArgs = false) :
    ∃ phase some, (phase = .args ∨ phase = .argSelf) ∧
      (inputs.head?.any Signature.isReceiver = true → some = decide (1 < inputs.length)) ∧
      Passes ctx scope (level + 1) ⟨.pending .args cand level, false⟩ ts
        ⟨.pending phase (withInputs cand (inputs.head?.any Signature.isReceiver) some) level,
          false⟩ := by
  cases h with
  | none =>
    have hcand : withInputs cand false false = cand := by
      cases cand
      simp_all [withInputs]
    refine ⟨.args, false, .inl rfl, nofun, ?_⟩
    rw [List.head?_nil, Option.any_none, hcand]
    rfl
  | @some first rest ts hjoined hfirst hrest =>
    simp only [List.head?_cons, Option.any_some]
    rcases hfirst with htyped | hself
    · rw [Token.isReceiver_of_isTyped htyped]
      obtain ⟨some, hpasses⟩ := passes_typedL ctx scope level cand false hjoined
        (by simpa only [List.forall_mem_cons] using ⟨htyped, hrest⟩)
      refine ⟨.args, some, .inl rfl, nofun, ?_⟩
      have hall : withInputs cand false some = withCommas cand some := by
        simp [withInputs, withCommas, hmethod, hone]
      rwa [hall]
    · rw [Token.isReceiver_of_selfRef hself]
      have hfirst := passes_selfRef ctx scope level cand false hself
      cases hjoined with
      | one =>
        have hall : { cand with isMethod := true } = withInputs cand true false := by
          simp [withInputs, hone]
        rw [hall] at hfirst
        exact ⟨.argSelf, false, .inr rfl, fun _ => rfl, hfirst⟩
      | @cons comma inputs ts input hcomma hmore =>
        obtain ⟨some, hpasses⟩ := passes_typedL ctx scope level
          { cand with isMethod := true, hasMultipleArgs := true } false hmore hrest
        have hall : withCommas { cand with isMethod := true, hasMultipleArgs := true } some =
            withInputs cand true true := by simp [withCommas, withInputs]
        rw [hall] at hpasses
        refine ⟨.args, true, .inl rfl, fun _ => ?_,
          hfirst.append (.cons (run_comma hcomma (.inr rfl)) hpasses)⟩
        cases hmore <;> simp

end Inputs

/-! ### Behind the inputs -/

section Behind

variable {cand : Candidate}

variable (ctx scope cand) in
/-- The arrow behind the inputs. -/
theorem passes_arrow (level : Nat) {phase : Phase} {dash angle : Token}
    (hphase : phase = .args ∨ phase = .argSelf) (hdash : dash.isPunct '-' = true)
    (hangle : angle.isPunct '>' = true) :
    Passes ctx scope level ⟨.pending phase cand level, false⟩ [dash, angle]
      ⟨.pending .ret { cand with returnsBool := .no } level, false⟩ := by
  have hdash' : run ctx scope level ⟨.pending phase cand level, false⟩ dash =
      (⟨.pending .ret { cand with returnsBool := .no } level, true⟩, []) := by
    refine (run_punct hdash (by decide)).trans ?_
    rcases hphase with rfl | rfl <;> simp +decide [pendingPunct]
  refine .cons hdash' (.one ((run_punct hangle (by decide)).trans ?_))
  simp +decide [pendingPunct]

theorem runL_ending {ending : Token} (h : Outline.endsHeader ending = true) :
    runL ctx scope 0 ⟨.pending .ret cand 0, false⟩ [ending] =
      ((runL ctx scope 0 {} [ending]).1,
        ctx.judge scope cand cand.streamObjection :: (runL ctx scope 0 {} [ending]).2) := by
  cases ending with
  | group d inner p =>
    obtain rfl : d = .brace := by simpa [Outline.endsHeader, Token.isGroupOf, Token.isPunct] using h
    simp [runL, run, group, pendingGroup, decided]
  | punct c joint p =>
    obtain rfl : c = byte ';' := by simpa [Outline.endsHeader, Token.isGroupOf, Token.isPunct] using h
    simp [runL, run, punct, decided]
  | _ => simp [Outline.endsHeader, Token.isGroupOf, Token.isPunct] at h

variable (ctx scope) in
/-- **The return type** decides whether the function returns a `bool`; then the matcher is idle, as
if it started there. -/
theorem runL_result {result : List Token} {ending : Token} (hno : cand.returnsBool = .no)
    (hresult : Token.isResult result = true) (hending : Outline.endsHeader ending = true) :
    let cand' := { cand with returnsBool := .ofBool (Token.isBool result) }
    (runL ctx scope 0 ⟨.pending .ret cand 0, false⟩ (result ++ [ending])).2 =
      ctx.judge scope cand' cand'.streamObjection :: findings ctx scope (result ++ [ending]) := by
  intro cand'
  obtain - | ⟨t, ts⟩ := result
  · simp [Token.isResult] at hresult
  cases t with
  | ident text p =>
    by_cases hbool : text = Bytes.ofString "bool"
    · subst hbool
      obtain rfl : ts = [] := by simpa [Token.isResult] using hresult
      have hyes : cand' = { cand with returnsBool := .yes } := by
        simp [cand', Token.isBool, Token.isIdent, ReturnsBool.ofBool]
      have hret : run ctx scope 0 ⟨.pending .ret cand 0, false⟩
          (.ident (Bytes.ofString "bool") p) = (⟨.pending .ret cand' 0, false⟩, []) := by
        refine (run_ident (.inl (by decide))).trans ?_
        simp [pendingIdent, hno, hyes]
      have hidle : run ctx scope 0 {} (.ident (Bytes.ofString "bool") p) = ({}, []) := by
        simp +decide [run, ident]
      have hret' := Passes.runL_append (.one hret) [ending]
      have hidle' := Passes.runL_append (.one hidle) [ending]
      rw [findings, hret', hidle', runL_ending hending]
    · obtain ⟨hfn, hwhere⟩ : text ≠ Bytes.ofString "fn" ∧ text ≠ Bytes.ofString "where" := by
        simpa [Token.isResult, hbool] using hresult
      have hother : Token.isBool (.ident text p :: ts) = false := by
        cases ts <;> simp [Token.isBool, Token.isIdent, hbool]
      have hno' : cand' = { cand with returnsBool := .no } := by
        simp [cand', hother, ReturnsBool.ofBool]
      simp [findings, runL, run, ident, hfn, pendingIdent, hbool, hwhere, decided, hno']
  | group d inner p =>
    have hbrace : d ≠ .brace := by simpa [Token.isResult] using hresult
    have hno' : cand' = { cand with returnsBool := .no } := by
      cases ts <;> simp [cand', Token.isBool, Token.isIdent, ReturnsBool.ofBool]
    simp [findings, runL, run, group, pendingGroup, decided, hbrace, hno']
  | _ => simp [Token.isResult] at hresult

end Behind

/-! ### The whole definition -/

/-- The group of the inputs, behind the name or the generic parameters. -/
theorem run_inputs {level : Nat} {phase : Phase} {cand : Candidate} {ts : List Token} (p : Pos)
    {m : Machine} (hphase : phase = .named ∨ phase = .params 0)
    (h : Passes ctx scope (level + 1)
      ⟨.pending .args { cand with hasNoArgs := cand.hasNoArgs || ts.isEmpty } level, false⟩ ts m) :
    run ctx scope level ⟨.pending phase cand level, false⟩ (.group .paren ts p) =
      (⟨m.state, false⟩, []) := by
  rcases hphase with rfl | rfl <;>
    simp [run, group, pendingGroup, show runL ctx scope (level + 1) _ ts = (m, []) from h]

variable (ctx scope) in
/-- **An ordinary definition** makes one decision; the other findings are those behind its arrow. -/
theorem findings_ordinary {f : FnText} {params inputs : List (List Token)} {suffix : Bytes}
    (h : f.IsOrdinary params inputs) (hsuffix : Naming.suffix? f.name.text = some suffix) :
    ∃ some, (inputs.head?.any Signature.isReceiver = true → some = decide (1 < inputs.length)) ∧
      let cand : Candidate :=
        { name := f.name.text, suffix, line := ctx.view.line f.name.pos,
          column := ctx.view.column f.name.pos,
          returnsBool := .ofBool (Token.isBool f.result),
          isMethod := inputs.head?.any Signature.isReceiver,
          hasGenericParams := params.any fun p => !Signature.isLifetime p,
          hasMultipleArgs := some, hasNoArgs := f.inputs.isEmpty }
      findings ctx scope f.tokens =
        ctx.judge scope cand cand.streamObjection :: findings ctx scope f.behind := by
  let cand : Candidate :=
    { name := f.name.text, suffix, line := ctx.view.line f.name.pos,
      column := ctx.view.column f.name.pos, returnsBool := .no, isMethod := false }
  have hfn : f.name.text ≠ Bytes.ofString "fn" := by
    intro heq
    rw [heq] at hsuffix
    have hnone : Naming.suffix? (Bytes.ofString "fn") = none := by decide
    simp [hnone] at hsuffix
  have hword : run ctx scope 0 {} (.ident (Bytes.ofString "fn") f.fnPos) = (⟨.fn 0, false⟩, []) :=
    rfl
  have hname : run ctx scope 0 ⟨.fn 0, false⟩ (.ident f.name.text f.name.pos) =
      (⟨.pending .named cand 0, false⟩, []) := by
    simp [run, ident, hfn, fnName, Context.candidate?, hsuffix, cand]
  obtain ⟨phase, hphase, hgenerics⟩ := passes_generics ctx scope 0 0 cand h.generics
  let counted : Candidate := { withParams cand params with hasNoArgs := f.inputs.isEmpty }
  have hmethod : counted.isMethod = false := rfl
  obtain ⟨phase', some, hphase', hsome, hinputs⟩ := passes_inputs ctx scope 0 h.inputs hmethod rfl
  let judged := withInputs counted (inputs.head?.any Signature.isReceiver) some
  have hgroup := run_inputs f.inputsPos hphase hinputs
  have harrow := passes_arrow ctx scope judged 0 hphase' h.dash h.angle
  have hhead : Passes ctx scope 0 {}
      (.ident (Bytes.ofString "fn") f.fnPos :: .ident f.name.text f.name.pos ::
        (f.generics ++ .group .paren f.inputs f.inputsPos :: [f.dash, f.angle])) _ :=
    .cons hword (.cons hname (hgenerics.append (.cons hgroup harrow)))
  have htokens : f.tokens =
      (.ident (Bytes.ofString "fn") f.fnPos :: .ident f.name.text f.name.pos ::
        (f.generics ++ .group .paren f.inputs f.inputsPos :: [f.dash, f.angle])) ++ f.behind := by
    simp [FnText.tokens, FnText.afterGenerics]
  refine ⟨some, hsome, ?_⟩
  have hno : ({ judged with returnsBool := .no } : Candidate).returnsBool = .no := rfl
  have hresult := runL_result ctx scope hno h.result h.ending
  rw [findings, htokens, hhead.runL_append]
  exact hresult

/-! ### Both ways -/

/-- The first finding is about the name, and the others that know their column are about
identifiers of the tokens behind it. -/
def Leads (ctx : Context) (own : Finding) (name : Ident) (behind : List Token)
    (found : List Finding) : Prop :=
  ∃ more, found = own :: more ∧
    Rename.Trace (Rename.Renames ctx) (Finding.renames [own]) [name] ∧
    Rename.Trace (Rename.Renames ctx) (Analysis.placed more) (Token.namesL behind)

theorem leads_findings {f : FnText} {own : Finding} (hview : ctx.view.relocated = false)
    (htool : ctx.tool = .definitions)
    (hfound : findings ctx scope f.tokens = own :: findings ctx scope f.behind)
    (hown : Rename.Trace (Rename.Renames ctx) (Finding.renames [own]) [f.name]) :
    Leads ctx own f.name f.behind (findings ctx scope f.tokens) := by
  have hstream : streamFindings ctx scope f.behind = findings ctx scope f.behind := by
    simp [streamFindings, htool]
  have htrace := trace_streamFindings ctx scope f.behind
  rw [hstream] at htrace
  exact ⟨_, hfound, hown,
    Analysis.placed_of_trace hview (htrace.mono (Token.safeNamesL_sublist f.behind))⟩

/-- The only item of an inherent `impl` block: the definition is visited first. -/
theorem findings_impl (htool : ctx.tool = .definitions) (type : Bytes) (sig : Signature)
    (inside after : List Node) :
    ∃ vs, Analysis.findings ctx
        [.construct (.impl none type) (.construct (.fn sig) inside :: after)] =
        Analysis.definition ctx ⟨.inherentImpl, type, []⟩ sig ++ Analysis.visitAll ctx none vs ∧
      vs.flatMap Visit.names = Node.namesL inside ++ Node.namesL after := by
  let block : Scope := ⟨.inherentImpl, type, []⟩
  refine ⟨Node.visitsL block false inside ++ Node.visitsL block true after, ?_, ?_⟩
  · simp [Analysis.findings, Node.visitsL, Node.visits, Construct.scopeInside, Construct.holdsItems,
      Construct.visit?, Analysis.visitAll, Analysis.visit, htool, block]
  · rw [List.flatMap_append, Node.names_visitsL, Node.names_visitsL]

theorem definition_judged {sig : Signature} {suffix : Bytes}
    (hsuffix : Naming.suffix? sig.name.text = some suffix)
    (hblock : scope.needsDocAlias?.isSome = true) :
    let cand : Candidate :=
      { name := sig.name.text, suffix, line := ctx.view.line sig.name.pos,
        column := ctx.view.column sig.name.pos, returnsBool := .ofBool sig.returnsBool,
        isMethod := sig.isMethod, hasGenericParams := sig.hasTypeParams,
        hasMultipleArgs := 1 < sig.inputs.length, hasNoArgs := sig.inputs.isEmpty }
    Analysis.definition ctx scope sig = [ctx.judge scope cand cand.signatureObjection] := by
  obtain ⟨_, halias⟩ := Option.isSome_iff_exists.1 hblock
  simp [Analysis.definition, Context.candidate?, hsuffix, halias]

/-- What counts against a candidate is the same in a stream and in a signature. -/
theorem isSome_objection {cand cand' : Candidate} (hmethod : cand'.isMethod = cand.isMethod)
    (hgeneric : cand'.hasGenericParams = cand.hasGenericParams)
    (hnone : cand'.hasNoArgs = cand.hasNoArgs)
    (hmultiple : cand.isMethod = true → cand'.hasMultipleArgs = cand.hasMultipleArgs) :
    cand.streamObjection.isSome = cand'.signatureObjection.isSome := by
  unfold Candidate.streamObjection Candidate.signatureObjection
  rw [hmethod, hgeneric, hnone]
  cases hm : cand.isMethod with
  | false =>
    cases cand.hasNoArgs <;> cases cand.hasGenericParams <;> cases cand'.hasMultipleArgs <;> rfl
  | true =>
    rw [hmultiple hm]
    cases cand.hasNoArgs <;> cases cand.hasGenericParams <;> cases cand.hasMultipleArgs <;> rfl

/-- **Ordinary definitions.**  In a macro the definition matcher decides about the name of an
ordinary definition as the outline does where the definition is the only item of an inherent `impl`
block: either both rename it, to the same new name and with the same alias, or neither does.  All
other renames of real code are of identifiers behind the arrow. -/
theorem renames_ordinary {f : FnText} {params inputs : List (List Token)}
    (h : f.IsOrdinary params inputs) (hget : (Naming.suffix? f.name.text).isSome = true)
    (path macroName type : Bytes) (mode : Mode) :
    let ctx : Context := { path, tool := .definitions, mode }
    ∃ own own',
      Leads ctx own f.name f.behind (findings ctx ⟨.macroBody, macroName, []⟩ f.tokens) ∧
      Leads ctx own' f.name f.behind
        (Analysis.findings ctx [.construct (.impl none type) (Outline.read f.tokens)]) ∧
      (Finding.renames [own]).map Rename.unscoped = (Finding.renames [own']).map Rename.unscoped := by
  intro ctx
  obtain ⟨suffix, hsuffix⟩ := Option.isSome_iff_exists.1 hget
  obtain ⟨some, hsome, hfound⟩ := findings_ordinary ctx ⟨.macroBody, macroName, []⟩ h hsuffix
  obtain ⟨sig, inside, after, hread, hname, hparams, hinputs, hbool, hnames⟩ :=
    Outline.read_ordinary h
  have hmethod : sig.isMethod = inputs.head?.any Signature.isReceiver := by
    rw [Signature.isMethod, hinputs]
  have htool : ctx.tool = .definitions := rfl
  obtain ⟨vs, himpl, hvs⟩ := findings_impl htool type sig inside after
  rw [definition_judged (hname ▸ hsuffix) rfl] at himpl
  refine ⟨_, _, leads_findings rfl rfl hfound (.judge ⟨rfl, hsuffix, rfl, rfl⟩ _ _),
    ⟨_, hread ▸ himpl, .judge ⟨by rw [hname], hsuffix, by rw [hname], by rw [hname]⟩ _ _, ?_⟩, ?_⟩
  · have hview : ctx.view.relocated = false := rfl
    have htrace := Analysis.trace_visitAll hview none vs
    rw [hvs] at htrace
    exact htrace.mono (hnames.trans (Token.safeNamesL_sublist f.behind))
  · refine Finding.unscoped_judge ⟨by rw [hname], rfl, by rw [hname], by rw [hname]⟩
      (by rw [hbool]) hmethod rfl (isSome_objection hmethod ?_ ?_ fun hm => ?_)
    · rw [Signature.hasTypeParams, hparams]
    · rw [hinputs, h.inputs.isEmpty]
    · rw [hinputs, hsome hm]

/-- The definition `fn get_at<'a>(&'a self, key: Key<A, B>) -> bool {}`. -/
def getAt : FnText where
  fnPos := ⟨1, 0⟩
  name := ⟨"get_at", ⟨1, 3⟩⟩
  generics := [.punct (byte '<') true ⟨1, 9⟩, .punct (byte '\'') false ⟨1, 10⟩, .ident "a" ⟨1, 11⟩,
    .punct (byte '>') false ⟨1, 12⟩]
  inputs := [.punct (byte '&') true ⟨1, 14⟩, .punct (byte '\'') false ⟨1, 15⟩, .ident "a" ⟨1, 16⟩,
    .ident "self" ⟨1, 18⟩, .punct (byte ',') false ⟨1, 22⟩, .ident "key" ⟨1, 24⟩,
    .punct (byte ':') false ⟨1, 27⟩, .ident "Key" ⟨1, 29⟩, .punct (byte '<') false ⟨1, 32⟩,
    .ident "A" ⟨1, 33⟩, .punct (byte ',') false ⟨1, 34⟩, .ident "B" ⟨1, 36⟩,
    .punct (byte '>') false ⟨1, 37⟩]
  inputsPos := ⟨1, 13⟩
  dash := .punct (byte '-') true ⟨1, 40⟩
  angle := .punct (byte '>') false ⟨1, 41⟩
  result := [.ident "bool" ⟨1, 43⟩]
  ending := .group .brace [] ⟨1, 48⟩

theorem renames_ordinary_getAt :
    let ctx : Context := { path := "src/lib.rs", tool := .definitions, mode := .allGetFunctions }
    ∃ own own',
      Leads ctx own getAt.name getAt.behind (findings ctx ⟨.macroBody, "m", []⟩ getAt.tokens) ∧
      Leads ctx own' getAt.name getAt.behind
        (Analysis.findings ctx [.construct (.impl none "T") (Outline.read getAt.tokens)]) ∧
      (Finding.renames [own]).map Rename.unscoped =
        (Finding.renames [own']).map Rename.unscoped := by
  have hgenerics : Token.Generics [[.punct (byte '\'') false ⟨1, 10⟩, .ident "a" ⟨1, 11⟩]]
      getAt.generics := .some rfl rfl (.one _) (by decide)
  have hself : SelfRef (getAt.inputs.take 4) :=
    @SelfRef.mk (.punct (byte '&') true ⟨1, 14⟩) (.ident "self" ⟨1, 18⟩)
      [.punct (byte '\'') false ⟨1, 15⟩, .ident "a" ⟨1, 16⟩] [] rfl (.inr rfl) (.inl rfl) rfl
  have hinputs : Token.Inputs [getAt.inputs.take 4, getAt.inputs.drop 5] getAt.inputs :=
    .some (.cons (getAt.inputs.take 4) rfl (.one (getAt.inputs.drop 5))) (.inr hself) (by decide)
  exact renames_ordinary ⟨hgenerics, hinputs, rfl, rfl, by decide, rfl⟩ (by decide) _ _ _ _

end GetterRename.DefinitionMatcher
