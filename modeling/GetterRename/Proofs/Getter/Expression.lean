import GetterRename.Proofs.Getter.Analysis
import GetterRename.Proofs.Source.Expression

/-!
# Calls in expressions

Two ways lead to the calls of expression code: its outline, and the call matcher that knows nothing
of expressions.  Both are compared with the calls of the tokens themselves, which are the
identifiers in front of parentheses: a method behind a single dot, else a path unless it is a
keyword.

* `Token.isExpression` — the tokens of an expression;
* `Token.callsL` — the calls of a token list;
* `Outline.visitsL_read` — the outline of expression code has the calls of its tokens;
* `CallMatcher.runL_calls` — the call matcher renames the calls that are getters;
* `CallMatcher.renames_expression` — on expressions both rename the same.
-/

namespace GetterRename

/-! ### Expressions -/

namespace Token

def isGetName : Token → Bool
  | ident text _ => (Naming.suffix? text).isSome
  | _ => false

/-- Whether a dot is in its place: a single one in front of a name or a literal, or one of exactly
two, the first of which joins the second. -/
def dotFits (before : List Token) (dot : Token) (after : List Token) : Bool :=
  (dots before == 0 && dots after == 0 && after.head?.any fun t => t.isName || t.isLiteral) ||
  (dots before == 0 && dots after == 1 && dot.isJoint) ||
  (dots before == 1 && dots after == 0 && before.head?.any isJoint)

/-- Whether a token belongs to an expression: code without documentation, with every dot in its
place and every getter called. -/
def isExpression (before : List Token) (t : Token) (after : List Token) : Bool :=
  !t.isDoc && !t.isPunct '#' && !t.isItemWord && !t.startsFish after && !t.startsMacro after &&
    (!t.isPunct '.' || dotFits before t after) &&
    (!t.isGetName || after.head?.any (·.isGroupOf .paren))

/-- In an expression adjacent dots are joined. -/
theorem isCode_of_isExpression {before after : List Token} {t : Token}
    (h : isExpression before t after = true) : isCode before t after = true := by
  simp only [isExpression, Bool.and_eq_true] at h
  obtain ⟨⟨⟨⟨⟨⟨-, hhash⟩, hitem⟩, hfish⟩, hmacro⟩, hdot⟩, -⟩ := h
  simp only [isCode, hhash, hitem, hfish, hmacro, Bool.and_self, Bool.true_and]
  by_cases hd : t.isPunct '.' = true ∧ after.head?.any (·.isPunct '.') = true
  · have hfits : dotFits before t after = true := by simpa [hd.1] using hdot
    have hafter : dots after ≠ 0 := by
      obtain ⟨u, us, rfl⟩ : ∃ u us, after = u :: us := by
        cases after with
        | nil => simp at hd
        | cons u us => exact ⟨u, us, rfl⟩
      rw [dots_cons, if_pos (by simpa using hd.2)]
      omega
    have hjoint : t.isJoint = true := by
      simp only [dotFits, Bool.or_eq_true, Bool.and_eq_true, beq_iff_eq] at hfits
      rcases hfits with (⟨⟨-, h0⟩, -⟩ | ⟨-, hj⟩) | ⟨⟨-, h0⟩, -⟩
      · exact absurd h0 hafter
      · exact hj
      · exact absurd h0 hafter
    simp [hjoint]
  · rw [not_and, Bool.not_eq_true] at hd
    cases hp : t.isPunct '.' with
    | false => simp
    | true => simp [hd hp]

end Token

/-! ### Visits without scopes -/

namespace Node

def Head.visit? (scope : Scope) : Head → Option Visit
  | doc line => some (.doc line)
  | macroUse use => some (.template ⟨.macroBody, use.name, []⟩ use.tokens)
  | construct head => head.visit? scope

/-- Whether a node has no scope of its own: a line of documentation or a call. -/
def Head.isPlain : Head → Bool
  | doc _ | construct (.methodCall _) | construct (.call _) => true
  | _ => false

mutual

theorem visits_of_isPlain {scope : Scope} {isItem : Bool} : ∀ {n : Node},
    (∀ head ∈ heads n, head.isPlain = true) →
      visits scope isItem n = (heads n).filterMap (Head.visit? scope)
  | .doc line, _ => rfl
  | .macroUse use, _ => rfl
  | .construct head inside, h => by
    obtain ⟨hhead, hinside⟩ := List.forall_mem_cons.1 h
    have hscope : head.scopeInside scope isItem = scope := by
      cases head <;> simp_all [Head.isPlain, Construct.scopeInside]
    rw [visits, heads, hscope, visitsL_of_isPlain hinside, List.filterMap_cons]
    cases hvisit : head.visit? scope <;> simp [Head.visit?, hvisit]

/-- The visits of nodes without scopes of their own. -/
theorem visitsL_of_isPlain {scope : Scope} {isItem : Bool} : ∀ {ns : List Node},
    (∀ head ∈ headsL ns, head.isPlain = true) →
      visitsL scope isItem ns = (headsL ns).filterMap (Head.visit? scope)
  | [], _ => rfl
  | n :: ns, h => by
    obtain ⟨hn, hns⟩ := List.forall_mem_append.1 h
    rw [visitsL, headsL, List.filterMap_append, visits_of_isPlain hn, visitsL_of_isPlain hns]

end

end Node

/-! ### The calls of a token list -/

namespace Token

/-- What a token is a visit of by itself: an identifier in front of parentheses is a call, a line of
documentation is one. -/
def visit? (scope : Scope) (before : List Token) : Token → List Token → Option Visit
  | ident text p, .group .paren args _ :: _ =>
    let site : CallSite := ⟨⟨text, p⟩, false, !args.isEmpty⟩
    if dots before = 1 then some (.methodCall scope site)
    else if Outline.keywords.contains text then none
    else some (.call scope site)
  | doc text p, _ => some (.doc ⟨text, p.line⟩)
  | _, _ => none

mutual

def calls (scope : Scope) : Token → List Visit
  | group _ tokens _ => callsL scope [] tokens
  | _ => []

/-- The calls and the lines of documentation of a token list behind the tokens `before`, the latest
of these first. A call comes before what is in its arguments. -/
def callsL (scope : Scope) (before : List Token) : List Token → List Visit
  | [] => []
  | t :: ts => (visit? scope before t ts).toList ++ calls scope t ++ callsL scope (t :: before) ts

end

theorem callsL_cons (scope : Scope) (before : List Token) (t : Token) (ts : List Token) :
    callsL scope before (t :: ts) =
      (visit? scope before t ts).toList ++ calls scope t ++ callsL scope (t :: before) ts := rfl

theorem calls_group (scope : Scope) (d : Delimiter) (tokens : List Token) (p : Pos) :
    calls scope (group d tokens p) = callsL scope [] tokens := by
  simp [calls]

theorem callsL_group (scope : Scope) (before : List Token) (d : Delimiter) (inner : List Token)
    (p : Pos) (ts : List Token) :
    callsL scope before (.group d inner p :: ts) =
      callsL scope [] inner ++ callsL scope (.group d inner p :: before) ts := by
  rw [callsL_cons, calls_group]
  rfl

theorem visit?_eq (scope : Scope) (before : List Token) (t : Token) (after : List Token) :
    visit? scope before t after = (head? before t after).bind (Node.Head.visit? scope) := by
  unfold visit? head?
  split
  · by_cases hdots : dots before = 1
    · simp only [if_pos hdots]
      rfl
    · simp only [if_neg hdots]
      split <;> rfl
  · rfl
  · simp_all

theorem visit?_plain {scope : Scope} {before ts : List Token} {text : Bytes} {p : Pos}
    (h : ts.head?.any (·.isGroupOf .paren) = false) :
    visit? scope before (.ident text p) ts = none := by
  rw [visit?_eq, head?_plain h]
  rfl

theorem visit?_applied (scope : Scope) (before : List Token) (text : Bytes) (p : Pos)
    (args : List Token) (q : Pos) (ts : List Token) :
    visit? scope before (.ident text p) (.group .paren args q :: ts) =
      if dots before = 1 then some (.methodCall scope ⟨⟨text, p⟩, false, !args.isEmpty⟩)
      else if Outline.keywords.contains text then none
      else some (.call scope ⟨⟨text, p⟩, false, !args.isEmpty⟩) := rfl

theorem callsL_eq (scope : Scope) (before ts : List Token) :
    callsL scope before ts = (headsL before ts).filterMap (Node.Head.visit? scope) := by
  induction ts using inductionL generalizing before with
  | nil => rfl
  | leaf t ts ht ih =>
    have hcalls : calls scope t = [] := by
      cases t with
      | group d inner p => simp [isGroup] at ht
      | _ => rfl
    rw [callsL_cons, headsL_leaf ht, List.filterMap_append, ih, hcalls, visit?_eq]
    cases head? before t ts with
    | none => rfl
    | some head => cases hvisit : head.visit? scope <;> simp [hvisit]
  | group d inner p ts ihInner ih =>
    rw [callsL_group, headsL_group, List.filterMap_append, ihInner, ih]

theorem isPlain_of_mem_headsL {before ts : List Token} {head : Node.Head}
    (h : head ∈ headsL before ts) : head.isPlain = true := by
  obtain ⟨x, -, hx⟩ := List.mem_filterMap.1 h
  unfold head? at hx
  grind [Node.Head.isPlain]

end Token

theorem Outline.visitsL_read {scope : Scope} {before ts : List Token}
    (hcode : Token.everyL Token.isCode before ts = true) (hbound : Boundary before ts)
    (isItem : Bool) :
    Node.visitsL scope isItem (read ts) = Token.callsL scope before ts := by
  have hheads := headsL_read hcode hbound
  rw [Node.visitsL_of_isPlain, hheads, Token.callsL_eq]
  rw [hheads]
  exact fun head h => Token.isPlain_of_mem_headsL h

/-! ### The call matcher on expressions -/

namespace CallMatcher

open Finding (renames)
open Token (everyL isExpression callsL dots)

variable {ctx : Context} {scope : Scope}

/-- What the tokens before, the latest first, may be part of in an expression. -/
def behind (before : List Token) : State := if dots before = 1 then .dot else .idle

/-- The tokens go on behind a dot. -/
def GoesOn (before ts : List Token) : Prop :=
  dots before = 1 →
    ts.head?.any (fun t => t.isName || t.isLiteral || t.isPunct '.') = true

theorem GoesOn.of_cons {before ts : List Token} {t : Token} (h : t.isPunct '.' = false) :
    GoesOn (t :: before) ts := by
  intro hdots
  rw [Token.dots_cons, if_neg (by simp [h])] at hdots
  omega

theorem behind_cons {before : List Token} {t : Token} (h : t.isPunct '.' = false) :
    behind (t :: before) = .idle := by
  have hdots : dots (t :: before) = 0 := by rw [Token.dots_cons, if_neg (by simp [h])]
  simp [behind, hdots]

/-- In front of anything but a name, a literal or a dot the matcher is idle. -/
theorem GoesOn.idle {before ts : List Token} {t : Token} (h : GoesOn before (t :: ts))
    (ht : (t.isName || t.isLiteral || t.isPunct '.') = false) : behind before = .idle := by
  unfold behind
  split
  · rename_i hdots
    have := h hdots
    simp [ht] at this
  · rfl

theorem runL_cons (state : State) (t : Token) (ts : List Token) :
    runL ctx scope state (t :: ts) =
      ((runL ctx scope (run ctx scope state t).1 ts).1,
        (run ctx scope state t).2 ++ (runL ctx scope (run ctx scope state t).1 ts).2) := rfl

theorem punct_dot {before after : List Token} {joint : Bool} {p : Pos}
    (h : Token.dotFits before (.punct (byte '.') joint p) after = true) :
    punct (byte '.') (behind before) = behind (.punct (byte '.') joint p :: before) ∧
      GoesOn (.punct (byte '.') joint p :: before) after := by
  have hhead : ∀ q : Token → Bool, after.head?.any q = true →
      (∀ t, q t = true → (t.isName || t.isLiteral || t.isPunct '.') = true) →
      after.head?.any (fun t => t.isName || t.isLiteral || t.isPunct '.') = true := by
    intro q hq himp
    cases after with
    | nil => simp at hq
    | cons t ts => exact himp t hq
  simp only [behind, GoesOn, Token.dots_dot]
  simp only [Token.dotFits, Bool.or_eq_true, Bool.and_eq_true, beq_iff_eq] at h
  rcases h with (⟨⟨hbefore, -⟩, hnext⟩ | ⟨⟨hbefore, hafter⟩, -⟩) | ⟨⟨hbefore, -⟩, -⟩
  · rw [hbefore]
    exact ⟨by decide, fun _ => hhead _ hnext fun t ht => by simp [ht]⟩
  · rw [hbefore]
    refine ⟨by decide, fun _ => hhead (·.isPunct '.') ?_ fun t ht => by simp [ht]⟩
    by_contra hno
    rw [Token.dots_eq_zero (by simpa using hno)] at hafter
    omega
  · rw [hbefore]
    exact ⟨by decide, by omega⟩

theorem behind_eq (before : List Token) : behind before = .dot ∨ behind before = .idle := by
  unfold behind
  split
  · exact .inl rfl
  · exact .inr rfl

/-- A name that does not start with `get_` is nothing to the matcher. -/
theorem run_other (ctx : Context) (scope : Scope) (before : List Token) {text : Bytes} (p : Pos)
    (hsuffix : Naming.suffix? text = none) (hfn : text ≠ Bytes.ofString "fn") :
    (run ctx scope (behind before) (.ident text p)).1 = .idle ∧
      renames (run ctx scope (behind before) (.ident text p)).2 = [] := by
  have hcand : ∀ isMethod, ctx.candidate? ⟨text, p⟩ .maybe isMethod = none := by
    simp [Context.candidate?, hsuffix]
  rcases behind_eq before with h | h <;>
    simp [h, run, ident, hfn, start, hcand, Context.notAnAccessor, Context.skipNote]

theorem visit_other {before ts : List Token} {text : Bytes} {p : Pos}
    (hsuffix : Naming.suffix? text = none) (block : Option DocCode.Block) :
    renames (Analysis.visitAll ctx block
      (Token.visit? scope before (.ident text p) ts).toList) = [] := by
  have hcand : ∀ isMethod, ctx.candidate? ⟨text, p⟩ .maybe isMethod = none := by
    simp [Context.candidate?, hsuffix]
  have hmethod : ∀ args : List Token,
      renames (Analysis.methodCall ctx scope ⟨⟨text, p⟩, false, !args.isEmpty⟩) = [] := by
    simp [Analysis.methodCall, hcand, Context.notAnAccessor, Context.skipNote]
  have hcall : ∀ args : List Token,
      renames (Analysis.call ctx scope ⟨⟨text, p⟩, false, !args.isEmpty⟩) = [] := by
    simp [Analysis.call, hcand, Context.notAnAccessor, Context.skipNote]
  by_cases hplain : ts.head?.any (·.isGroupOf .paren) = false
  · rw [Token.visit?_plain hplain]
    rfl
  obtain ⟨args, q, after, rfl⟩ : ∃ args q after, ts = .group .paren args q :: after := by
    by_contra hno
    exact hplain (Token.head?_not_paren fun args q after h => hno ⟨args, q, after, h⟩)
  rw [Token.visit?_applied]
  split
  · simp only [Option.toList_some, Analysis.visitAll, Analysis.visit, List.append_nil]
    split
    · exact hmethod args
    · rfl
  split
  · rfl
  · simp only [Option.toList_some, Analysis.visitAll, Analysis.visit, List.append_nil]
    split
    · exact hcall args
    · rfl

theorem not_keyword {text suffix : Bytes} (h : Naming.suffix? text = some suffix) :
    Outline.keywords.contains text = false := by
  have hnone : ∀ word ∈ Outline.keywords, Naming.suffix? word = none := by decide
  by_contra hmem
  have := hnone text (by simpa using hmem)
  simp [h] at this

theorem runL_getter {vscope : Scope} {before args after : List Token} {text suffix : Bytes}
    {p q : Pos} (htool : ctx.tool = .calls) (hsuffix : Naming.suffix? text = some suffix)
    (block : Option DocCode.Block) :
    ∃ found,
      runL ctx scope (behind before) (.ident text p :: .group .paren args q :: after) =
        ((runL ctx scope .idle (.group .paren args q :: after)).1,
          found ++ (runL ctx scope .idle (.group .paren args q :: after)).2) ∧
      (renames found).map Rename.unscoped =
        (renames (Analysis.visitAll ctx block
          (Token.visit? vscope before (.ident text p) (.group .paren args q :: after)).toList)).map
          Rename.unscoped := by
  have hkeyword := not_keyword hsuffix
  have hfn : text ≠ Bytes.ofString "fn" := by
    rintro rfl
    exact absurd hkeyword (by decide)
  have halias : ctx.needsDocAlias scope = ctx.needsDocAlias vscope := by
    simp [Context.needsDocAlias, htool]
  let cand (isMethod : Bool) : Candidate :=
    { name := text, suffix, line := ctx.view.line p, column := ctx.view.column p,
      returnsBool := .maybe, isMethod }
  have hcand : ∀ isMethod, ctx.candidate? ⟨text, p⟩ .maybe isMethod = some (cand isMethod) := by
    simp [Context.candidate?, hsuffix, cand]
  let called (isMethod : Bool) : Candidate := { cand isMethod with hasMultipleArgs := !args.isEmpty }
  by_cases hdots : dots before = 1
  · refine ⟨[ctx.judge scope (called true) (called true).streamObjection], ?_, ?_⟩
    · simp [runL_cons, run, ident, hfn, behind, hdots, start, hcand, group, called, cand]
    rw [Token.visit?_applied, if_pos hdots]
    simp only [Option.toList_some, Analysis.visitAll, Analysis.visit, htool, if_true,
      Analysis.methodCall, hcand, List.append_nil]
    refine Finding.unscoped_judge ⟨rfl, rfl, rfl, rfl⟩ rfl rfl halias ?_
    cases hargs : args.isEmpty <;> simp [Candidate.streamObjection, called, cand, hargs]
  · refine ⟨[ctx.judge scope (called false) (called false).streamObjection], ?_, ?_⟩
    · simp [runL_cons, run, ident, hfn, behind, hdots, start, hcand, group, called, cand]
    rw [Token.visit?_applied, if_neg hdots, hkeyword]
    simp only [Bool.false_eq_true, if_false, Option.toList_some, Analysis.visitAll, Analysis.visit,
      htool, if_true, Analysis.call, hcand, List.append_nil]
    exact Finding.unscoped_judge ⟨rfl, rfl, rfl, rfl⟩ rfl rfl halias rfl

/-- A name in an expression: the matcher is idle behind it, but for the getter it may be holding. -/
theorem runL_ident (scope vscope : Scope) {before ts : List Token} {text : Bytes} {p : Pos}
    (htool : ctx.tool = .calls) (h : isExpression before (.ident text p) ts = true)
    (block : Option DocCode.Block) :
    ∃ found,
      runL ctx scope (behind before) (.ident text p :: ts) =
        ((runL ctx scope .idle ts).1, found ++ (runL ctx scope .idle ts).2) ∧
      (renames found).map Rename.unscoped =
        (renames (Analysis.visitAll ctx block
          (Token.visit? vscope before (.ident text p) ts).toList)).map Rename.unscoped := by
  simp only [isExpression, Bool.and_eq_true, Bool.not_eq_true', Bool.or_eq_true] at h
  obtain ⟨⟨⟨⟨⟨-, hitem⟩, -⟩, -⟩, -⟩, hget⟩ := h
  cases hsuffix : Naming.suffix? text with
  | none =>
    have hfn : text ≠ Bytes.ofString "fn" := by
      rintro rfl
      exact absurd (show true = false from hitem) nofun
    obtain ⟨hstate, hfound⟩ := run_other ctx scope before p hsuffix hfn
    refine ⟨(run ctx scope (behind before) (.ident text p)).2, ?_, ?_⟩
    · rw [runL_cons, hstate]
    · rw [hfound, visit_other hsuffix]
  | some suffix =>
    obtain ⟨args, q, after, rfl⟩ : ∃ args q after, ts = .group .paren args q :: after := by
      by_contra hno
      have hplain := Token.head?_not_paren fun args q after h => hno ⟨args, q, after, h⟩
      simp [Token.isGetName, hsuffix, hplain] at hget
    exact runL_getter htool hsuffix block

/-- **A run over an expression** leaves the matcher idle, having found the calls of its tokens. -/
theorem runL_calls {vscope : Scope} {before ts : List Token} (htool : ctx.tool = .calls)
    (h : everyL isExpression before ts = true) (hgoes : GoesOn before ts)
    (block : Option DocCode.Block) :
    (runL ctx scope (behind before) ts).1 = .idle ∧
      (renames (runL ctx scope (behind before) ts).2).map Rename.unscoped =
        (renames (Analysis.visitAll ctx block (callsL vscope before ts))).map Rename.unscoped := by
  induction ts using Token.inductionL generalizing before block with
  | nil =>
    refine ⟨?_, rfl⟩
    unfold behind
    split
    · rename_i hdots
      simpa using hgoes hdots
    · rfl
  | leaf t ts ht ih =>
    obtain ⟨hfits, -, hts⟩ := Token.everyL_cons.1 h
    cases t with
    | group d inner p => simp [Token.isGroup] at ht
    | doc text p => simp [isExpression, Token.isDoc] at hfits
    | literal text p =>
      have hbehind : behind (.literal text p :: before) = .idle := behind_cons rfl
      have := ih hts (.of_cons rfl) block
      rwa [hbehind] at this
    | punct c joint p =>
      by_cases hdot : c = byte '.'
      · subst hdot
        simp only [isExpression, Bool.and_eq_true, Bool.or_eq_true, Bool.not_eq_true'] at hfits
        obtain ⟨hstate, hgoes'⟩ := punct_dot (hfits.1.2.resolve_left (by simp [Token.isPunct]))
        have hrest := ih hts hgoes' block
        rwa [← hstate] at hrest
      · have hother : (Token.punct c joint p).isPunct '.' = false := by
          simpa [Token.isPunct] using hdot
        have hidle : behind before = .idle := hgoes.idle (by simpa [Token.isName, Token.isLiteral])
        have hstate : punct c .idle = .idle := by simp [punct, hdot]
        have hrest := ih hts (.of_cons hother) block
        rw [behind_cons hother] at hrest
        rw [hidle, runL_cons, run, hstate]
        exact hrest
    | ident text p =>
      obtain ⟨found, hrun, hfound⟩ := runL_ident scope vscope htool hfits block
      have happend := Analysis.visitAll_append ctx block
        (Token.visit? vscope before (.ident text p) ts).toList
        (callsL vscope (.ident text p :: before) ts)
      obtain ⟨hstate, hmore⟩ := ih hts (.of_cons rfl) (Analysis.blockBehind ctx block _)
      rw [behind_cons rfl] at hstate hmore
      have hcalls : callsL vscope before (.ident text p :: ts) =
          (Token.visit? vscope before (.ident text p) ts).toList ++
            callsL vscope (.ident text p :: before) ts := by
        rw [Token.callsL_cons]
        simp [Token.calls]
      rw [hrun, hcalls, happend]
      simp only [Finding.renames_append, List.map_append]
      exact ⟨hstate, congrArg₂ (· ++ ·) hfound hmore⟩
  | group d inner p ts ihInner ih =>
    obtain ⟨-, hinner, hts⟩ := Token.everyL_cons.1 h
    rw [Token.every_group] at hinner
    obtain ⟨hstate, hfound⟩ := ihInner hinner (fun hdots => by simp [dots] at hdots) block
    have happend := Analysis.visitAll_append ctx block (callsL vscope [] inner)
      (callsL vscope (.group d inner p :: before) ts)
    obtain ⟨hstate', hmore⟩ := ih hts (.of_cons rfl) (Analysis.blockBehind ctx block _)
    have hidle : behind before = .idle := hgoes.idle rfl
    rw [behind_cons rfl] at hstate' hmore
    have hgroup : run ctx scope .idle (.group d inner p) = runL ctx scope .idle inner := by
      cases d <;> simp [run, group]
    rw [hidle, runL_cons, hgroup, Token.callsL_group, happend]
    rw [show behind [] = .idle from rfl] at hstate hfound
    rw [hstate]
    simp only [Finding.renames_append, List.map_append]
    exact ⟨hstate', congrArg₂ (· ++ ·) hfound hmore⟩

/-- **Calls in expressions.** On an expression the call matcher and the outline rename the same
calls in the same order, wherever they think these stand. -/
theorem renames_expression (scope : Scope) {ts : List Token} (htool : ctx.tool = .calls)
    (h : everyL isExpression [] ts = true) :
    (renames (findings ctx scope ts)).map Rename.unscoped =
      (renames (Analysis.findings ctx (Outline.read ts))).map Rename.unscoped := by
  have hcode := Token.everyL_mono (fun _ _ _ => Token.isCode_of_isExpression) h
  have hnothing : GoesOn [] ts := fun hdots => by simp [dots] at hdots
  rw [Analysis.findings, Outline.visitsL_read hcode (.of_dots rfl)]
  exact (runL_calls htool h hnothing none).2

/-- The tokens of the range `0..s.get_x(get_y(1))`. -/
def rangeOfCalls : List Token :=
  [.literal "0" ⟨1, 0⟩, .punct (byte '.') true ⟨1, 1⟩, .punct (byte '.') false ⟨1, 2⟩,
    .ident "s" ⟨1, 3⟩, .punct (byte '.') false ⟨1, 4⟩, .ident "get_x" ⟨1, 5⟩,
    .group .paren
      [.ident "get_y" ⟨1, 11⟩, .group .paren [.literal "1" ⟨1, 17⟩] ⟨1, 16⟩] ⟨1, 10⟩]

theorem renames_expression_rangeOfCalls :
    let ctx : Context := { path := "src/lib.rs", tool := .calls, mode := .allGetFunctions }
    let found := renames (findings ctx ⟨.macroBody, "vec", []⟩ rangeOfCalls)
    found.map Rename.unscoped =
        (renames (Analysis.findings ctx (Outline.read rangeOfCalls))).map Rename.unscoped ∧
      found.map (·.name) = ["get_x", "get_y"] :=
  ⟨renames_expression _ rfl (by decide), by decide⟩

end CallMatcher

end GetterRename
