import GetterRename.Proofs.Getter.Conservative
import GetterRename.Proofs.Source.Construct

/-!
# The shape of conservative getters

In conservative mode a construct of the outline whose new name is not that of a `bool` getter is
renamed only if nothing speaks against its shape.  A function that is no item of an `impl` block or
a trait stands in the scope of a function of its own, and that alone speaks against it; so the scope
a definition is judged in tells where its function stands.

* `Node.Listed`, `Node.Within` — the node lists of an outline with their scopes, and its nodes;
* `Node.exists_of_mem_visitsL` — where a visit comes from;
* `Outline.inner_of_not_hasArgs` — a call without arguments has nothing inside it;
* `Analysis.treeRenames`, `Analysis.mem_treeRenames_iff` — the renames of the constructs themselves;
* `Analysis.shape_of_conservative` — what conservative mode renames.
-/

namespace GetterRename

/-! ### The nodes of an outline -/

/-- A list of nodes in an outline, with the scope it stands in and whether its members are the items
of a block. -/
inductive Node.Listed (nodes : List Node) : List Node → Scope → Bool → Prop
  | outline : Listed nodes nodes .file false
  | inside {siblings inner : List Node} {scope : Scope} {isItem : Bool} {head : Construct}
      (h : Listed nodes siblings scope isItem) (hhead : .construct head inner ∈ siblings) :
      Listed nodes inner (head.scopeInside scope isItem) head.holdsItems

/-- The node stands in the outline, at some depth. -/
def Node.Within (n : Node) (nodes : List Node) : Prop :=
  ∃ siblings scope isItem, Node.Listed nodes siblings scope isItem ∧ n ∈ siblings

/-- The function with this signature is an item of a block in the outline: it stands directly in an
`impl` block or in a trait. -/
def Signature.IsItemOf (sig : Signature) (nodes : List Node) : Prop :=
  ∃ head items body, Node.Within (.construct head items) nodes ∧ head.holdsItems = true ∧
    .construct (.fn sig) body ∈ items

namespace Node

def visit? (scope : Scope) (isItem : Bool) : Node → Option Visit
  | doc line => some (.doc line)
  | macroUse use => some (.template ⟨.macroBody, use.name, []⟩ use.tokens)
  | construct head _ => head.visit? (head.scopeInside scope isItem)

mutual

theorem exists_of_mem_visits {nodes siblings : List Node} {scope : Scope} {isItem : Bool}
    (hlist : Listed nodes siblings scope isItem) {v : Visit} :
    ∀ n : Node, n ∈ siblings → v ∈ visits scope isItem n →
      ∃ siblings scope isItem, Listed nodes siblings scope isItem ∧
        ∃ n ∈ siblings, n.visit? scope isItem = some v
  | doc line, hn, h => by
    rw [visits, List.mem_singleton] at h
    exact ⟨siblings, scope, isItem, hlist, _, hn, congrArg some h.symm⟩
  | macroUse use, hn, h => by
    rw [visits, List.mem_singleton] at h
    exact ⟨siblings, scope, isItem, hlist, _, hn, congrArg some h.symm⟩
  | construct head inner, hn, h => by
    rw [visits, List.mem_append] at h
    rcases h with hself | hinner
    · exact ⟨siblings, scope, isItem, hlist, _, hn, Option.mem_toList.1 hself⟩
    · exact exists_of_mem_visitsL (.inside hlist hn) inner (List.Subset.refl _) hinner

theorem exists_of_mem_visitsL {nodes siblings : List Node} {scope : Scope} {isItem : Bool}
    (hlist : Listed nodes siblings scope isItem) {v : Visit} :
    ∀ ns : List Node, ns ⊆ siblings → v ∈ visitsL scope isItem ns →
      ∃ siblings scope isItem, Listed nodes siblings scope isItem ∧
        ∃ n ∈ siblings, n.visit? scope isItem = some v
  | [], _, h => by simp [visitsL] at h
  | n :: ns, hsub, h => by
    obtain ⟨hn, hns⟩ := List.cons_subset.1 hsub
    rw [visitsL, List.mem_append] at h
    rcases h with hhead | hrest
    · exact exists_of_mem_visits hlist n hn hhead
    · exact exists_of_mem_visitsL hlist ns hns hrest

end

/-- A definition whose scope decides about aliases is that of an item. -/
theorem isItemOf_of_mem_visitsL {nodes : List Node} {scope : Scope} {sig : Signature}
    (h : .definition scope sig ∈ visitsL .file false nodes)
    (hscope : scope.needsDocAlias?.isNone = false) : sig.IsItemOf nodes := by
  obtain ⟨siblings, outer, isItem, hlist, n, hn, hvisit⟩ :=
    exists_of_mem_visitsL .outline nodes (List.Subset.refl _) h
  cases n with
  | doc line => simp [visit?] at hvisit
  | macroUse use => simp [visit?] at hvisit
  | construct head body =>
    cases head with
    | fn sig' =>
      obtain ⟨hscope', rfl⟩ : (Construct.fn sig').scopeInside outer isItem = scope ∧ sig' = sig := by
        simpa [visit?, Construct.visit?] using hvisit
      cases isItem with
      | false =>
        -- a function that is no item has a scope of its own
        rw [← hscope'] at hscope
        exact absurd hscope (by simp [Construct.scopeInside, Scope.needsDocAlias?])
      | true =>
        generalize hitems : true = isItem at hlist
        cases hlist with
        | outline => cases hitems
        | inside hlist hhead => exact ⟨_, siblings, body, ⟨_, _, _, hlist, hhead⟩, hitems.symm, hn⟩
    | _ => simp [visit?, Construct.visit?] at hvisit

/-- A method call that is visited stands in the outline. -/
theorem within_of_mem_visitsL {nodes : List Node} {scope : Scope} {c : CallSite}
    (h : .methodCall scope c ∈ visitsL .file false nodes) :
    ∃ args, Within (.construct (.methodCall c) args) nodes := by
  obtain ⟨siblings, outer, isItem, hlist, n, hn, hvisit⟩ :=
    exists_of_mem_visitsL .outline nodes (List.Subset.refl _) h
  cases n with
  | doc line => simp [visit?] at hvisit
  | macroUse use => simp [visit?] at hvisit
  | construct head args =>
    cases head with
    | methodCall c' =>
      obtain ⟨-, rfl⟩ : (Construct.methodCall c').scopeInside outer isItem = scope ∧ c' = c := by
        simpa [visit?, Construct.visit?] using hvisit
      exact ⟨args, siblings, outer, isItem, hlist, hn⟩
    | _ => simp [visit?, Construct.visit?] at hvisit

end Node

/-! ### The constructs of a source -/

namespace Outline

/-- All the node lists of an outline were read from tokens. -/
theorem exists_read_of_listed {tokens : List Token} {siblings : List Node} {scope : Scope}
    {isItem : Bool} (h : Node.Listed (read tokens) siblings scope isItem) :
    ∃ tokens', siblings = read tokens' := by
  induction h with
  | outline => exact ⟨tokens, rfl⟩
  | inside _ hhead ih =>
    obtain ⟨tokens', rfl⟩ := ih
    obtain ⟨inside, hinner, -⟩ := construct_of_mem_read tokens' hhead
    exact ⟨inside, hinner⟩

theorem inner_of_not_hasArgs {tokens : List Token} {c : CallSite} {args : List Node}
    (h : Node.Within (.construct (.methodCall c) args) (read tokens)) (hargs : c.hasArgs = false) :
    args = [] := by
  obtain ⟨siblings, scope, isItem, hlist, hmem⟩ := h
  obtain ⟨tokens', rfl⟩ := exists_read_of_listed hlist
  obtain ⟨inside, rfl, hfaithful⟩ := construct_of_mem_read tokens' hmem
  have hinside : inside = [] := by simpa [Step.IsFaithful, hargs] using hfaithful
  rw [hinside, read]

end Outline

/-! ### The renames of constructs -/

namespace Visit

/-- Whether the visit is that of a construct: code in macros and documentation is none. -/
def isConstruct : Visit → Bool
  | definition _ _ | methodCall _ _ | call _ _ => true
  | doc _ | template _ _ => false

def scope : Visit → Scope
  | doc _ => ⟨.documentation, [], []⟩
  | definition scope _ | template scope _ | methodCall scope _ | call scope _ => scope

end Visit

namespace Node

theorem Listed.kind_ne {nodes siblings : List Node} {scope : Scope} {isItem : Bool}
    (h : Listed nodes siblings scope isItem) :
    scope.kind ≠ .macroBody ∧ scope.kind ≠ .documentation := by
  induction h with
  | outline => exact ⟨nofun, nofun⟩
  | @inside siblings inner scope isItem head h hhead ih =>
    cases head with
    | impl trait type => cases trait <;> exact ⟨nofun, nofun⟩
    | trait name | module name => exact ⟨nofun, nofun⟩
    | methodCall c | call c => exact ih
    | fn sig =>
      cases isItem with
      | true => exact ih
      | false => exact ⟨nofun, nofun⟩
    | const name isStatic =>
      cases isItem with
      | true => exact ih
      | false => cases isStatic <;> exact ⟨nofun, nofun⟩

theorem isConstruct_iff {nodes : List Node} {v : Visit} (h : v ∈ visitsL .file false nodes) :
    v.isConstruct = true ↔ v.scope.kind ≠ .macroBody ∧ v.scope.kind ≠ .documentation := by
  obtain ⟨siblings, scope, isItem, hlist, n, hn, hvisit⟩ :=
    exists_of_mem_visitsL .outline nodes (List.Subset.refl _) h
  cases n with
  | doc line =>
    obtain rfl := Option.some.inj hvisit
    simp [Visit.isConstruct, Visit.scope]
  | macroUse use =>
    obtain rfl := Option.some.inj hvisit
    simp [Visit.isConstruct, Visit.scope]
  | construct head inner =>
    have hkind := (hlist.inside hn).kind_ne
    cases head with
    | fn _ | methodCall _ | call _ =>
      obtain rfl := Option.some.inj hvisit
      exact ⟨fun _ => hkind, fun _ => rfl⟩
    | _ => cases hvisit

end Node

/-- A candidate is renamed in the scope in which it is judged. -/
theorem Finding.scope_of_judge {ctx : Context} {scope : Scope} {cand : Candidate}
    {objection : Option Reason} {r : Rename}
    (h : r ∈ renames [ctx.judge scope cand objection]) : r.scope = scope := by
  unfold Context.judge at h
  split at h
  · exact nomatch h
  split at h
  · exact nomatch h
  · obtain rfl : r = _ := List.mem_singleton.1 h
    unfold View.adopt
    split <;> rfl

theorem scope_of_streamFindings {ctx : Context} {scope : Scope} {tokens : List Token} :
    ∀ r ∈ Finding.renames (streamFindings ctx scope tokens), r.scope = scope := by
  have hscope : ctx.Compares (fun found _ => ∀ r ∈ found, r.scope = scope) ctx scope :=
    { tool := rfl
      view := rfl
      nil := fun _ h => absurd h List.not_mem_nil
      append := fun h h' => List.forall_mem_append.2 ⟨h, h'⟩
      judge := fun _ _ _ _ => Finding.scope_of_judge }
  exact renames_streamFindings hscope tokens

namespace Analysis

theorem scope_of_visit {ctx : Context} {block : Option DocCode.Block} {v : Visit} {r : Rename}
    (h : r ∈ Finding.renames (visit ctx block v).2) : r.scope = v.scope := by
  cases v with
  | doc line =>
    unfold visit DocCode.line at h
    simp only at h
    split at h
    · exact nomatch h
    · simp only at h
      split at h
      · unfold DocCode.Block.findings at h
        split at h
        · exact nomatch h
        · exact scope_of_streamFindings r h
      · exact nomatch h
    · exact nomatch h
    · exact nomatch h
  | template scope tokens => exact scope_of_streamFindings r h
  | definition scope sig =>
    simp only [visit, definition] at h
    repeat' split at h
    all_goals first | contradiction | exact Finding.scope_of_judge h
  | methodCall scope c =>
    simp only [visit, methodCall] at h
    repeat' split at h
    all_goals first | contradiction | exact Finding.scope_of_judge h
  | call scope c =>
    simp only [visit, call] at h
    repeat' split at h
    all_goals first | contradiction | exact Finding.scope_of_judge h

/-- Only documentation lines look at the documentation block. -/
theorem visit_of_isConstruct {ctx : Context} {v : Visit} (h : v.isConstruct = true)
    (block block' : Option DocCode.Block) : (visit ctx block v).2 = (visit ctx block' v).2 := by
  cases v with
  | doc line => exact nomatch h
  | _ => rfl

theorem exists_of_mem_visitAll {ctx : Context} {block : Option DocCode.Block} {vs : List Visit}
    {r : Rename} (h : r ∈ Finding.renames (visitAll ctx block vs)) :
    ∃ v ∈ vs, ∃ block, r ∈ Finding.renames (visit ctx block v).2 := by
  induction vs generalizing block with
  | nil => exact nomatch h
  | cons v vs ih =>
    simp only [visitAll, Finding.renames_append, List.mem_append] at h
    rcases h with h | h
    · exact ⟨v, List.mem_cons_self, block, h⟩
    · obtain ⟨w, hw, hfound⟩ := ih h
      exact ⟨w, List.mem_cons_of_mem _ hw, hfound⟩

theorem mem_visitAll {ctx : Context} {block : Option DocCode.Block} {vs : List Visit} {v : Visit}
    {r : Rename} (hv : v ∈ vs) (hself : v.isConstruct = true)
    (hr : r ∈ Finding.renames (visit ctx none v).2) :
    r ∈ Finding.renames (visitAll ctx block vs) := by
  induction vs generalizing block with
  | nil => exact nomatch hv
  | cons w vs ih =>
    simp only [visitAll, Finding.renames_append, List.mem_append]
    rcases List.mem_cons.1 hv with rfl | hv
    · exact .inl (by rwa [visit_of_isConstruct hself block none])
    · exact .inr (ih hv)

/-- The renames of the constructs of an outline themselves: those found neither in the tokens of a
macro nor in documentation. -/
def treeRenames (ctx : Context) (nodes : List Node) : List Rename :=
  ((Node.visitsL .file false nodes).filter Visit.isConstruct).flatMap fun v =>
    Finding.renames (visit ctx none v).2

/-- The renames of constructs are those whose scope is neither a macro nor documentation. -/
theorem mem_treeRenames_iff {ctx : Context} {nodes : List Node} {r : Rename} :
    r ∈ treeRenames ctx nodes ↔ r ∈ Finding.renames (findings ctx nodes) ∧
      r.scope.kind ≠ .macroBody ∧ r.scope.kind ≠ .documentation := by
  simp only [treeRenames, List.mem_flatMap, List.mem_filter]
  constructor
  · rintro ⟨v, ⟨hv, hself⟩, hr⟩
    rw [scope_of_visit hr]
    exact ⟨mem_visitAll hv hself hr, (Node.isConstruct_iff hv).1 hself⟩
  · rintro ⟨hr, hkind⟩
    obtain ⟨v, hv, block, hfound⟩ := exists_of_mem_visitAll hr
    rw [scope_of_visit hfound] at hkind
    have hself := (Node.isConstruct_iff hv).2 hkind
    exact ⟨v, ⟨hv, hself⟩, by rwa [visit_of_isConstruct hself none block]⟩

end Analysis

/-! ### Conservative mode -/

theorem Candidate.signatureObjection_eq_none_iff (cand : Candidate) :
    cand.signatureObjection = none ↔ cand.hasGenericParams = false ∧
      cand.hasMultipleArgs = false ∧ cand.hasNoArgs = false ∧ cand.isMethod = true := by
  unfold signatureObjection
  cases cand.hasGenericParams <;> cases cand.hasMultipleArgs <;> cases cand.hasNoArgs <;>
    cases cand.isMethod <;> decide

namespace Analysis

/-- In conservative mode no objection stands against a rename that is not that of a `bool` getter. -/
theorem of_judge_conservative {path : Bytes} {tool : Tool} {scope : Scope} {cand : Candidate}
    {id : Ident} {objection : Option Reason} {r : Rename}
    (hcand : cand.Of { path, tool, mode := .conservative } id)
    (hr : r ∈ Finding.renames
      [Context.judge { path, tool, mode := .conservative } scope cand objection])
    (hbool : r.newName.returnsBool ≠ .yes) :
    r.Renames { path, tool, mode := .conservative } id ∧ objection = none := by
  rcases Finding.renames_judge hcand scope objection with hnone | ⟨r', hone, hren, -, hshape⟩
  · rw [hnone] at hr
    exact nomatch hr
  · rw [hone] at hr
    obtain rfl := List.mem_singleton.1 hr
    exact ⟨hren, (hshape rfl).resolve_left hbool⟩

/-- A definition renamed in conservative mode has one input, a receiver, and no type parameters, and
stands in a scope that decides about aliases. -/
theorem definition_conservative {path : Bytes} {tool : Tool} {scope : Scope} {sig : Signature}
    {r : Rename}
    (hr : r ∈ Finding.renames (definition { path, tool, mode := .conservative } scope sig))
    (hbool : r.newName.returnsBool ≠ .yes) :
    r.Renames { path, tool, mode := .conservative } sig.name ∧
      scope.needsDocAlias?.isNone = false ∧
      (∃ input, sig.inputs = [input] ∧ Signature.isReceiver input = true) ∧
      ∀ param ∈ sig.generics, Signature.isLifetime param = true := by
  unfold definition at hr
  split at hr
  · exact nomatch hr
  rename_i cand hcand
  have hmethod : cand.isMethod = sig.isMethod := by
    obtain ⟨suffix, -, rfl⟩ := Option.map_eq_some_iff.1 hcand
    rfl
  obtain ⟨hren, hobjection⟩ := of_judge_conservative
    ((Context.of_candidate? hcand).of_same ⟨rfl, rfl, rfl, rfl⟩) hr hbool
  split at hobjection
  · exact nomatch hobjection
  rename_i hscope
  obtain ⟨hgenerics, hmany, hsome, hself⟩ :=
    (Candidate.signatureObjection_eq_none_iff _).1 hobjection
  rw [hmethod] at hself
  refine ⟨hren, Bool.eq_false_iff.2 hscope, ?_, ?_⟩
  · obtain ⟨input, hinput⟩ : ∃ input, sig.inputs = [input] := by
      rw [← List.length_eq_one_iff]
      have hpos : 0 < sig.inputs.length := List.length_pos_iff.2 (by simpa using hsome)
      have hle := of_decide_eq_false hmany
      omega
    refine ⟨input, hinput, ?_⟩
    simpa [Signature.isMethod, hinput] using hself
  · intro param hparam
    have hlifetime := List.any_eq_false.1 hgenerics param hparam
    simpa using hlifetime

/-- A method call renamed in conservative mode has neither explicit generic arguments nor others. -/
theorem methodCall_conservative {path : Bytes} {tool : Tool} {scope : Scope} {c : CallSite}
    {r : Rename}
    (hr : r ∈ Finding.renames (methodCall { path, tool, mode := .conservative } scope c))
    (hbool : r.newName.returnsBool ≠ .yes) :
    r.Renames { path, tool, mode := .conservative } c.name ∧ c.turbofish = false ∧
      c.hasArgs = false := by
  unfold methodCall at hr
  split at hr
  · exact nomatch hr
  rename_i cand hcand
  obtain ⟨hren, hobjection⟩ := of_judge_conservative (Context.of_candidate? hcand) hr hbool
  split at hobjection
  · exact nomatch hobjection
  rename_i hfish
  split at hobjection
  · exact nomatch hobjection
  rename_i hargs
  exact ⟨hren, Bool.eq_false_iff.2 hfish, Bool.eq_false_iff.2 hargs⟩

/-- **The shape of conservative getters.**  A construct of a source that conservative mode renames,
and not to a `bool` getter, is a function standing directly in an `impl` block or a trait whose one
input is a receiver and whose generic parameters are lifetimes, or it is a method call with neither
explicit generic arguments nor others. -/
theorem shape_of_conservative {src path : Bytes} {tool : Tool} {nodes : List Node} {r : Rename}
    (hsource : Outline.ofSource src = .ok nodes)
    (hr : r ∈ treeRenames { path, tool, mode := .conservative } nodes)
    (hbool : r.newName.returnsBool ≠ .yes) :
    (tool = .definitions → ∃ sig : Signature, sig.IsItemOf nodes ∧
      r.Renames { path, tool, mode := .conservative } sig.name ∧
      (∃ input, sig.inputs = [input] ∧ Signature.isReceiver input = true) ∧
      ∀ param ∈ sig.generics, Signature.isLifetime param = true) ∧
    (tool = .calls → ∃ c : CallSite, Node.Within (.construct (.methodCall c) []) nodes ∧
      r.Renames { path, tool, mode := .conservative } c.name ∧
      c.turbofish = false ∧ c.hasArgs = false) := by
  obtain ⟨v, hv, hfound⟩ := List.mem_flatMap.1 hr
  obtain ⟨hv, hself⟩ := List.mem_filter.1 hv
  cases v with
  | doc _ | template _ _ => cases hself
  | definition scope sig =>
    cases tool with
    | calls => exact absurd hfound List.not_mem_nil
    | definitions =>
      obtain ⟨hren, hscope, hinputs, hgenerics⟩ := definition_conservative hfound hbool
      have hitem := Node.isItemOf_of_mem_visitsL hv hscope
      exact ⟨fun _ => ⟨sig, hitem, hren, hinputs, hgenerics⟩, by simp⟩
  | methodCall scope c =>
    cases tool with
    | definitions => exact absurd hfound List.not_mem_nil
    | calls =>
      obtain ⟨hren, hfish, hargs⟩ := methodCall_conservative hfound hbool
      obtain ⟨args, hwithin⟩ := Node.within_of_mem_visitsL hv
      obtain ⟨toks, -, rfl⟩ : ∃ toks, Token.lex src = .ok toks ∧ Outline.read toks = nodes := by
        cases hlex : Token.lex src with
        | error e =>
          rw [Outline.ofSource, hlex] at hsource
          cases hsource
        | ok toks =>
          rw [Outline.ofSource, hlex] at hsource
          exact ⟨toks, rfl, Except.ok.inj hsource⟩
      obtain rfl := Outline.inner_of_not_hasArgs hwithin hargs
      exact ⟨by simp, fun _ => ⟨c, hwithin, hren, hfish, hargs⟩⟩
  | call scope c =>
    cases tool with
    | definitions => exact absurd hfound List.not_mem_nil
    | calls =>
      change r ∈ Finding.renames (call _ scope c) at hfound
      unfold call at hfound
      split at hfound
      · exact absurd hfound List.not_mem_nil
      · rename_i cand hcand
        -- no function but a method is renamed here
        obtain ⟨-, hobjection⟩ := of_judge_conservative (Context.of_candidate? hcand) hfound hbool
        cases hobjection

theorem lex_keyedTrait :
    Token.lex "trait T \x7b\nfn get_a(&self);\nfn get_b(&self, k: K);\x7d" = .ok keyedTrait := by
  let es : List Element :=
    [⟨.ident, "trait"⟩, ⟨.blank, " "⟩, ⟨.ident, "T"⟩, ⟨.blank, " "⟩, ⟨.opening .brace, "\x7b"⟩,
      ⟨.blank, "\n"⟩, ⟨.ident, "fn"⟩, ⟨.blank, " "⟩, ⟨.ident, "get_a"⟩, ⟨.opening .paren, "("⟩,
      ⟨.punct false, "&"⟩, ⟨.ident, "self"⟩, ⟨.closing .paren, ")"⟩, ⟨.punct false, ";"⟩,
      ⟨.blank, "\n"⟩, ⟨.ident, "fn"⟩, ⟨.blank, " "⟩, ⟨.ident, "get_b"⟩, ⟨.opening .paren, "("⟩,
      ⟨.punct false, "&"⟩, ⟨.ident, "self"⟩, ⟨.punct false, ","⟩, ⟨.blank, " "⟩, ⟨.ident, "k"⟩,
      ⟨.punct false, ":"⟩, ⟨.blank, " "⟩, ⟨.ident, "K"⟩, ⟨.closing .paren, ")"⟩,
      ⟨.punct false, ";"⟩, ⟨.closing .brace, "\x7d"⟩]
  have hreads : Reads (Element.textL es) es := .of_fits (by decide +kernel)
  exact Token.lex_eq_ok_iff.2 ⟨es, hreads, rfl⟩

theorem shape_of_conservative_keyedTrait :
    let ctx : Context := { path := "src/lib.rs", tool := .definitions, mode := .conservative }
    let r : Rename :=
      ⟨"get_a", ⟨"a", .no, .regular⟩, 2, 3, ⟨.trait, "T", []⟩, true, true⟩
    r ∈ treeRenames ctx (Outline.read keyedTrait) ∧
      ∃ sig : Signature, sig.IsItemOf (Outline.read keyedTrait) ∧ r.Renames ctx sig.name ∧
        (∃ input, sig.inputs = [input] ∧ Signature.isReceiver input = true) ∧
        ∀ param ∈ sig.generics, Signature.isLifetime param = true := by
  intro ctx r
  have hr : r ∈ treeRenames ctx (Outline.read keyedTrait) := by
    have hall : treeRenames ctx (Outline.read keyedTrait) = [r] := by decide +kernel
    rw [hall]
    exact List.mem_singleton_self r
  have hsource : Outline.ofSource "trait T \x7b\nfn get_a(&self);\nfn get_b(&self, k: K);\x7d" =
      .ok (Outline.read keyedTrait) := by
    rw [Outline.ofSource, lex_keyedTrait]
    rfl
  exact ⟨hr, (shape_of_conservative hsource hr (by decide)).1 rfl⟩

end Analysis

end GetterRename
