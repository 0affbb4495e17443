import GetterRename.Proofs.Bounds.Matchers
import GetterRename.Proofs.Getter.Analysis

/-!
# Analysing an outline, with a stack of scopes

The outline is visited with a stack of scopes, at whose bottom is the scope of the file.  A construct
puts its scope on the stack and takes it away again; the file's own scope may not be taken away.  As
every visit leaves the stack as it was, the top of the stack is the scope in which the visits of the
outline happen, and below a scope that is taken away there always is another one.

* `Checked.visit?_eq` — the visit of a node;
* `Checked.record?_eq` — filling the ledger;
* `Checked.analyze?_eq` — the analysis of a file.
-/

namespace GetterRename.Checked

/-! ### The visitor -/

/-- Where a visitor stands: the scopes, that of the file first, and the block of documentation that
is open. -/
structure Visitor where
  scopes : List Scope
  block : Option DocCode.Block

/-- The stack without the scope on top, nothing for the scope of the file. -/
def popScope? (scopes : List Scope) : Option (List Scope) :=
  if scopes.length = 1 then none else pop? scopes

/-- The stack behind a construct, which may have put a scope of its own on it. -/
def leave? (own : Option Scope) (scopes : List Scope) : Option (List Scope) :=
  match own with
  | none => some scopes
  | some _ => popScope? scopes

/-- The scope that a construct puts on the stack. Items of a block and calls have none. -/
def ownScope? (isItem : Bool) : Construct → Option Scope
  | .fn sig => if isItem then none else some ⟨.moduleFunction, sig.name.text, []⟩
  | .impl none type => some ⟨.inherentImpl, type, []⟩
  | .impl (some name) type => some ⟨.traitImpl, name, type⟩
  | .trait name => some ⟨.trait, name, []⟩
  | .module name => some ⟨.module, name, []⟩
  | .const name isStatic =>
    if isItem then none else some ⟨if isStatic then .static else .const, name, []⟩
  | .methodCall _ | .call _ => none

def isMethod? (sig : Signature) : Option Bool :=
  if 0 < sig.inputs.length then (get? sig.inputs 0).map Signature.isReceiver else some false

def returnsBool? (sig : Signature) : Option Bool :=
  if sig.output.length = 1 then (get? sig.output 0).map (·.isIdent "bool") else some false

section Visits

variable (ctx : Context)

def definition? (scope : Scope) (sig : Signature) : Option (List Finding) := do
  let isMethod ← isMethod? sig
  let returnsBool ← returnsBool? sig
  match ctx.candidate? sig.name (.ofBool returnsBool) isMethod with
  | none => return [ctx.notAnAccessor scope sig.name]
  | some cand =>
    let cand := { cand with
      hasGenericParams := sig.hasTypeParams
      hasMultipleArgs := 1 < sig.inputs.length
      hasNoArgs := sig.inputs.isEmpty }
    let objection :=
      if scope.needsDocAlias?.isNone then some .notAMethod else cand.signatureObjection
    return [ctx.judge scope cand objection]

/-- The findings about a construct itself, in the scope on top of the stack. -/
def headFindings? (scopes : List Scope) : Construct → Option (List Finding)
  | .fn sig =>
    if ctx.tool = .definitions then do
      let scope ← top? scopes
      definition? ctx scope sig
    else some []
  | .methodCall c =>
    if ctx.tool = .calls then do
      let scope ← top? scopes
      return Analysis.methodCall ctx scope c
    else some []
  | .call c =>
    if ctx.tool = .calls then do
      let scope ← top? scopes
      return Analysis.call ctx scope c
    else some []
  | _ => some []

mutual

def visit? (v : Visitor) (isItem : Bool) : Node → Option (Visitor × List Finding)
  | .doc line => do
    let (block, found) ← blockLine? ctx v.block line
    return (⟨v.scopes, block⟩, found)
  | .macroUse use => do
    let scopes := v.scopes ++ [⟨.macroBody, use.name, []⟩]
    let scope ← top? scopes
    let found ← streamFindings? ctx scope use.tokens
    let scopes ← popScope? scopes
    return (⟨scopes, v.block⟩, found)
  | .construct head inside => do
    let own := ownScope? isItem head
    let scopes := v.scopes ++ own.toList
    let found ← headFindings? ctx scopes head
    let (v, more) ← visitL? ⟨scopes, v.block⟩ head.holdsItems inside
    let scopes ← leave? own v.scopes
    return (⟨scopes, v.block⟩, found ++ more)

def visitL? (v : Visitor) (isItem : Bool) : List Node → Option (Visitor × List Finding)
  | [] => some (v, [])
  | n :: ns => do
    let (v, found) ← visit? v isItem n
    let (v, more) ← visitL? v isItem ns
    return (v, found ++ more)

end

end Visits

def add? (ledger : Ledger) (r : Rename) : Option (Except DuplicateDefinition Ledger) :=
  let existing := ledger.store.onLine r.line
  if ledger.tool = .definitions ∧ 0 < existing.length then do
    let first ← get? existing 0
    return .error ⟨ledger.path, r.line, first.name, r.name⟩
  else some (.ok (ledger.push r))

/-- Records the findings in order: the ledger, the log, and the first rename refused. -/
def record? (ledger : Ledger) :
    List Finding → Option (Ledger × List LogRecord × Option DuplicateDefinition)
  | [] => some (ledger, [], none)
  | .note n :: rest => do
    let (ledger, logs, error) ← record? ledger rest
    return (ledger, n :: logs, error)
  | .rename r :: rest => do
    match ← add? ledger r with
    | .ok ledger =>
      let (ledger, logs, error) ← record? ledger rest
      return (ledger, Analysis.renamingNote ledger.path r :: logs, error)
    | .error e =>
      let (ledger, logs, _) ← record? ledger rest
      return (ledger, logs, some e)

def analyze? (path : Bytes) (tool : Tool) (mode : Mode) (nodes : List Node) : Option Analysis := do
  let (_, found) ← visitL? { path, tool, mode } ⟨[.file], none⟩ false nodes
  let (ledger, logs, error) ← record? { path, tool } found
  return ⟨ledger, logs, error⟩

/-! ### Constructs -/

variable {ctx : Context}

theorem scopeInside_eq (scope : Scope) (isItem : Bool) (head : Construct) :
    head.scopeInside scope isItem = (ownScope? isItem head).getD scope := by
  cases head with
  | fn sig => cases isItem <;> rfl
  | impl trait type => cases trait <;> rfl
  | const name isStatic => cases isItem <;> rfl
  | _ => rfl

/-- The scope on top of the stack is that inside the construct. -/
theorem append_ownScope? (scopes : List Scope) (scope : Scope) (isItem : Bool) (head : Construct) :
    ∃ below, scopes ++ [scope] ++ (ownScope? isItem head).toList =
      below ++ [head.scopeInside scope isItem] := by
  rw [scopeInside_eq]
  cases ownScope? isItem head with
  | none => exact ⟨scopes, List.append_nil _⟩
  | some own => exact ⟨scopes ++ [scope], rfl⟩

/-- The scope of a construct is not the only one on the stack. -/
theorem popScope?_append (scopes : List Scope) (scope own : Scope) :
    popScope? (scopes ++ [scope] ++ [own]) = some (scopes ++ [scope]) := by
  rw [popScope?, if_neg (by simp), pop?_append]

theorem leave?_append (scopes : List Scope) (scope : Scope) (own : Option Scope) :
    leave? own (scopes ++ [scope] ++ own.toList) = some (scopes ++ [scope]) := by
  cases own with
  | none => exact congrArg some (List.append_nil _)
  | some own => exact popScope?_append scopes scope own

theorem isMethod?_eq (sig : Signature) : isMethod? sig = some sig.isMethod := by
  unfold isMethod? Signature.isMethod
  cases sig.inputs with
  | nil => rfl
  | cons input inputs => rfl

theorem returnsBool?_eq (sig : Signature) : returnsBool? sig = some sig.returnsBool := by
  unfold returnsBool? Signature.returnsBool
  obtain - | ⟨t, - | ⟨t', ts⟩⟩ := sig.output
  · rfl
  · rfl
  · rfl

theorem definition?_eq (scope : Scope) (sig : Signature) :
    definition? ctx scope sig = some (Analysis.definition ctx scope sig) := by
  unfold definition? Analysis.definition
  rw [isMethod?_eq, returnsBool?_eq]
  simp only [Option.bind_eq_bind, Option.bind_some]
  cases ctx.candidate? sig.name (.ofBool sig.returnsBool) sig.isMethod with
  | none => rfl
  | some cand => rfl

theorem headFindings?_eq (ctx : Context) (below : List Scope) (scope : Scope)
    (block : Option DocCode.Block) (head : Construct) :
    headFindings? ctx (below ++ [scope]) head =
      some (Analysis.visitAll ctx block (head.visit? scope).toList) := by
  have hvisit : ∀ v : Visit, Analysis.visitAll ctx block [v] = (Analysis.visit ctx block v).2 :=
    fun v => List.append_nil _
  cases head with
  | fn sig =>
    simp only [headFindings?, top?_append, definition?_eq, Construct.visit?, Option.toList_some,
      hvisit, Analysis.visit]
    split <;> rfl
  | methodCall c =>
    simp only [headFindings?, top?_append, Construct.visit?, Option.toList_some, hvisit,
      Analysis.visit]
    split <;> rfl
  | call c =>
    simp only [headFindings?, top?_append, Construct.visit?, Option.toList_some, hvisit,
      Analysis.visit]
    split <;> rfl
  | _ => rfl

theorem blockBehind_head (scope : Scope) (block : Option DocCode.Block) (head : Construct) :
    Analysis.blockBehind ctx block (head.visit? scope).toList = block := by
  cases head <;> rfl

/-! ### Visits -/

mutual

/-- **The visit of a node.**  No read of the stack fails and the scope of the file is not taken away;
the stack is left as it was, and the findings are those of the visits in the scope on its top. -/
theorem visit?_eq (ctx : Context) (scopes : List Scope) (scope : Scope)
    (block : Option DocCode.Block) (isItem : Bool) :
    ∀ n : Node, visit? ctx ⟨scopes ++ [scope], block⟩ isItem n =
      some (⟨scopes ++ [scope], Analysis.blockBehind ctx block (n.visits scope isItem)⟩,
        Analysis.visitAll ctx block (n.visits scope isItem))
  | .doc line => by
    simp only [visit?, blockLine?_eq, Option.bind_eq_bind, Option.bind_some, Node.visits,
      Analysis.visitAll, List.append_nil]
    rfl
  | .macroUse use => by
    simp only [visit?, top?_append, popScope?_append, streamFindings?_eq, Option.bind_eq_bind,
      Option.bind_some, Node.visits, Analysis.visitAll, List.append_nil]
    rfl
  | .construct head inside => by
    obtain ⟨below, hstack⟩ := append_ownScope? scopes scope isItem head
    have hhead := headFindings?_eq ctx below (head.scopeInside scope isItem) block head
    have hinside := visitL?_eq ctx below (head.scopeInside scope isItem) block head.holdsItems inside
    rw [← hstack] at hhead hinside
    simp only [visit?, hhead, hinside, leave?_append, Option.bind_eq_bind, Option.bind_some,
      Node.visits, Analysis.blockBehind_append, Analysis.visitAll_append, blockBehind_head]
    rfl

theorem visitL?_eq (ctx : Context) (scopes : List Scope) (scope : Scope)
    (block : Option DocCode.Block) (isItem : Bool) :
    ∀ ns : List Node, visitL? ctx ⟨scopes ++ [scope], block⟩ isItem ns =
      some (⟨scopes ++ [scope], Analysis.blockBehind ctx block (Node.visitsL scope isItem ns)⟩,
        Analysis.visitAll ctx block (Node.visitsL scope isItem ns))
  | [] => rfl
  | n :: ns => by
    simp only [visitL?, visit?_eq ctx scopes scope block isItem n, Option.bind_eq_bind,
      Option.bind_some, visitL?_eq ctx scopes scope _ isItem ns, Node.visitsL,
      Analysis.blockBehind_append, Analysis.visitAll_append]
    rfl

end

/-! ### The ledger -/

theorem add?_eq (ledger : Ledger) (r : Rename) : add? ledger r = some (ledger.add r) := by
  unfold add? Ledger.add Ledger.occupant?
  cases ledger.tool with
  | calls => rfl
  | definitions =>
    cases ledger.store.onLine r.line with
    | nil => rfl
    | cons first more => rfl

theorem record?_eq (ledger : Ledger) (found : List Finding) :
    record? ledger found = some (Analysis.record ledger found) := by
  induction found generalizing ledger with
  | nil => rfl
  | cons f found ih =>
    cases f with
    | note n =>
      rw [record?, ih]
      rfl
    | rename r =>
      rw [record?, Analysis.record, add?_eq]
      cases ledger.add r with
      | ok ledger =>
        simp only [Option.bind_eq_bind, Option.bind_some, ih]
        rfl
      | error e =>
        simp only [Option.bind_eq_bind, Option.bind_some, ih]
        rfl

/-- **Analysing a file.**  No read on the way is out of range, the scope of the file stays on the
stack, and the outcome is that of the visits in source order. -/
theorem analyze?_eq (path : Bytes) (tool : Tool) (mode : Mode) (nodes : List Node) :
    analyze? path tool mode nodes = some (Analysis.run path tool mode nodes) := by
  have hvisits := visitL?_eq { path, tool, mode } [] .file none false nodes
  rw [List.nil_append] at hvisits
  simp only [analyze?, hvisits, Option.bind_eq_bind, Option.bind_some, record?_eq]
  rfl

end GetterRename.Checked
