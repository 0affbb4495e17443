import GetterRename.Getter.CallMatcher
import GetterRename.Proofs.Getter.Trace
import GetterRename.Source.Outline

/-!
# Calls in a token stream

The call matcher holds back at most one candidate while it walks through token trees.  Behind the
name it waits for parentheses and passes over documentation, over what a `:` or a `<` makes it take
for explicit generic arguments, and over the ends of groups; any other token drops the candidate.
So a name is renamed only where parentheses follow it.

* `CallMatcher.Applied` — the tokens behind a name that is taken for that of a call;
* `CallMatcher.Found` — a rename of the call matcher and its site;
* `CallMatcher.advances_runL` — a run of the call matcher;
* `CallMatcher.renames_applied` — its renames are of names that are applied.
-/

namespace GetterRename

/-! ### Lifetimes -/

namespace Token

/-- Every tick is followed by the name of a lifetime, documentation aside. -/
def namesLifetimes : List Token → Bool
  | [] => true
  | t :: ts =>
    (!t.isPunct '\'' || (ts.dropWhile isDoc).head?.any isName) && namesLifetimes ts

theorem namesLifetimes_append {ts ts' : List Token} (h : namesLifetimes ts = true)
    (h' : namesLifetimes ts' = true) : namesLifetimes (ts ++ ts') = true := by
  induction ts with
  | nil => exact h'
  | cons t ts ih =>
    simp only [namesLifetimes, Bool.and_eq_true, Bool.or_eq_true] at h
    simp only [List.cons_append, namesLifetimes, Bool.and_eq_true, Bool.or_eq_true]
    refine ⟨h.1.imp_right fun hname => ?_, ih h.2⟩
    cases hdrop : ts.dropWhile isDoc with
    | nil => simp [hdrop] at hname
    | cons u us =>
      rw [List.dropWhile_append, if_neg (by simp [hdrop]), hdrop]
      simpa [hdrop] using hname

/-- Documentation among the tokens does not come between a tick and its name. -/
theorem namesLifetimes_doc (ts ts' : List Token) (text : Bytes) (p : Pos) :
    namesLifetimes (ts ++ doc text p :: ts') = namesLifetimes (ts ++ ts') := by
  induction ts with
  | nil => simp [namesLifetimes, isPunct]
  | cons t ts ih =>
    have hnext : ((ts ++ doc text p :: ts').dropWhile isDoc).head? =
        ((ts ++ ts').dropWhile isDoc).head? := by
      simp only [List.dropWhile_append]
      cases hdrop : ts.dropWhile isDoc with
      | nil => rfl
      | cons u us => rfl
    simp only [List.cons_append, namesLifetimes, ih, hnext]

theorem namesLifetimes_of_docs {docs : List Token} (h : ∀ t ∈ docs, t.isDoc = true) :
    namesLifetimes docs = true := by
  induction docs with
  | nil => rfl
  | cons t docs ih =>
    obtain ⟨ht, hdocs⟩ := List.forall_mem_cons.1 h
    cases t with
    | doc text p => simpa [namesLifetimes, isPunct] using ih hdocs
    | _ => simp [isDoc] at ht

end Token

namespace CallMatcher

/-! ### Behind a name -/

def isArgument : Token → Bool
  | .punct c _ _ => !breakers.contains c
  | .ident text _ => text != Bytes.ofString "fn"
  | .doc _ _ => true
  | _ => false

def opensArguments (t : Token) : Bool := t.isPunct ':' || t.isPunct '<'

/-- The tokens may stand between a name and its arguments: they are explicit generic arguments, or
nothing but documentation. -/
structure Between (args : List Token) : Prop where
  arguments : ∀ t ∈ args, isArgument t = true
  opening : (args.dropWhile Token.isDoc).head?.all opensArguments = true

/-- A name is applied by the tokens behind it: parentheses follow, at once or behind explicit
generic arguments.  Where its list ends, the tokens behind the closing delimiter come next. -/
def Applied (s : Site) : Prop :=
  ∃ args rest, s.after ++ s.behind = args ++ rest ∧ Between args ∧
    Token.namesLifetimes args = true ∧ rest.head?.any (·.isGroupOf .paren) = true

theorem isArgument_of_isDoc {t : Token} (h : t.isDoc = true) : isArgument t = true := by
  cases t <;> simp_all [Token.isDoc, isArgument]

theorem dropWhile_isDoc {docs : List Token} (h : ∀ t ∈ docs, t.isDoc = true) :
    docs.dropWhile Token.isDoc = [] := by
  rw [List.dropWhile_eq_nil_iff]
  exact h

theorem Between.of_docs {docs : List Token} (h : ∀ t ∈ docs, t.isDoc = true) : Between docs :=
  ⟨fun t ht => isArgument_of_isDoc (h t ht), by rw [dropWhile_isDoc h]; rfl⟩

/-- What comes next behind a name that is applied, documentation aside. -/
theorem Applied.next {s : Site} (h : Applied s) :
    ((s.after ++ s.behind).dropWhile Token.isDoc).head?.any
      (fun t => t.isGroupOf .paren || opensArguments t) = true := by
  obtain ⟨args, rest, hafter, hargs, -, hrest⟩ := h
  have hopen := hargs.opening
  rw [hafter, List.dropWhile_append]
  split
  · cases rest with
    | nil => simp at hrest
    | cons t rest =>
      have ht : t.isGroupOf .paren = true := by simpa using hrest
      have hdoc : t.isDoc = false := by cases t <;> simp_all [Token.isGroupOf, Token.isDoc]
      simp [hdoc, ht]
  · rename_i hne
    obtain ⟨u, us, hu⟩ := List.exists_cons_of_ne_nil fun hnil => hne (List.isEmpty_iff.2 hnil)
    rw [hu] at hopen ⊢
    simp [show opensArguments u = true by simpa using hopen]

/-- No hazard stands right behind a name that is applied. -/
theorem Applied.isSafe {s : Site} (h : Applied s) : s.isSafe = true := by
  have hnext := h.next
  unfold Site.isSafe
  cases hafter : s.after with
  | nil => rfl
  | cons t after =>
    rw [hafter] at hnext
    cases t with
    | punct c joint p =>
      have hc : c = byte ':' ∨ c = byte '<' := by
        simpa [Token.isDoc, Token.isGroupOf, opensArguments, Token.isPunct] using hnext
      rcases hc with rfl | rfl <;> simp only [List.head?_cons, Option.any_some, Token.isHazard] <;>
        decide
    | literal text p =>
      simp [Token.isDoc, Token.isGroupOf, opensArguments, Token.isPunct] at hnext
    | _ => rfl

/-! ### Candidates held back -/

namespace State

def held? : State → Option Candidate
  | named cand | params cand | lifetime cand => some cand
  | _ => none

/-- What the matcher has passed over since the name of the candidate held back.  Behind the tick of
a lifetime its name is missing. -/
def Passed (read : List Token) : State → Prop
  | named _ => ∀ t ∈ read, t.isDoc = true
  | params _ => (Between read ∧ read.dropWhile Token.isDoc ≠ []) ∧
    Token.namesLifetimes read = true
  | lifetime _ => (Between read ∧ read.dropWhile Token.isDoc ≠ []) ∧
    ∀ text p, Token.namesLifetimes (read ++ [.ident text p]) = true
  | _ => False

/-- In front of `ts` the name at the site may still be applied: the tokens between have been passed
over. -/
def Awaits (behind ts : List Token) (state : State) (s : Site) : Prop :=
  ∃ read, s.after ++ s.behind = read ++ (ts ++ behind) ∧ state.Passed read

/-- The site of the candidate held back in front of `ts`. -/
def holding (ctx : Context) (behind ts : List Token) (state : State) : Holding :=
  state.held?.map fun cand s =>
    cand.Of ctx s.name ∧ (s.isMetavariable = true → cand.isMethod = false) ∧
      state.Awaits behind ts s

theorem between_of_passed {read : List Token} {state : State} (h : state.Passed read) :
    Between read := by
  cases state with
  | named cand => exact .of_docs h
  | params cand => exact h.1.1
  | lifetime cand => exact h.1.1
  | _ => exact h.elim

/-- At the end of a group the tokens behind it come next. -/
theorem holding_nil (ctx : Context) (behind ts : List Token) (state : State) :
    state.holding ctx (ts ++ behind) [] = state.holding ctx behind ts := rfl

end State

/-- The rename is that of a name in a token stream that is applied. A metavariable is no method. -/
structure Found (ctx : Context) (r : Rename) (s : Site) : Prop extends r.InStream ctx s where
  applied : Applied s
  path : s.isMetavariable = true → r.isMethod = false

/-! ### Steps -/

section Steps

variable {ctx : Context} {scope : Scope} {state state' : State} {cand cand' : Candidate}
  {behind : List Token} {t : Token} {ts : List Token} {before : Holding} {found : List Finding}
  {sites : List Site} {read : List Token}

theorem Between.snoc (h : Between read ∧ read.dropWhile Token.isDoc ≠ [])
    (ht : isArgument t = true) :
    Between (read ++ [t]) ∧ (read ++ [t]).dropWhile Token.isDoc ≠ [] := by
  obtain ⟨⟨hargs, hopen⟩, hne⟩ := h
  have hdrop : (read ++ [t]).dropWhile Token.isDoc = read.dropWhile Token.isDoc ++ [t] := by
    rw [List.dropWhile_append, if_neg (by simpa using hne)]
  rw [hdrop]
  refine ⟨⟨?_, ?_⟩, by simp⟩
  · rw [List.forall_mem_append]
    exact ⟨hargs, by simpa using ht⟩
  · obtain ⟨u, us, hu⟩ := List.exists_cons_of_ne_nil hne
    rw [hdrop, hu]
    rw [hu] at hopen
    exact hopen

theorem Between.first {docs : List Token} (h : ∀ t ∈ docs, t.isDoc = true)
    (ht : opensArguments t = true) (harg : isArgument t = true) (hdoc : t.isDoc = false) :
    Between (docs ++ [t]) ∧ (docs ++ [t]).dropWhile Token.isDoc ≠ [] := by
  have hdrop : (docs ++ [t]).dropWhile Token.isDoc = [t] := by
    rw [List.dropWhile_append, dropWhile_isDoc h]
    simp [hdoc]
  refine ⟨⟨?_, ?_⟩, by simp [hdrop]⟩
  · rw [List.forall_mem_append]
    exact ⟨(Between.of_docs h).arguments, by simpa using harg⟩
  · rw [hdrop]
    simpa using ht

theorem State.Passed.doc (h : state.Passed read) (text : Bytes) (p : Pos) :
    state.Passed (read ++ [.doc text p]) := by
  cases state with
  | named cand =>
    intro t ht
    rcases List.mem_append.1 ht with ht | ht
    · exact h t ht
    · rw [List.mem_singleton] at ht
      rw [ht]
      rfl
  | params cand => exact ⟨Between.snoc h.1 rfl, by simp [Token.namesLifetimes_doc, h.2]⟩
  | lifetime cand =>
    refine ⟨Between.snoc h.1 rfl, fun text p => ?_⟩
    simp [Token.namesLifetimes_doc, h.2]
  | _ => exact h.elim

/-- A `:` or a `<` behind the name opens explicit generic arguments. -/
theorem State.Passed.opens (h : (State.named cand).Passed read) (ht : opensArguments t = true)
    (harg : isArgument t = true) : (State.params cand').Passed (read ++ [t]) := by
  have hdoc : t.isDoc = false := by cases t <;> simp_all [opensArguments, Token.isPunct, Token.isDoc]
  have htick : t.isPunct '\'' = false := by
    rcases Bool.or_eq_true_iff.1 ht with ht | ht <;>
      obtain ⟨joint, p, rfl⟩ := Token.exists_eq_of_isPunct ht <;> rfl
  refine ⟨Between.first h ht harg hdoc, ?_⟩
  exact Token.namesLifetimes_append (Token.namesLifetimes_of_docs h)
    (by simp [Token.namesLifetimes, htick])

theorem State.Passed.argument (h : (State.params cand).Passed read) (harg : isArgument t = true)
    (htick : t.isPunct '\'' = false) : (State.params cand').Passed (read ++ [t]) :=
  ⟨Between.snoc h.1 harg,
    Token.namesLifetimes_append h.2 (by simp [Token.namesLifetimes, htick])⟩

theorem State.Passed.tick (h : (State.params cand).Passed read) (harg : isArgument t = true) :
    (State.lifetime cand').Passed (read ++ [t]) := by
  refine ⟨Between.snoc h.1 harg, fun text p => ?_⟩
  rw [List.append_assoc]
  refine Token.namesLifetimes_append h.2 ?_
  simp [Token.namesLifetimes, Token.isDoc, Token.isName, Token.isPunct]

theorem State.Passed.name {text : Bytes} {p : Pos} (h : (State.lifetime cand).Passed read)
    (harg : isArgument (.ident text p) = true) :
    (State.params cand').Passed (read ++ [.ident text p]) :=
  ⟨Between.snoc h.1 harg, h.2 text p⟩

theorem advances_drop (h : state'.held? = none) (hf : Finding.renames found = []) :
    Advances (Found ctx) before found (state'.holding ctx behind ts) sites := by
  rw [State.holding, h]
  exact .drop hf

theorem advances_keep (h : state.held? = some cand) (h' : state'.held? = some cand')
    (hs : cand.Same cand') (hm : cand'.isMethod = cand.isMethod)
    (hp : ∀ read, state.Passed read → state'.Passed (read ++ [t])) :
    Advances (Found ctx) (state.holding ctx behind (t :: ts)) []
      (state'.holding ctx behind ts) sites := by
  simp only [State.holding, h, h', Option.map_some]
  refine .keep ?_ rfl
  rintro s ⟨hof, hpath, hawaits⟩
  refine ⟨hof.of_same hs, fun hmeta => hm.trans (hpath hmeta), ?_⟩
  obtain ⟨read, hread, hpassed⟩ := hawaits
  exact ⟨read ++ [t], by simp [hread], hp read hpassed⟩

theorem advances_start {s : Site} {isMethod : Bool}
    (hpath : s.isMetavariable = true → isMethod = false) :
    Advances (Found ctx) before (start ctx scope isMethod s.name).2
      ((start ctx scope isMethod s.name).1.holding ctx s.behind s.after) [s] := by
  unfold start
  split
  · rename_i cand hcand
    have hm : cand.isMethod = isMethod := by
      obtain ⟨suffix, -, rfl⟩ := Option.map_eq_some_iff.1 hcand
      rfl
    refine .new ⟨Context.of_candidate? hcand, fun hmeta => hm.trans (hpath hmeta), ?_⟩ rfl
    exact ⟨[], rfl, by simp [State.Passed]⟩
  · refine advances_drop rfl ?_
    simp only
    split <;> rfl

theorem advances_ident {word prev : Option Token} {text : Bytes} {p : Pos}
    (hdot : prev.any (·.isPunct '$') = true → state ≠ .dot) :
    Advances (Found ctx) (state.holding ctx behind (.ident text p :: ts))
      (ident ctx scope ⟨text, p⟩ state).2
      ((ident ctx scope ⟨text, p⟩ state).1.holding ctx behind ts)
      [⟨⟨text, p⟩, word, prev, ts, behind⟩] := by
  unfold ident
  split
  · exact advances_drop rfl rfl
  rename_i hfn
  have harg : isArgument (.ident text p) = true := by simpa [isArgument] using hfn
  cases state with
  | idle => exact @advances_start _ _ _ ⟨⟨text, p⟩, word, prev, ts, behind⟩ false fun _ => rfl
  | dot =>
    refine @advances_start _ _ _ ⟨⟨text, p⟩, word, prev, ts, behind⟩ true fun hmeta => ?_
    exact absurd rfl (hdot hmeta)
  | params cand =>
    exact advances_keep rfl rfl ⟨rfl, rfl, rfl, rfl⟩ rfl fun read h => h.argument harg rfl
  | lifetime cand =>
    exact advances_keep rfl rfl ⟨rfl, rfl, rfl, rfl⟩ rfl fun read h => h.name harg
  | named cand => exact advances_drop rfl rfl
  | fnName => exact advances_drop rfl rfl

theorem advances_punct {c : UInt8} {joint : Bool} {p : Pos} :
    Advances (Found ctx) (state.holding ctx behind (.punct c joint p :: ts)) []
      ((punct c state).holding ctx behind ts) [] := by
  unfold punct
  split
  · exact advances_drop rfl rfl
  rename_i hbreak
  have harg : isArgument (.punct c joint p) = true := by simpa [isArgument] using hbreak
  cases state with
  | named cand =>
    simp only
    split
    · rename_i hc
      refine advances_keep rfl rfl ⟨rfl, rfl, rfl, rfl⟩ rfl fun read h => ?_
      exact h.opens (by simpa [opensArguments, Token.isPunct] using hc) harg
    · exact advances_drop rfl rfl
  | params cand =>
    simp only
    split
    · exact advances_keep rfl rfl ⟨rfl, rfl, rfl, rfl⟩ rfl fun read h => h.tick harg
    · rename_i hc
      refine advances_keep rfl rfl ⟨rfl, rfl, rfl, rfl⟩ rfl fun read h => h.argument harg ?_
      simpa [Token.isPunct] using hc
  | idle =>
    simp only
    split <;> exact advances_drop rfl rfl
  | _ => exact advances_drop rfl rfl

theorem advances_judge (h : state = .named cand ∨ state = .params cand) (inner : List Token)
    (p : Pos) (multiple : Bool) :
    let called := { cand with hasMultipleArgs := multiple }
    Advances (Found ctx) (state.holding ctx behind (.group .paren inner p :: ts))
      [ctx.judge scope called called.streamObjection] none [] := by
  intro called
  have hheld : state.held? = some cand := by rcases h with rfl | rfl <;> rfl
  simp only [State.holding, hheld, Option.map_some]
  refine .judge ?_
  rintro s ⟨hof, hpath, read, hread, hpassed⟩
  have hcalled : called.Of ctx s.name := hof.of_same ⟨rfl, rfl, rfl, rfl⟩
  have hnames : Token.namesLifetimes read = true := by
    rcases h with rfl | rfl
    · exact Token.namesLifetimes_of_docs hpassed
    · exact hpassed.2
  have happlied : Applied s :=
    ⟨read, _, hread, State.between_of_passed hpassed, hnames, rfl⟩
  refine (Finding.renames_judge_stream hcalled happlied.isSafe scope).imp_right ?_
  rintro ⟨r, hr, hstream, hmethod⟩
  exact ⟨r, hr, hstream, happlied, fun hmeta => hmethod.trans (hpath hmeta)⟩

theorem advances_group (delim : Delimiter) (inner : List Token) (p : Pos) :
    Advances (Found ctx) (state.holding ctx behind (.group delim inner p :: ts))
      (group ctx scope delim inner.isEmpty state) none [] := by
  unfold group
  split
  · exact advances_judge (.inl rfl) inner p _
  · exact advances_judge (.inr rfl) inner p _
  · exact .drop rfl

theorem advances_leaf {word prev : Option Token}
    (hdot : prev.any (·.isPunct '$') = true → state ≠ .dot) (ht : t.isGroup = false) :
    Advances (Found ctx) (state.holding ctx behind (t :: ts)) (run ctx scope state t).2
      ((run ctx scope state t).1.holding ctx behind ts) (Token.sites behind word prev ts t) := by
  cases t with
  | ident text p =>
    simp only [run, Token.sites]
    exact advances_ident hdot
  | punct c joint p =>
    simp only [run, Token.sites]
    exact advances_punct
  | literal text p =>
    simp only [run]
    exact advances_drop rfl rfl
  | doc text p =>
    simp only [run]
    cases hheld : state.held? with
    | none => exact advances_drop hheld rfl
    | some cand =>
      exact advances_keep hheld hheld ⟨rfl, rfl, rfl, rfl⟩ rfl fun read h => h.doc text p
  | group d inner p => simp [Token.isGroup] at ht

/-- Behind a `$` no dot is remembered. -/
theorem run_ne_dot (h : (some t).any (·.isPunct '$') = true) :
    (run ctx scope state t).1 ≠ .dot := by
  obtain ⟨joint, p, rfl⟩ := Token.exists_eq_of_isPunct (show t.isPunct '$' = true from h)
  simp only [run, punct]
  rw [if_neg (by decide)]
  cases state with
  | idle => rw [if_neg (by decide)]; nofun
  | named cand => rw [if_neg (by decide)]; nofun
  | params cand => rw [if_neg (by decide)]; nofun
  | _ => nofun

end Steps

/-! ### Runs -/

/-- **A run of the call matcher.**  It renames names that are applied, in order. -/
theorem advances_runL {ctx : Context} {scope : Scope} {behind : List Token}
    {word prev : Option Token} {state : State} (ts : List Token) (hdot : prev.any (·.isPunct '$') = true → state ≠ .dot) :
    Advances (Found ctx) (state.holding ctx behind ts) (runL ctx scope state ts).2
      ((runL ctx scope state ts).1.holding ctx behind []) (Token.sitesL behind word prev ts) := by
  induction ts using Token.inductionL generalizing behind word prev state with
  | nil =>
    simp only [runL, Token.sitesL]
    exact .refl _
  | leaf t ts ht ih =>
    simp only [runL, Token.sitesL]
    exact (advances_leaf hdot ht).trans (ih run_ne_dot)
  | group d inner p ts ihInner ih =>
    simp only [runL, run, Token.sitesL, Token.sites_group]
    have hinner := @ihInner (ts ++ behind) word none .idle (by simp)
    rw [State.holding_nil] at hinner
    refine ((advances_group d inner p).trans hinner).trans (ih ?_)
    simp [Token.isPunct]

/-- The renames of a token stream and their sites. -/
theorem trace_findings (ctx : Context) (scope : Scope) (ts : List Token) :
    Rename.Trace (Found ctx) (Finding.renames (findings ctx scope ts)) (Token.sitesOf ts) :=
  (@advances_runL ctx scope [] none none .idle ts (by simp)).trace

/-- **Only names that are applied are renamed.**  The renames of a token stream are those of some of
its identifiers, in order, and each of these is applied by the tokens behind it. -/
theorem renames_applied (ctx : Context) (scope : Scope) (ts : List Token) :
    Rename.Trace (fun r s => r.Renames ctx s.name ∧ Applied s)
      (Finding.renames (findings ctx scope ts)) (Token.sitesOf ts) :=
  (trace_findings ctx scope ts).imp fun _ _ h => ⟨h.renames, h.applied⟩

/-- Whether a name in front of these tokens is called: parentheses follow, at once or behind
`::<...>`. -/
def isCalled (after : List Token) : Bool :=
  (Outline.turbofish after).2.head?.any (·.isGroupOf .paren)

/-- The tokens of the structure `S { get_x: (1, 2) }`. -/
def fieldName : List Token :=
  [.ident "S" ⟨1, 0⟩,
    .group .brace
      [.ident "get_x" ⟨1, 4⟩, .punct (byte ':') false ⟨1, 9⟩,
        .group .paren
          [.literal "1" ⟨1, 12⟩, .punct (byte ',') false ⟨1, 13⟩, .literal "2" ⟨1, 15⟩] ⟨1, 11⟩]
      ⟨1, 2⟩]

/-- A field name in front of a tuple is taken for a call with explicit generic arguments. -/
theorem renames_fieldName :
    let ctx : Context := { path := "src/lib.rs", tool := .calls, mode := .allGetFunctions }
    ∃ r ∈ Finding.renames (findings ctx ⟨.macroBody, "m", []⟩ fieldName),
      ∀ s ∈ Token.sitesOf fieldName, r.Renames ctx s.name → isCalled s.after = false := by
  intro ctx
  have hfound : Finding.renames (findings ctx ⟨.macroBody, "m", []⟩ fieldName) =
      [⟨"get_x", ⟨"x", .maybe, .regular⟩, 1, 4, ⟨.macroBody, "m", []⟩, false, false⟩] := by
    decide +kernel
  rw [hfound]
  refine ⟨_, List.mem_singleton_self _, ?_⟩
  have hsites : ∀ s ∈ Token.sitesOf fieldName,
      s.name.text = Bytes.ofString "S" ∨ isCalled s.after = false := by
    decide +kernel
  intro s hs hren
  refine (hsites s hs).resolve_left fun hname => ?_
  have := hren.name.trans hname
  exact absurd this (by decide)

/-- The tokens of `{ s.get_x } ()`. -/
def groupEnd : List Token :=
  [.group .brace
      [.ident "s" ⟨1, 2⟩, .punct (byte '.') false ⟨1, 3⟩, .ident "get_x" ⟨1, 4⟩] ⟨1, 0⟩,
    .group .paren [] ⟨1, 12⟩]

/-- Parentheses behind a group apply the name at its end, though nothing follows in its list. -/
theorem renames_groupEnd :
    let ctx : Context := { path := "src/lib.rs", tool := .calls, mode := .allGetFunctions }
    Finding.renames (findings ctx ⟨.macroBody, "m", []⟩ groupEnd) =
        [⟨"get_x", ⟨"x", .maybe, .regular⟩, 1, 4, ⟨.macroBody, "m", []⟩, true, false⟩] ∧
      ∀ s ∈ Token.sitesOf groupEnd, s.name.text = Bytes.ofString "get_x" → s.after = [] := by
  decide +kernel

end CallMatcher

end GetterRename
