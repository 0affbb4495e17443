import GetterRename.Proofs.Source.Nesting
import GetterRename.Source.Outline

/-!
# Expression code

Code without items, attributes, macros and explicit generic arguments has no constructs but its
calls.  They stand in the tokens themselves: an identifier in front of parentheses is called, as a
method behind a single dot, else by its path unless it is a keyword.  The outline of such code holds
these calls and the lines of documentation, at every depth and in their order, and nothing else.

* `Token.everyL` — a condition on all tokens at every depth, each with its neighbours;
* `Token.isCode` — expression code;
* `Node.headsL` — the constructs and other nodes of an outline, in order;
* `Token.placesL`, `Token.head?` — the tokens at every depth, and what each is in an outline;
* `Outline.Follows`, `Outline.follows_step` — one step of reading expression code;
* `Outline.heads_of_code` — the outline of expression code.
-/

namespace GetterRename

/-! ### Conditions on tokens -/

namespace Token

/-- A token at some depth, with the tokens before it in its list, the latest first, and those behind
it. -/
structure Place where
  before : List Token
  token : Token
  after : List Token

mutual

def places : Token → List Place
  | group _ tokens _ => placesL [] tokens
  | _ => []

/-- The tokens of a list behind the tokens `before`, at every depth and each in its place. A group
comes before what is in it. -/
def placesL (before : List Token) : List Token → List Place
  | [] => []
  | t :: ts => ⟨before, t, ts⟩ :: places t ++ placesL (t :: before) ts

end

theorem places_group (d : Delimiter) (tokens : List Token) (p : Pos) :
    places (group d tokens p) = placesL [] tokens := by
  simp [places]

theorem places_leaf {t : Token} (h : t.isGroup = false) : places t = [] := by
  cases t with
  | group d tokens p => simp [isGroup] at h
  | _ => rfl

theorem placesL_cons (before : List Token) (t : Token) (ts : List Token) :
    placesL before (t :: ts) = ⟨before, t, ts⟩ :: (places t ++ placesL (t :: before) ts) := rfl

mutual

def every (p : List Token → Token → List Token → Bool) : Token → Bool
  | group _ tokens _ => everyL p [] tokens
  | _ => true

/-- Whether the condition holds for all tokens of a list, at every depth. It is asked of a token with
the tokens before it in its list, the latest first, and those behind it. -/
def everyL (p : List Token → Token → List Token → Bool) (before : List Token) : List Token → Bool
  | [] => true
  | t :: ts => p before t ts && every p t && everyL p (t :: before) ts

end

theorem every_group (p : List Token → Token → List Token → Bool) (d : Delimiter)
    (tokens : List Token) (q : Pos) : every p (group d tokens q) = everyL p [] tokens := by
  simp [every]

theorem everyL_cons {p : List Token → Token → List Token → Bool} {before ts : List Token}
    {t : Token} :
    everyL p before (t :: ts) = true ↔
      p before t ts = true ∧ every p t = true ∧ everyL p (t :: before) ts = true := by
  simp [everyL, and_assoc]

theorem everyL_iff {p : List Token → Token → List Token → Bool} {before ts : List Token} :
    everyL p before ts = true ↔
      ∀ x ∈ placesL before ts, p x.before x.token x.after = true := by
  induction ts using inductionL generalizing before with
  | nil => simp [everyL, placesL]
  | leaf t ts ht ih =>
    have hevery : every p t = true := by
      cases t with
      | group d inner q => simp [isGroup] at ht
      | _ => rfl
    rw [everyL_cons, ih, placesL_cons, places_leaf ht]
    simp [hevery]
  | group d inner q ts ihInner ih =>
    rw [everyL_cons, every_group, ih, ihInner, placesL_cons, places_group, List.forall_mem_cons,
      List.forall_mem_append]

theorem everyL_mono {p q : List Token → Token → List Token → Bool}
    (hpq : ∀ before t after, p before t after = true → q before t after = true) {ts : List Token}
    {before : List Token} (h : everyL p before ts = true) : everyL q before ts = true := by
  rw [everyL_iff] at h ⊢
  exact fun x hx => hpq _ _ _ (h x hx)

theorem everyL_drop {p : List Token → Token → List Token → Bool} {before xs ys : List Token}
    (h : everyL p before (xs ++ ys) = true) : everyL p (xs.reverse ++ before) ys = true := by
  induction xs generalizing before with
  | nil => exact h
  | cons x xs ih =>
    have := ih (everyL_cons.1 h).2.2
    simpa using this

/-- The words that start or qualify an item. -/
def itemWords : List Bytes :=
  ["fn", "impl", "trait", "mod", "const", "static", "struct", "enum", "union", "type", "use",
    "extern", "pub", "unsafe", "async", "default", "auto", "macro_rules"].map Bytes.ofString

def isItemWord : Token → Bool
  | ident text _ => itemWords.contains text
  | _ => false

/-- Whether `::<` starts with the token. -/
def startsFish (t : Token) (after : List Token) : Bool :=
  t.isPunct ':' && after.head?.any (·.isPunct ':') && after[1]?.any (·.isPunct '<')

/-- Whether a macro invocation starts with the token: a name, a `!` that joins nothing, a group. -/
def startsMacro (t : Token) (after : List Token) : Bool :=
  t.isName && after.head?.any (fun bang => bang.isPunct '!' && !bang.isJoint) &&
    after[1]?.any isGroup

def dots (ts : List Token) : Nat := (ts.takeWhile (·.isPunct '.')).length

/-- Whether a token belongs to code without items, attributes, macros and explicit generic
arguments, whose adjacent dots are joined. -/
def isCode (_before : List Token) (t : Token) (after : List Token) : Bool :=
  !t.isPunct '#' && !t.isItemWord && !t.startsFish after && !t.startsMacro after &&
    (!(t.isPunct '.' && after.head?.any (·.isPunct '.')) || t.isJoint)

theorem dots_cons (t : Token) (ts : List Token) :
    dots (t :: ts) = if t.isPunct '.' then dots ts + 1 else 0 := by
  unfold dots
  rw [List.takeWhile_cons]
  split <;> simp

theorem dots_dot (joint : Bool) (p : Pos) (ts : List Token) :
    dots (.punct (byte '.') joint p :: ts) = dots ts + 1 := by
  rw [dots_cons, if_pos (by simp [isPunct])]

theorem dots_eq_zero {ts : List Token} (h : ts.head?.any (·.isPunct '.') = false) :
    dots ts = 0 := by
  cases ts with
  | nil => rfl
  | cons t ts => rw [dots_cons, if_neg (by simpa using h)]

theorem dots_append {xs : List Token} (h : ∀ t ∈ xs, t.isPunct '.' = true) (ys : List Token) :
    dots (xs ++ ys) = xs.length + dots ys := by
  induction xs with
  | nil => simp
  | cons x xs ih =>
    rw [List.cons_append, dots_cons, if_pos (h x List.mem_cons_self),
      ih fun t ht => h t (List.mem_cons_of_mem x ht), List.length_cons]
    omega

/-! ### The outline of tokens -/

end Token

/-- A node without what is inside it. -/
inductive Node.Head where
  | doc (line : DocLine)
  | macroUse (use : MacroUse)
  | construct (head : Construct)
  deriving Repr

namespace Node

mutual

def heads : Node → List Head
  | doc line => [.doc line]
  | macroUse use => [.macroUse use]
  | construct head inside => .construct head :: headsL inside

/-- The heads of all nodes of an outline, each before what is inside it. -/
def headsL : List Node → List Head
  | [] => []
  | n :: ns => heads n ++ headsL ns

end

theorem headsL_append (xs ys : List Node) : headsL (xs ++ ys) = headsL xs ++ headsL ys := by
  induction xs with
  | nil => rfl
  | cons n ns ih => simp [headsL, ih]

end Node

namespace Token

/-- What a token is in an outline by itself: an identifier in front of parentheses is called, as a
method behind a single dot and else unless it is a keyword, and a line of documentation is one. -/
def head? (before : List Token) : Token → List Token → Option Node.Head
  | ident text p, .group .paren args _ :: _ =>
    let site : CallSite := ⟨⟨text, p⟩, false, !args.isEmpty⟩
    if dots before = 1 then some (.construct (.methodCall site))
    else if Outline.keywords.contains text then none
    else some (.construct (.call site))
  | doc text p, _ => some (.doc ⟨text, p.line⟩)
  | _, _ => none

/-- What the tokens of a list are in an outline, at every depth. -/
def headsL (before ts : List Token) : List Node.Head :=
  (placesL before ts).filterMap fun x => head? x.before x.token x.after

theorem headsL_leaf {before : List Token} {t : Token} {ts : List Token} (h : t.isGroup = false) :
    headsL before (t :: ts) = (head? before t ts).toList ++ headsL (t :: before) ts := by
  rw [headsL, placesL_cons, places_leaf h, List.nil_append, List.filterMap_cons]
  cases head? before t ts <;> rfl

theorem headsL_group (before : List Token) (d : Delimiter) (inner : List Token) (p : Pos)
    (ts : List Token) :
    headsL before (.group d inner p :: ts) =
      headsL [] inner ++ headsL (.group d inner p :: before) ts := by
  rw [headsL, placesL_cons, places_group, List.filterMap_cons]
  exact List.filterMap_append

theorem headsL_punct (before : List Token) (c : UInt8) (joint : Bool) (p : Pos)
    (ts : List Token) :
    headsL before (.punct c joint p :: ts) = headsL (.punct c joint p :: before) ts :=
  headsL_leaf rfl

theorem head?_not_paren {ts : List Token}
    (h : ∀ args q after, ts = .group .paren args q :: after → False) :
    ts.head?.any (·.isGroupOf .paren) = false := by
  cases ts with
  | nil => rfl
  | cons t ts =>
    cases t with
    | group d args q => cases d <;> simp_all [isGroupOf]
    | _ => rfl

theorem head?_plain {before ts : List Token} {text : Bytes} {p : Pos}
    (h : ts.head?.any (·.isGroupOf .paren) = false) : head? before (.ident text p) ts = none := by
  unfold head?
  split
  · simp_all [isGroupOf]
  · simp_all
  · rfl

theorem headsL_dots (before ts : List Token) :
    headsL before ts =
      headsL ((ts.takeWhile (·.isPunct '.')).reverse ++ before)
        (ts.dropWhile (·.isPunct '.')) := by
  induction ts generalizing before with
  | nil => rfl
  | cons t ts ih =>
    rw [List.takeWhile_cons, List.dropWhile_cons]
    split
    · rename_i ht
      obtain ⟨joint, p, rfl⟩ := exists_eq_of_isPunct ht
      rw [headsL_punct, ih, List.reverse_cons, List.append_assoc]
      rfl
    · rfl

end Token

/-! ### Reading expression code -/

namespace Outline

open Token (everyL dots head? headsL)

theorem read_cons (t : Token) (rest : List Token) :
    read (t :: rest) =
      (step t rest).1.nodes (read (step t rest).1.inside) ++ read (step t rest).2 := by
  rw [read]

theorem turbofish_of_code {before ts : List Token} (h : everyL Token.isCode before ts = true) :
    turbofish ts = (false, ts) := by
  unfold turbofish
  split
  · rename_i a b c rest
    rw [Token.everyL_cons] at h
    have hfish : a.startsFish (b :: c :: rest) = false := by
      have := h.1
      simp only [Token.isCode, Bool.and_eq_true, Bool.not_eq_true'] at this
      exact this.1.1.2
    rw [if_neg (by simpa [Token.startsFish] using hfish)]
  · rfl

theorem isIdent_of_not_itemWord {t : Token} {name : String} (h : t.isItemWord = false)
    (hname : Bytes.ofString name ∈ Token.itemWords) : t.isIdent name = false := by
  cases t with
  | ident text p =>
    simp only [Token.isItemWord, List.contains_eq_mem, decide_eq_false_iff_not] at h
    simp only [Token.isIdent, beq_eq_false_iff_ne]
    rintro rfl
    exact h hname
  | _ => rfl

/-- A word of expression code is a keyword or may be called. -/
theorem word_of_code {before rest : List Token} {text : Bytes} {p : Pos}
    (h : Token.isCode before (.ident text p) rest = true) :
    word ⟨text, p⟩ rest =
      if keywords.contains text then (.nothing, rest) else pathCall ⟨text, p⟩ rest := by
  simp only [Token.isCode, Bool.and_eq_true, Bool.not_eq_true'] at h
  obtain ⟨⟨⟨⟨-, hitem⟩, -⟩, hmacro⟩, -⟩ := h
  have hno : ∀ name : String, Bytes.ofString name ∈ Token.itemWords →
      (Token.ident text p).isIdent name = false :=
    fun name hname => isIdent_of_not_itemWord hitem hname
  have huse : macroUse? ⟨text, p⟩ rest = none := by
    have hrules : text ≠ Bytes.ofString "macro_rules" := by
      have := hno "macro_rules" (by decide)
      simpa [Token.isIdent] using this
    unfold macroUse?
    split
    · rw [if_neg (by simp [hrules])]
    · rename_i _ bang d body q after
      have hbang : (bang.isPunct '!' && !bang.isJoint) = false := by
        simpa [Token.startsMacro, Token.isName, Token.isGroup] using hmacro
      rw [if_neg]
      simp only [Bool.and_eq_true, not_and]
      intro hb hj
      simp [hb.2, hj] at hbang
    · rfl
  have hqualifier : qualifierSize (.ident text p) rest = 0 := by
    simp [qualifierSize, isQualifier, hno "pub" (by decide), hno "const" (by decide),
      hno "async" (by decide), hno "unsafe" (by decide), hno "default" (by decide),
      hno "auto" (by decide), hno "extern" (by decide)]
  have hstart : skipQualifiers (.ident text p :: rest) = .ident text p :: rest := by
    rw [skipQualifiers, skipQualifiersFrom, hqualifier]
  have hitem? : item? (.ident text p) rest = none := by
    simp [item?, hno "fn" (by decide), hno "impl" (by decide), hno "trait" (by decide),
      hno "mod" (by decide), hno "const" (by decide), hno "static" (by decide),
      hno "struct" (by decide), hno "enum" (by decide), hno "union" (by decide),
      hno "type" (by decide), hno "use" (by decide), hno "extern" (by decide)]
  simp [word, huse, hstart, hitem?]

/-- Where a step may begin: not inside a run of dots, and not at the name of a method. -/
structure Boundary (before ts : List Token) : Prop where
  dot : ts.head?.any (·.isPunct '.') = true → dots before = 0
  name : ts.head?.any (·.isName) = true → dots before ≠ 1

theorem Boundary.of_dots {before ts : List Token} (h : dots before = 0) : Boundary before ts :=
  ⟨fun _ => h, fun _ => by omega⟩

theorem Boundary.cons {before ts : List Token} {t : Token} (h : t.isPunct '.' = false) :
    Boundary (t :: before) ts :=
  .of_dots (by rw [Token.dots_cons, if_neg (by simp [h])])

def applied (head : Bool → Construct) : List Token → Step × List Token
  | .group .paren args _ :: after => (.construct (head !args.isEmpty) args, after)
  | rest => (.nothing, rest)

/-- Expression code has no explicit generic arguments. -/
theorem pathCall_of_code {before rest : List Token} {name : Ident}
    (h : everyL Token.isCode before rest = true) :
    pathCall name rest = applied (.call ⟨name, false, ·⟩) rest := by
  simp only [pathCall, turbofish_of_code h]
  unfold applied
  grind

/-- Neither have its methods. -/
theorem dotAt_of_code {before after : List Token} {joint : Bool} {text : Bytes} {p : Pos}
    (h : everyL Token.isCode before after = true) :
    dotAt joint (.ident text p :: after) = applied (.methodCall ⟨⟨text, p⟩, false, ·⟩) after := by
  simp only [dotAt, turbofish_of_code h, List.head?_cons, Option.any_some, Token.isPunct,
    Bool.and_false, Bool.false_eq_true, if_false]
  unfold applied
  grind

/-- The step leaves expression code, and the list is in the outline what the step recognises, inside
and itself, and what it leaves behind. -/
def Follows (before ts : List Token) (found : Step × List Token) : Prop :=
  everyL Token.isCode [] found.1.inside = true ∧
    ∃ before', everyL Token.isCode before' found.2 = true ∧ Boundary before' found.2 ∧
      ∀ inner, Node.headsL inner = headsL [] found.1.inside →
        Node.headsL (found.1.nodes inner) ++ headsL before' found.2 = headsL before ts

theorem Follows.nothing {before before' ts after : List Token}
    (hcode : everyL Token.isCode before' after = true) (hbound : Boundary before' after)
    (hheads : headsL before ts = headsL before' after) : Follows before ts (.nothing, after) :=
  ⟨rfl, before', hcode, hbound, fun _ _ => hheads.symm⟩

theorem Follows.applied {before args after : List Token} {text : Bytes} {p q : Pos}
    {head : Construct}
    (hcode : everyL Token.isCode before (.ident text p :: .group .paren args q :: after) = true)
    (hhead : head? before (.ident text p) (.group .paren args q :: after) =
      some (.construct head)) :
    Follows before (.ident text p :: .group .paren args q :: after)
      (.construct head args, after) := by
  obtain ⟨-, hargs, hafter⟩ := Token.everyL_cons.1 (Token.everyL_cons.1 hcode).2.2
  rw [Token.every_group] at hargs
  refine ⟨hargs, _, hafter, .cons rfl, fun inner hinner => ?_⟩
  rw [Token.headsL_leaf rfl, Token.headsL_group, hhead, ← List.append_assoc]
  refine congrArg (· ++ _) ?_
  simp [Step.nodes, Node.headsL, Node.heads, hinner, Step.inside]

theorem Follows.skipped {before after : List Token} {text : Bytes} {p : Pos}
    (hcode : everyL Token.isCode before (.ident text p :: after) = true)
    (hplain : after.head?.any (·.isGroupOf .paren) = false) :
    Follows before (.ident text p :: after) (.nothing, after) :=
  .nothing (Token.everyL_cons.1 hcode).2.2 (.cons rfl)
    (by rw [Token.headsL_leaf rfl, Token.head?_plain hplain]; rfl)

theorem follows_range {before rest : List Token} {p : Pos}
    (hcode : everyL Token.isCode before (.punct (byte '.') true p :: rest) = true)
    (hrun : rest.head?.any (·.isPunct '.') = true) :
    Follows before (.punct (byte '.') true p :: rest)
      (.nothing, rest.dropWhile (·.isPunct '.')) := by
  have hrest := (Token.everyL_cons.1 hcode).2.2
  rw [← List.takeWhile_append_dropWhile (p := (·.isPunct '.')) (l := rest)] at hrest
  refine .nothing (Token.everyL_drop hrest) ⟨fun hdot => ?_, fun _ => ?_⟩
    (Token.headsL_dots _ rest)
  · have hhead := List.head?_dropWhile_not (·.isPunct '.') rest
    cases hd : (rest.dropWhile (·.isPunct '.')).head? <;> simp_all
  · have hall : ∀ t ∈ (rest.takeWhile (·.isPunct '.')).reverse, t.isPunct '.' = true :=
      fun t ht => List.mem_takeWhile_imp (List.mem_reverse.1 ht)
    have hmore : rest.takeWhile (·.isPunct '.') ≠ [] := by
      cases rest with
      | nil => simp at hrun
      | cons t ts => simp_all
    have hlength := List.length_pos_iff.2 hmore
    rw [Token.dots_append hall, Token.dots_dot, List.length_reverse]
    omega

theorem follows_dotAt {before rest : List Token} {joint : Bool} {p : Pos}
    (hcode : everyL Token.isCode before (.punct (byte '.') joint p :: rest) = true)
    (hdots : dots before = 0) :
    Follows before (.punct (byte '.') joint p :: rest) (dotAt joint rest) := by
  obtain ⟨ht, -, hrest⟩ := Token.everyL_cons.1 hcode
  by_cases hrun : rest.head?.any (·.isPunct '.') = true
  · obtain rfl : joint = true := by
      simp only [Token.isCode, Bool.and_eq_true] at ht
      have hjoint := ht.2
      rw [hrun] at hjoint
      simpa [Token.isPunct, Token.isJoint] using hjoint
    have hstep : dotAt true rest = (.nothing, rest.dropWhile (·.isPunct '.')) := by
      simp [dotAt, hrun]
    exact hstep ▸ follows_range hcode hrun
  by_cases hname : rest.head?.any (·.isName) = true
  · obtain ⟨text, q, after, rfl⟩ : ∃ text q after, rest = .ident text q :: after := by
      cases rest with
      | nil => simp at hname
      | cons t after =>
        obtain ⟨text, q, rfl⟩ := Token.exists_eq_of_isName (show t.isName = true from hname)
        exact ⟨text, q, after, rfl⟩
    have hone : dots (.punct (byte '.') joint p :: before) = 1 := by
      rw [Token.dots_dot, hdots]
    rw [dotAt_of_code (Token.everyL_cons.1 hrest).2.2]
    unfold applied
    split
    · refine Follows.applied hrest ?_
      rw [head?, if_pos hone]
    · rename_i hplain
      exact Follows.skipped hrest (Token.head?_not_paren hplain)
  · have hstep : dotAt joint rest = (.nothing, rest) := by
      unfold dotAt
      rw [if_neg (by simp [hrun])]
      split
      · simp [Token.isName] at hname
      · rfl
    rw [hstep]
    exact .nothing hrest ⟨fun h => absurd h hrun, fun h => absurd h hname⟩ rfl

theorem follows_word {before rest : List Token} {text : Bytes} {p : Pos}
    (hcode : everyL Token.isCode before (.ident text p :: rest) = true)
    (hdots : dots before ≠ 1) :
    Follows before (.ident text p :: rest) (word ⟨text, p⟩ rest) := by
  obtain ⟨ht, -, hrest⟩ := Token.everyL_cons.1 hcode
  rw [word_of_code ht]
  by_cases hkeyword : keywords.contains text = true
  · rw [if_pos hkeyword]
    refine .nothing hrest (.cons rfl) ?_
    have hhead : head? before (.ident text p) rest = none := by
      unfold head?
      split <;> simp_all
    rw [Token.headsL_leaf rfl, hhead]
    rfl
  · rw [if_neg hkeyword, pathCall_of_code hrest]
    unfold applied
    split
    · refine Follows.applied hcode ?_
      rw [head?, if_neg hdots, if_neg hkeyword]
    · rename_i hplain
      exact Follows.skipped hcode (Token.head?_not_paren hplain)

/-- **A step** recognises the calls of expression code. -/
theorem follows_step {before rest : List Token} {t : Token}
    (hcode : everyL Token.isCode before (t :: rest) = true) (hbound : Boundary before (t :: rest)) :
    Follows before (t :: rest) (step t rest) := by
  obtain ⟨ht, hinner, hrest⟩ := Token.everyL_cons.1 hcode
  cases t with
  | doc text p =>
    refine ⟨rfl, _, hrest, .cons rfl, fun _ _ => ?_⟩
    rw [Token.headsL_leaf rfl]
    rfl
  | group d inner p =>
    rw [Token.every_group] at hinner
    refine ⟨hinner, _, hrest, .cons rfl, fun nodes hnodes => ?_⟩
    rw [Token.headsL_group]
    exact congrArg (· ++ _) hnodes
  | literal text p => exact .nothing hrest (.cons rfl) rfl
  | ident text p => exact follows_word hcode (hbound.name rfl)
  | punct c joint p =>
    by_cases hdot : c = byte '.'
    · subst hdot
      exact follows_dotAt hcode (hbound.dot rfl)
    · have hstep : step (.punct c joint p) rest = (.nothing, rest) := by
        simp only [Token.isCode, Token.isPunct, Bool.and_eq_true, Bool.not_eq_true',
          beq_eq_false_iff_ne] at ht
        simp [step, hdot, ht.1.1.1.1]
      rw [hstep]
      exact .nothing hrest (.cons (by simpa [Token.isPunct] using hdot)) rfl

/-- **The outline of expression code** read behind other tokens. -/
theorem headsL_read {before ts : List Token} (hcode : everyL Token.isCode before ts = true)
    (hbound : Boundary before ts) : Node.headsL (read ts) = headsL before ts := by
  induction ts using read.induct generalizing before with
  | case1 => rw [read]; rfl
  | case2 t rest found ihInner =>
    rename_i ihRest
    obtain ⟨hinner, before', hbehind, hbound', hheads⟩ := follows_step hcode hbound
    rw [read_cons, Node.headsL_append, ihRest hbehind hbound']
    exact hheads _ (ihInner hinner (.of_dots rfl))

/-- **The outline of expression code.** In pre-order its nodes are the calls of the tokens and their
lines of documentation, one for each and in their order, and there are no other nodes. -/
theorem heads_of_code {ts : List Token} (h : everyL Token.isCode [] ts = true) :
    Node.headsL (read ts) =
      (Token.placesL [] ts).filterMap fun x => head? x.before x.token x.after :=
  headsL_read h (.of_dots rfl)

/-- The tokens of `f(a.g(), 0..h(1)) if (..)`. -/
def callsInCalls : List Token :=
  [.ident "f" ⟨1, 0⟩, .group .paren
      [.ident "a" ⟨1, 2⟩, .punct (byte '.') false ⟨1, 3⟩, .ident "g" ⟨1, 4⟩,
        .group .paren [] ⟨1, 5⟩, .punct (byte ',') false ⟨1, 7⟩, .literal "0" ⟨1, 9⟩,
        .punct (byte '.') true ⟨1, 10⟩, .punct (byte '.') false ⟨1, 11⟩, .ident "h" ⟨1, 12⟩,
        .group .paren [.literal "1" ⟨1, 14⟩] ⟨1, 13⟩] ⟨1, 1⟩,
    .ident "if" ⟨1, 18⟩, .group .paren
      [.punct (byte '.') true ⟨1, 22⟩, .punct (byte '.') false ⟨1, 23⟩] ⟨1, 21⟩]

theorem heads_of_code_callsInCalls :
    Node.headsL (read callsInCalls) =
      [.construct (.call ⟨⟨"f", ⟨1, 0⟩⟩, false, true⟩),
        .construct (.methodCall ⟨⟨"g", ⟨1, 4⟩⟩, false, false⟩),
        .construct (.call ⟨⟨"h", ⟨1, 12⟩⟩, false, true⟩)] :=
  (heads_of_code (by decide)).trans rfl

end Outline

end GetterRename
