import GetterRename.Proofs.Source.Names
import GetterRename.Source.Outline

/-!
# The names of an outline

A step of reading takes names from the head of a token list and leaves the rest of the list, so the
names of an outline are safe names of its tokens, in the same order and none of them twice.  What is
called or defined is always followed by a group or by angle brackets, never by a hazard.

* `Node.namesL` — the names in an outline that may be renamed, in order;
* `Outline.Keeps` — a step takes names and leaves tokens in their order;
* `Outline.keeps_step`, `Outline.namesL_read_sublist` — one step, and a whole outline.
-/

namespace GetterRename

open scoped List

/-- The name that a construct defines or calls. -/
def Construct.names : Construct → List Ident
  | fn sig => [sig.name]
  | methodCall c | call c => [c.name]
  | _ => []

namespace Node

mutual

def names : Node → List Ident
  | doc _ => []
  | macroUse use => Token.safeNamesL use.tokens
  | construct head inside => head.names ++ namesL inside

def namesL : List Node → List Ident
  | [] => []
  | n :: ns => names n ++ namesL ns

end

@[simp] theorem namesL_nil : namesL [] = [] := rfl

@[simp] theorem namesL_cons (n : Node) (ns : List Node) : namesL (n :: ns) = names n ++ namesL ns :=
  rfl

@[simp] theorem namesL_append (xs ys : List Node) : namesL (xs ++ ys) = namesL xs ++ namesL ys := by
  induction xs with
  | nil => rfl
  | cons n ns ih => simp [ih]

end Node

/-- The names that a step takes itself. -/
def Step.names : Step → List Ident
  | nothing | transparent _ => []
  | leaves nodes => Node.namesL nodes
  | construct head _ => head.names

namespace Outline

open Token (safeNamesL)

/-- The names that a step takes, those inside what it recognises and those behind it are safe names
of the list, in order. -/
def Keeps (r : Step × List Token) (ts : List Token) : Prop :=
  r.1.names ++ safeNamesL r.1.inside ++ safeNamesL r.2 <+ safeNamesL ts

namespace Keeps

theorem of_suffix {r : Step × List Token} {ts ts' : List Token} (h : Keeps r ts) (hs : ts <:+ ts') :
    Keeps r ts' :=
  h.trans (Token.safeNamesL_sublist_of_suffix hs)

theorem nothing {after ts : List Token} (h : after <:+ ts) : Keeps (.nothing, after) ts := by
  simpa [Keeps, Step.names, Step.inside] using Token.safeNamesL_sublist_of_suffix h

theorem block {head : Construct} {d : Delimiter} {inner after ts : List Token} {p : Pos}
    (hn : head.names = []) (h : .group d inner p :: after <:+ ts) :
    Keeps (.construct head inner, after) ts := by
  simpa [Keeps, Step.names, Step.inside, hn] using Token.safeNamesL_group_sublist h

theorem named {head : Construct} {name : Bytes} {p : Pos} {inside after rest : List Token}
    (hn : head.names = [⟨name, p⟩]) (hnext : rest.head?.any Token.isHazard = false)
    (h : safeNamesL inside ++ safeNamesL after <+ safeNamesL rest) :
    Keeps (.construct head inside, after) (.ident name p :: rest) := by
  rw [Keeps, Step.names, Step.inside, hn, Token.safeNamesL_cons, Token.safeNames_ident hnext,
    List.append_assoc]
  exact (List.Sublist.refl _).append h

end Keeps

/-! ### What is left behind -/

theorem span_suffix (ts : List Token) : (Angle.span ts).2 <:+ ts := by
  rw [Angle.span, List.splitAt_eq]
  exact List.drop_suffix _ _

theorem spanUntil_suffix (stop : Token → Bool) (ts : List Token) :
    (Angle.spanUntil stop ts).2 <:+ ts := by
  rw [Angle.spanUntil, List.splitAt_eq]
  exact List.drop_suffix _ _

theorem turbofish_suffix (ts : List Token) : (turbofish ts).2 <:+ ts := by
  unfold turbofish
  split
  · rename_i a b c rest
    split
    · exact (span_suffix _).trans ((List.suffix_cons b _).trans (List.suffix_cons a _))
    · exact List.suffix_refl _
  · exact List.suffix_refl _

theorem generics_suffix (ts : List Token) : (generics ts).2 <:+ ts := by
  unfold generics
  split
  · exact span_suffix ts
  · exact List.suffix_refl _

theorem output_suffix (ts : List Token) : (output ts).2 <:+ ts := by
  unfold output
  split
  · rename_i a b rest
    split
    · exact (spanUntil_suffix _ rest).trans ((List.suffix_cons b _).trans (List.suffix_cons a _))
    · exact List.suffix_refl _
  · exact List.suffix_refl _

theorem skipWhere_suffix (ts : List Token) : skipWhere ts <:+ ts := by
  unfold skipWhere
  split
  · exact List.dropWhile_suffix _
  · exact List.suffix_refl _

theorem declared?_suffix {ts rest : List Token} {name : Bytes}
    (h : declared? ts = some (name, rest)) : rest <:+ ts := by
  unfold declared? at h
  split at h
  · split at h
    · obtain ⟨-, rfl⟩ := Prod.mk.inj (Option.some.inj h)
      exact (List.suffix_cons _ _).trans (List.suffix_cons _ _)
    · simp at h
  · simp at h

theorem skipForeign_suffix (rest : List Token) : skipForeign rest <:+ rest := by
  unfold skipForeign
  have hdrop : ∀ ts : List Token, ts.drop 1 <:+ ts := fun ts => List.drop_suffix _ _
  have hfirst : (if rest.head?.any (·.isLiteral) then rest.drop 1 else rest) <:+ rest := by
    split
    · exact hdrop rest
    · exact List.suffix_refl _
  simp only
  generalize (if rest.head?.any (·.isLiteral) then rest.drop 1 else rest) = ts at hfirst
  split
  · exact (hdrop ts).trans hfirst
  · exact hfirst

theorem isHazard_of_isPunct {t : Token} {c : Char} (h : t.isPunct c = true)
    (hc : byte c ≠ byte '#' ∧ byte c ≠ byte '\'') : t.isHazard = false := by
  obtain ⟨joint, p, rfl⟩ := Token.exists_eq_of_isPunct h
  simp [Token.isHazard, hc]

/-- In front of the arguments of a call no hazard stands behind its name. -/
theorem turbofish_safe {ts after inner : List Token} {d : Delimiter} {p : Pos}
    (h : (turbofish ts).2 = .group d inner p :: after) : ts.head?.any Token.isHazard = false := by
  unfold turbofish at h
  split at h
  · rename_i a b c rest
    split at h
    · rename_i hcond
      simp only [Bool.and_eq_true] at hcond
      exact isHazard_of_isPunct hcond.1.1 (by decide)
    · obtain ⟨rfl, -⟩ := List.cons.inj h
      rfl
  · obtain rfl := h
    rfl

theorem generics_safe {ts after inner : List Token} {d : Delimiter} {p : Pos}
    (h : (generics ts).2 = .group d inner p :: after) : ts.head?.any Token.isHazard = false := by
  unfold generics at h
  split at h
  · rename_i hlt
    cases ts with
    | nil => rfl
    | cons t ts => exact isHazard_of_isPunct hlt (by decide)
  · obtain rfl := h
    rfl

/-! ### Steps -/

theorem keeps_attributeAt (rest : List Token) : Keeps (attributeAt rest) rest := by
  have hdocs : ∀ content : List Token, Node.namesL (attributeDocs content) = [] := by
    intro content
    have hall : ∀ ns : List Node, (∀ n ∈ ns, ∃ line, n = .doc line) → Node.namesL ns = [] := by
      intro ns hns
      induction ns with
      | nil => rfl
      | cons n ns ih =>
        obtain ⟨⟨line, rfl⟩, hrest⟩ := List.forall_mem_cons.1 hns
        simp [Node.names, ih hrest]
    apply hall
    intro n hn
    unfold attributeDocs at hn
    split at hn
    · split at hn
      · obtain ⟨i, hi, rfl⟩ := List.mem_mapIdx.1 hn
        exact ⟨_, rfl⟩
      · simp at hn
    · simp at hn
  have hbody : (if rest.head?.any (·.isPunct '!') then rest.drop 1 else rest) <:+ rest := by
    split
    · exact List.drop_suffix _ _
    · exact List.suffix_refl _
  unfold attributeAt
  simp only
  generalize (if rest.head?.any (·.isPunct '!') then rest.drop 1 else rest) = body at hbody
  split
  · rename_i content p after
    have hs := Token.safeNamesL_sublist_of_suffix ((List.suffix_cons _ after).trans hbody)
    simpa [Keeps, Step.names, Step.inside, hdocs] using hs
  · exact .nothing (List.suffix_refl _)

theorem keeps_dotAt (joint : Bool) (rest : List Token) : Keeps (dotAt joint rest) rest := by
  unfold dotAt
  split
  · exact .nothing (List.dropWhile_suffix _)
  split
  · rename_i name p after _
    simp only
    split
    · rename_i args q behind hfish
      refine .named rfl (turbofish_safe hfish) ?_
      exact Token.safeNamesL_group_sublist (hfish ▸ turbofish_suffix after)
    · exact .nothing ((turbofish_suffix after).trans (List.suffix_cons _ _))
  · exact .nothing (List.suffix_refl _)

theorem keeps_pathCall (name : Bytes) (p : Pos) (rest : List Token) :
    Keeps (pathCall ⟨name, p⟩ rest) (.ident name p :: rest) := by
  unfold pathCall
  simp only
  split
  · rename_i args q behind hfish
    refine .named rfl (turbofish_safe hfish) ?_
    exact Token.safeNamesL_group_sublist (hfish ▸ turbofish_suffix rest)
  · exact .nothing (List.suffix_cons _ _)

theorem keeps_fnAt (name : Bytes) (p : Pos) (rest : List Token) :
    Keeps (fnAt ⟨name, p⟩ rest) (.ident name p :: rest) := by
  unfold fnAt
  simp only
  have hg := generics_suffix rest
  split
  · rename_i inputs q after hgen
    rw [hgen] at hg
    have hbehind : skipWhere (output after).2 <:+ rest :=
      ((skipWhere_suffix _).trans (output_suffix after)).trans
        ((List.suffix_cons _ after).trans hg)
    have hnext := generics_safe hgen
    split
    · rename_i body q' behind hwhere
      rw [hwhere] at hbehind
      exact .named rfl hnext (Token.safeNamesL_group_sublist hbehind)
    · rename_i t behind _ hwhere
      rw [hwhere] at hbehind
      refine .named rfl hnext ?_
      rw [Token.safeNamesL_nil, List.nil_append]
      split
      · exact Token.safeNamesL_sublist_of_suffix ((List.suffix_cons t behind).trans hbehind)
      · exact Token.safeNamesL_sublist_of_suffix hbehind
    · refine .named rfl hnext ?_
      simp
  · exact .nothing (hg.trans (List.suffix_cons _ _))

theorem keeps_implAt (rest : List Token) : Keeps (implAt rest) rest := by
  unfold implAt
  simp only
  have hbehind := ((List.dropWhile_suffix (!endsHeader ·)).trans
    (spanUntil_suffix endsImplType (generics rest).2)).trans (generics_suffix rest)
  split
  · rename_i items q after hblock
    rw [hblock] at hbehind
    split
    · exact .nothing (List.suffix_refl _)
    · refine .block ?_ hbehind
      unfold implHead
      split <;> rfl
  · exact .nothing (List.suffix_refl _)

theorem keeps_traitAt (name : Bytes) (rest : List Token) : Keeps (traitAt name rest) rest := by
  unfold traitAt
  have hbehind : rest.dropWhile (!endsHeader ·) <:+ rest := List.dropWhile_suffix _
  split
  · rename_i hblock
    rw [hblock] at hbehind
    exact .block rfl hbehind
  · exact .nothing ((List.drop_suffix _ _).trans hbehind)

theorem keeps_moduleAt (name : Bytes) (rest : List Token) : Keeps (moduleAt name rest) rest := by
  unfold moduleAt
  split
  · exact .block rfl (List.suffix_refl _)
  · exact .nothing (List.suffix_refl _)

/-- A value and what follows it: the semicolon between them is no hazard. -/
theorem safeNamesL_value (ts : List Token) :
    safeNamesL (value ts).1 ++ safeNamesL (value ts).2 <+ safeNamesL ts := by
  unfold value
  split
  · simp only
    rw [← Token.safeNamesL_append, List.takeWhile_append_dropWhile]
    · exact Token.safeNamesL_sublist_of_suffix (List.drop_suffix _ _)
    · have hhead := List.head?_dropWhile_not (!Token.isPunct ';' ·) (ts.drop 1)
      cases hd : ((ts.drop 1).dropWhile (!Token.isPunct ';' ·)).head? with
      | none => rfl
      | some t =>
        rw [hd] at hhead
        exact isHazard_of_isPunct (by simpa using hhead) (by decide)
  · simp

theorem keeps_constantAt (name : Bytes) (isStatic : Bool) (rest : List Token) :
    Keeps (constantAt name isStatic rest) rest := by
  unfold constantAt
  simp only [Keeps, Step.names, Step.inside, Construct.names, List.nil_append]
  refine List.Sublist.trans ?_ ((safeNamesL_value (Angle.spanUntil endsType rest).2).trans
    (Token.safeNamesL_sublist_of_suffix (spanUntil_suffix endsType rest)))
  refine (List.Sublist.refl _).append ?_
  split
  · exact Token.safeNamesL_sublist_of_suffix (List.drop_suffix _ _)
  · exact List.Sublist.refl _

theorem item?_cases {t : Token} {rest : List Token} {found : Step × List Token}
    (h : item? t rest = some found) :
    (∃ name p after, rest = .ident name p :: after ∧
      (found = fnAt ⟨name, p⟩ after ∨ found = traitAt name after ∨ found = moduleAt name after)) ∨
    found = implAt rest ∨
    (∃ name isStatic after, after <:+ rest ∧ found = constantAt name isStatic after) ∨
    ∃ after, after <:+ rest ∧ found = (.nothing, after) := by
  have hconstant : ∀ {isStatic : Bool} {ts : List Token}, ts <:+ rest →
      (declared? ts).map (fun d => constantAt d.1 isStatic d.2) = some found →
      ∃ name isStatic after, after <:+ rest ∧ found = constantAt name isStatic after := by
    intro isStatic ts hts hdeclared
    obtain ⟨⟨name, after⟩, hd, rfl⟩ := Option.map_eq_some_iff.1 hdeclared
    exact ⟨name, isStatic, after, (declared?_suffix hd).trans hts, rfl⟩
  unfold item? at h
  split at h
  · split at h
    · exact .inl ⟨_, _, _, rfl, .inl (Option.some.inj h).symm⟩
    · simp at h
  split at h
  · exact .inr (.inl (Option.some.inj h).symm)
  split at h
  · split at h
    · exact .inl ⟨_, _, _, rfl, .inr (.inl (Option.some.inj h).symm)⟩
    · simp at h
  split at h
  · split at h
    · exact .inl ⟨_, _, _, rfl, .inr (.inr (Option.some.inj h).symm)⟩
    · simp at h
  split at h
  · exact .inr (.inr (.inl (hconstant (List.suffix_refl _) h)))
  split at h
  · split at h
    · exact .inr (.inr (.inl (hconstant (List.drop_suffix _ _) h)))
    · exact .inr (.inr (.inl (hconstant (List.suffix_refl _) h)))
  split at h
  · split at h
    · exact .inr (.inr (.inr ⟨_, List.suffix_cons _ _, (Option.some.inj h).symm⟩))
    · simp at h
  split at h
  · exact .inr (.inr (.inr ⟨_, (List.drop_suffix _ _).trans (List.dropWhile_suffix _),
      (Option.some.inj h).symm⟩))
  split at h
  · exact .inr (.inr (.inr ⟨_, skipForeign_suffix rest, (Option.some.inj h).symm⟩))
  · simp at h

theorem keeps_item? {t : Token} {rest : List Token} {r : Step × List Token}
    (h : item? t rest = some r) : Keeps r rest := by
  rcases item?_cases h with ⟨name, p, after, rfl, hnamed⟩ | rfl | ⟨name, isStatic, after, hs, rfl⟩ |
    ⟨after, hs, rfl⟩
  · rcases hnamed with rfl | rfl | rfl
    · exact keeps_fnAt name p after
    · exact (keeps_traitAt name after).of_suffix (List.suffix_cons _ _)
    · exact (keeps_moduleAt name after).of_suffix (List.suffix_cons _ _)
  · exact keeps_implAt rest
  · exact (keeps_constantAt name isStatic after).of_suffix hs
  · exact .nothing hs

theorem keeps_macroUse? {word : Ident} {rest : List Token} {r : Step × List Token}
    (h : macroUse? word rest = some r) : Keeps r rest := by
  have hbody : ∀ {use : MacroUse} {d : Delimiter} {q : Pos} {after : List Token},
      .group d use.tokens q :: after <:+ rest → Keeps (.leaves [.macroUse use], after) rest := by
    intro use d q after hs
    simpa [Keeps, Step.names, Step.inside, Node.names] using Token.safeNamesL_group_sublist hs
  unfold macroUse? at h
  split at h
  · split at h
    · obtain rfl := Option.some.inj h
      exact hbody ((List.suffix_cons _ _).trans (List.suffix_cons _ _))
    · simp at h
  · split at h
    · obtain rfl := Option.some.inj h
      exact hbody (List.suffix_cons _ _)
    · simp at h
  · simp at h

theorem keeps_word (name : Bytes) (p : Pos) (rest : List Token) :
    Keeps (word ⟨name, p⟩ rest) (.ident name p :: rest) := by
  unfold word
  split
  · rename_i h
    exact (keeps_macroUse? h).of_suffix (List.suffix_cons _ _)
  have hs := skipQualifiers_suffix (.ident name p :: rest)
  simp only
  split
  · rename_i found hf
    cases hq : skipQualifiers (.ident name p :: rest) with
    | nil => simp [hq] at hf
    | cons t ts =>
      simp only [hq, List.head?_cons, Option.bind_some, List.drop_succ_cons, List.drop_zero] at hf
      rw [hq] at hs
      exact (keeps_item? hf).of_suffix ((List.suffix_cons t ts).trans hs)
  · split
    · exact .nothing hs
    split
    · exact .nothing (List.suffix_cons _ _)
    · exact keeps_pathCall name p rest

/-- **A step keeps the order of names.** -/
theorem keeps_step (t : Token) (rest : List Token) : Keeps (step t rest) (t :: rest) := by
  have hcons := List.suffix_cons t rest
  unfold step
  split
  · simp [Keeps, Step.names, Step.inside, Node.names]
  · simp [Keeps, Step.names, Step.inside]
  · split
    · exact (keeps_attributeAt rest).of_suffix hcons
    split
    · exact (keeps_dotAt _ rest).of_suffix hcons
    · exact .nothing hcons
  · exact keeps_word _ _ rest
  · exact .nothing hcons

theorem namesL_nodes (s : Step) (inner : List Node) (h : s.inside = [] → inner = []) :
    Node.namesL (s.nodes inner) = s.names ++ Node.namesL inner := by
  cases s with
  | nothing => simp [Step.nodes, Step.names, h rfl]
  | leaves nodes => simp [Step.nodes, Step.names, h rfl]
  | transparent tokens => simp [Step.nodes, Step.names]
  | construct head tokens => simp [Step.nodes, Step.names, Node.names]

/-- **The names of an outline** are safe names of its tokens, in order. -/
theorem namesL_read_sublist (tokens : List Token) : Node.namesL (read tokens) <+ safeNamesL tokens := by
  induction tokens using read.induct with
  | case1 => simp [read]
  | case2 t rest found ihInner ihRest =>
    rw [read, Node.namesL_append, namesL_nodes]
    · exact ((((List.Sublist.refl _).append ihInner).append ihRest)).trans (keeps_step t rest)
    · intro h
      rw [h, read]

end Outline

end GetterRename
