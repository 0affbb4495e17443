import GetterRename.Proofs.Source.Outline

/-!
# Ordinary function definitions

The text of a function definition part by part, without macro metavariables, bounds, defaults or
attributes, and what the outline keeps of it: every generic parameter and every input is a part
between commas, and the return type is `bool` exactly where it says so.

* `Token.Joined` — parts with commas between them;
* `FnText` — the parts of a definition, `FnText.IsOrdinary` what may stand in them;
* `Angle.split_joined` — the parts are found again;
* `Outline.read_ordinary` — the outline of an ordinary definition.
-/

namespace GetterRename

open scoped List

/-! ### The text of a definition -/

namespace Angle

/-- Whether the angle brackets match, of which `depth` are open before the list, and commas stand
only inside them. -/
def balanced : Nat → List Token → Bool
  | depth, [] => depth == 0
  | depth, t :: ts =>
    if t.isPunct '<' then balanced (depth + 1) ts
    else if t.isPunct '>' then 0 < depth && balanced (depth - 1) ts
    else (0 < depth || !t.isPunct ',') && balanced depth ts

end Angle

namespace Token

/-- The tokens are the parts with commas between them. -/
inductive Joined : List (List Token) → List Token → Prop
  | one (part : List Token) : Joined [part] part
  | cons {comma : Token} {parts : List (List Token)} {ts : List Token} (part : List Token)
      (hcomma : comma.isPunct ',' = true) (h : Joined parts ts) :
      Joined (part :: parts) (part ++ comma :: ts)

def isTypeToken : Token → Bool
  | ident text _ => !(["self", "fn", "mut"].map Bytes.ofString).contains text
  | punct c _ _ => Bytes.ofString "&:<>," |>.contains c
  | _ => false

def isType (ts : List Token) : Bool :=
  ts.all isTypeToken && Angle.balanced 0 ts && ts.getLast?.any fun t => t.isName || t.isPunct '>'

/-- Whether the tokens are an input with a name and a type. -/
def isTyped : List Token → Bool
  | name :: colon :: type =>
    name.isName && !name.isIdent "self" && colon.isPunct ':' && isType type
  | _ => false

def isLifetime : List Token → Bool
  | [tick, name] => tick.isPunct '\'' && name.isName
  | _ => false

/-- A receiver by reference: `&self`, `&'a self`, `&mut self` or `&'a mut self`. -/
inductive SelfRef : List Token → Prop
  | mk {amp word : Token} {lifetime mutable : List Token} (hamp : amp.isPunct '&' = true)
      (hlifetime : lifetime = [] ∨ isLifetime lifetime = true)
      (hmutable : mutable = [] ∨ ∃ t, mutable = [t] ∧ t.isIdent "mut" = true)
      (hword : word.isIdent "self" = true) : SelfRef (amp :: (lifetime ++ mutable ++ [word]))

/-- Whether the tokens are a generic parameter: a name or a lifetime, and not the word `fn`. -/
def isGenericParam (ts : List Token) : Bool :=
  (isLifetime ts || ts.length == 1 && ts.all isName) && !ts.any (·.isIdent "fn")

inductive Generics : List (List Token) → List Token → Prop
  | none : Generics [] []
  | some {lt gt : Token} {params : List (List Token)} {inner : List Token}
      (hlt : lt.isPunct '<' = true) (hgt : gt.isPunct '>' = true) (hjoined : Joined params inner)
      (hparams : ∀ param ∈ params, isGenericParam param = true) :
      Generics params (lt :: (inner ++ [gt]))

inductive Inputs : List (List Token) → List Token → Prop
  | none : Inputs [] []
  | some {first : List Token} {rest : List (List Token)} {ts : List Token}
      (hjoined : Joined (first :: rest) ts) (hfirst : isTyped first = true ∨ SelfRef first)
      (hrest : ∀ input ∈ rest, isTyped input = true) : Inputs (first :: rest) ts

/-- Whether the tokens are a return type: `bool`, or one that does not begin with it. -/
def isResult : List Token → Bool
  | ident text _ :: ts =>
    if text = Bytes.ofString "bool" then ts.isEmpty
    else text ≠ Bytes.ofString "fn" && text ≠ Bytes.ofString "where"
  | group d _ _ :: _ => d ≠ .brace
  | _ => false

def isBool : List Token → Bool
  | [t] => t.isIdent "bool"
  | _ => false

end Token

/-- The parts of a function definition `fn name<generics>(inputs) -> result` and what ends it. -/
structure FnText where
  fnPos : Pos
  name : Ident
  generics : List Token
  inputs : List Token
  inputsPos : Pos
  dash : Token
  angle : Token
  result : List Token
  ending : Token

namespace FnText

def behind (f : FnText) : List Token := f.result ++ [f.ending]

def afterGenerics (f : FnText) : List Token :=
  .group .paren f.inputs f.inputsPos :: f.dash :: f.angle :: f.behind

def tokens (f : FnText) : List Token :=
  .ident (Bytes.ofString "fn") f.fnPos :: .ident f.name.text f.name.pos ::
    (f.generics ++ f.afterGenerics)

/-- The parts are those of an ordinary definition with these generic parameters and inputs. -/
structure IsOrdinary (f : FnText) (params inputs : List (List Token)) : Prop where
  generics : Token.Generics params f.generics
  inputs : Token.Inputs inputs f.inputs
  dash : f.dash.isPunct '-' = true
  angle : f.angle.isPunct '>' = true
  result : Token.isResult f.result = true
  ending : Outline.endsHeader f.ending = true

end FnText

/-! ### Parts between commas -/

namespace Token

theorem isPunct_eq_false {t : Token} {a b : Char} (h : t.isPunct a = true) (hab : byte a ≠ byte b) :
    t.isPunct b = false := by
  obtain ⟨joint, p, rfl⟩ := exists_eq_of_isPunct h
  simp [isPunct, hab]

theorem isName_of_isIdent {t : Token} {name : String} (h : t.isIdent name = true) :
    t.isName = true := by
  obtain ⟨p, rfl⟩ := exists_eq_of_isIdent h
  rfl

theorem isPunct_of_isName {t : Token} (h : t.isName = true) (a : Char) : t.isPunct a = false := by
  obtain ⟨text, p, rfl⟩ := exists_eq_of_isName h
  rfl

theorem exists_eq_of_isLifetime {ts : List Token} (h : isLifetime ts = true) :
    ∃ tick text p, ts = [tick, .ident text p] ∧ tick.isPunct '\'' = true := by
  unfold isLifetime at h
  split at h
  · rename_i tick name
    rw [Bool.and_eq_true] at h
    obtain ⟨text, p, rfl⟩ := exists_eq_of_isName h.2
    exact ⟨tick, text, p, rfl, h.1⟩
  · simp at h

end Token

namespace Angle

/-- The token has no part in the nesting of angle brackets, and is no comma. -/
structure IsPlain (t : Token) : Prop where
  lt : t.isPunct '<' = false
  gt : t.isPunct '>' = false
  comma : t.isPunct ',' = false
  arrow : isArrowHead t = false

theorem IsPlain.of_isPunct {t : Token} {a : Char} (h : t.isPunct a = true)
    (ha : (['<', '>', ',', '-', '='].all (byte a != byte ·)) = true) : IsPlain t := by
  have hno : ∀ b ∈ ['<', '>', ',', '-', '='], t.isPunct b = false := fun b hb =>
    Token.isPunct_eq_false h (bne_iff_ne.1 (List.all_eq_true.1 ha b hb))
  refine ⟨hno _ (by simp), hno _ (by simp), hno _ (by simp), ?_⟩
  simp [isArrowHead, hno '-' (by simp), hno '=' (by simp)]

theorem IsPlain.of_isName {t : Token} (h : t.isName = true) : IsPlain t where
  lt := Token.isPunct_of_isName h _
  gt := Token.isPunct_of_isName h _
  comma := Token.isPunct_of_isName h _
  arrow := by simp [isArrowHead, Token.isPunct_of_isName h]

theorem balanced_plain {xs : List Token} (h : ∀ t ∈ xs, IsPlain t) (depth : Nat) (ys : List Token) :
    balanced depth (xs ++ ys) = balanced depth ys := by
  induction xs with
  | nil => rfl
  | cons t ts ih =>
    have ht := h t List.mem_cons_self
    rw [List.cons_append, balanced, ht.lt, ht.gt, ht.comma,
      ih fun t' h' => h t' (List.mem_cons_of_mem t h')]
    simp

/-- The tokens stay together where a list is split at its commas. -/
structure IsPart (part : List Token) : Prop where
  nonempty : part ≠ []
  balanced : balanced 0 part = true
  arrow : ∀ t ∈ part, isArrowHead t = false

theorem IsPart.of_plain {part : List Token} (hne : part ≠ []) (h : ∀ t ∈ part, IsPlain t) :
    IsPart part where
  nonempty := hne
  balanced := by
    have := balanced_plain h 0 []
    rwa [List.append_nil] at this
  arrow := fun t ht => (h t ht).arrow

theorem splitFrom_balanced {last : Option Token} {depth : Nat} {xs : List Token}
    (hbalanced : balanced depth xs = true) (harrow : ∀ t ∈ xs, isArrowHead t = false)
    (hlast : last.any isArrowHead = false) (part ys : List Token) :
    ∃ last', last'.any isArrowHead = false ∧
      splitFrom ',' last depth part (xs ++ ys) = splitFrom ',' last' 0 (xs.reverse ++ part) ys := by
  induction xs generalizing last depth part with
  | nil =>
    obtain rfl : depth = 0 := by simpa [balanced] using hbalanced
    exact ⟨last, hlast, rfl⟩
  | cons t ts ih =>
    have ht := harrow t List.mem_cons_self
    obtain ⟨hstop, hrest⟩ : (depth = 0 && t.isPunct ',') = false ∧
        balanced (step last t depth) ts = true := by
      rw [balanced] at hbalanced
      unfold step
      by_cases hlt : t.isPunct '<' = true
      · rw [if_pos hlt] at hbalanced ⊢
        simp [hbalanced, Token.isPunct_eq_false hlt (b := ',') (by decide)]
      by_cases hgt : t.isPunct '>' = true
      · rw [if_neg hlt, if_pos hgt] at hbalanced
        rw [if_neg hlt, if_pos (by simp [hgt, hlast])]
        simp only [Bool.and_eq_true] at hbalanced
        simp [hbalanced.2, Token.isPunct_eq_false hgt (b := ',') (by decide)]
      · rw [if_neg hlt, if_neg hgt, Bool.and_eq_true] at hbalanced
        rw [if_neg hlt, if_neg (by simp [hgt])]
        refine ⟨?_, hbalanced.2⟩
        by_cases hdepth : depth = 0 <;> simp_all
    obtain ⟨last', hlast', hsplit⟩ := ih hrest (fun t' h' => harrow t' (List.mem_cons_of_mem t h'))
      (show (some t).any isArrowHead = false from ht) (t :: part)
    refine ⟨last', hlast', ?_⟩
    rw [List.cons_append, splitFrom, if_neg (by simp [hstop]), hsplit]
    simp

/-- **Parts with commas between them** are found again. -/
theorem split_joined {parts : List (List Token)} {ts : List Token} (h : Token.Joined parts ts)
    (hparts : ∀ part ∈ parts, IsPart part) : split ',' ts = parts := by
  suffices ∀ last : Option Token, last.any isArrowHead = false →
      splitFrom ',' last 0 [] ts = parts from this none rfl
  induction h with
  | one part =>
    intro last hlast
    have hpart := hparts part List.mem_cons_self
    obtain ⟨last', -, hsplit⟩ :=
      splitFrom_balanced hpart.balanced hpart.arrow hlast [] []
    rw [List.append_nil] at hsplit
    rw [hsplit, splitFrom]
    simp [hpart.nonempty]
  | @cons comma parts ts part hcomma _ ih =>
    intro last hlast
    have hpart := hparts part List.mem_cons_self
    obtain ⟨last', -, hsplit⟩ :=
      splitFrom_balanced hpart.balanced hpart.arrow hlast [] (comma :: ts)
    have hrest := ih (fun part h => hparts part (List.mem_cons_of_mem _ h)) (some comma)
      (by simp [isArrowHead, Token.isPunct_eq_false hcomma (b := '-') (by decide),
        Token.isPunct_eq_false hcomma (b := '=') (by decide)])
    rw [hsplit, splitFrom, if_pos (by simp [hcomma]), hrest]
    simp [hpart.nonempty]

end Angle

/-! ### The parts of a definition -/

namespace Token

open Angle (IsPart IsPlain)

theorem arrow_of_isTypeToken {t : Token} (h : t.isTypeToken = true) :
    Angle.isArrowHead t = false := by
  cases t with
  | punct c joint p =>
    have hno : ∀ b ∈ Bytes.ofString "&:<>,", b ≠ byte '-' ∧ b ≠ byte '=' := by
      decide +kernel
    obtain ⟨hdash, heq⟩ := hno c (by simpa [isTypeToken] using h)
    simp [Angle.isArrowHead, isPunct, hdash, heq]
  | _ => rfl

theorem isPart_of_isTyped {input : List Token} (h : isTyped input = true) : IsPart input := by
  unfold isTyped at h
  split at h
  · rename_i name colon type
    simp only [Bool.and_eq_true, isType] at h
    obtain ⟨⟨⟨hname, -⟩, hcolon⟩, ⟨htokens, hbalanced⟩, -⟩ := h
    have hplain : ∀ t ∈ [name, colon], IsPlain t := by
      simp only [List.mem_cons, List.not_mem_nil, or_false, forall_eq_or_imp, forall_eq]
      exact ⟨.of_isName hname, .of_isPunct hcolon (by decide)⟩
    refine ⟨nofun, ?_, ?_⟩
    · exact (Angle.balanced_plain hplain 0 type).trans hbalanced
    · intro t ht
      rcases List.mem_append.1 (show t ∈ [name, colon] ++ type from ht) with ht | ht
      · exact (hplain t ht).arrow
      · exact arrow_of_isTypeToken (List.all_eq_true.1 htokens t ht)
  · simp at h

theorem plain_of_isLifetime {ts : List Token} (h : isLifetime ts = true) : ∀ t ∈ ts, IsPlain t := by
  obtain ⟨tick, text, p, rfl, htick⟩ := exists_eq_of_isLifetime h
  simp only [List.mem_cons, List.not_mem_nil, or_false, forall_eq_or_imp, forall_eq]
  exact ⟨.of_isPunct htick (by decide), .of_isName rfl⟩

theorem isPart_of_selfRef {input : List Token} (h : SelfRef input) : IsPart input := by
  obtain ⟨hamp, hlifetime, hmutable, hword⟩ := h
  refine .of_plain nofun fun t ht => ?_
  simp only [List.mem_cons, List.mem_append, List.not_mem_nil, or_false] at ht
  rcases ht with rfl | (ht | ht) | rfl
  · exact .of_isPunct hamp (by decide)
  · rcases hlifetime with rfl | hlifetime
    · simp at ht
    · exact plain_of_isLifetime hlifetime t ht
  · rcases hmutable with rfl | ⟨word, rfl, hmut⟩
    · simp at ht
    · obtain rfl : t = word := by simpa using ht
      exact .of_isName (isName_of_isIdent hmut)
  · exact .of_isName (isName_of_isIdent hword)

theorem plain_of_isGenericParam {param : List Token} (h : isGenericParam param = true) :
    param ≠ [] ∧ ∀ t ∈ param, IsPlain t := by
  simp only [isGenericParam, Bool.and_eq_true, Bool.or_eq_true] at h
  rcases h.1 with hlifetime | ⟨hlength, hname⟩
  · refine ⟨?_, plain_of_isLifetime hlifetime⟩
    rintro rfl
    simp [isLifetime] at hlifetime
  · refine ⟨?_, fun t ht => .of_isName (List.all_eq_true.1 hname t ht)⟩
    rintro rfl
    simp at hlength

theorem Inputs.split {inputs : List (List Token)} {ts : List Token} (h : Inputs inputs ts) :
    Angle.split ',' ts = inputs := by
  cases h with
  | none => rfl
  | some hjoined hfirst hrest =>
    refine Angle.split_joined hjoined fun input hinput => ?_
    rcases List.mem_cons.1 hinput with rfl | hinput
    · exact hfirst.elim isPart_of_isTyped isPart_of_selfRef
    · exact isPart_of_isTyped (hrest input hinput)

theorem Inputs.isEmpty {inputs : List (List Token)} {ts : List Token} (h : Inputs inputs ts) :
    ts.isEmpty = inputs.isEmpty := by
  cases h with
  | none => rfl
  | @some first rest ts hjoined hfirst hrest =>
    have hne : first ≠ [] := (hfirst.elim isPart_of_isTyped isPart_of_selfRef).nonempty
    cases hjoined <;> simp [hne]

theorem isReceiver_of_isTyped {input : List Token} (h : isTyped input = true) :
    Signature.isReceiver input = false := by
  unfold isTyped at h
  split at h
  · rename_i name colon type
    simp only [Bool.and_eq_true, Bool.not_eq_true'] at h
    obtain ⟨⟨⟨hname, hself⟩, hcolon⟩, -⟩ := h
    have hcolon' : colon.isIdent "self" = false := by
      obtain ⟨joint, p, rfl⟩ := exists_eq_of_isPunct hcolon
      rfl
    have hdrop : Signature.dropRef (name :: colon :: type) = name :: colon :: type := by
      simp [Signature.dropRef, isPunct_of_isName hname]
    simp only [Signature.isReceiver, hdrop]
    split <;> simp [Signature.isSelf, hself, hcolon']
  · simp at h

theorem isReceiver_of_selfRef {input : List Token} (h : SelfRef input) :
    Signature.isReceiver input = true := by
  obtain ⟨hamp, hlifetime, hmutable, hword⟩ := h
  rename_i amp word lifetime mutable
  have hnotMut : word.isIdent "mut" = false := by
    obtain ⟨p, rfl⟩ := exists_eq_of_isIdent hword
    show (Bytes.ofString "self" == Bytes.ofString "mut") = false
    decide
  have hname := isName_of_isIdent hword
  have hdrop : Signature.dropRef (amp :: (lifetime ++ mutable ++ [word])) = mutable ++ [word] := by
    rcases hlifetime with rfl | hlifetime
    · rcases hmutable with rfl | ⟨t, rfl, hmut⟩
      · simp [Signature.dropRef, hamp]
      · simp [Signature.dropRef, hamp, isPunct_of_isName (isName_of_isIdent hmut)]
    · obtain ⟨tick, text, p, rfl, htick⟩ := exists_eq_of_isLifetime hlifetime
      simp [Signature.dropRef, hamp, htick]
  simp only [Signature.isReceiver, hdrop]
  rcases hmutable with rfl | ⟨t, rfl, hmut⟩
  · simp [Signature.isSelf, hword, hnotMut]
  · simp [Signature.isSelf, hword, hmut]

theorem Joined.forall_mem {P : Token → Prop} {parts : List (List Token)} {ts : List Token}
    (h : Joined parts ts) (hparts : ∀ part ∈ parts, ∀ t ∈ part, P t)
    (hcomma : ∀ t, t.isPunct ',' = true → P t) : ∀ t ∈ ts, P t := by
  induction h with
  | one part => exact hparts part List.mem_cons_self
  | @cons comma parts ts part hc _ ih =>
    intro t ht
    rcases List.mem_append.1 ht with ht | ht
    · exact hparts part List.mem_cons_self t ht
    rcases List.mem_cons.1 ht with rfl | ht
    · exact hcomma t hc
    · exact ih (fun part h => hparts part (List.mem_cons_of_mem _ h)) t ht

end Token

namespace Angle

theorem reach_open {last : Option Token} {xs : List Token} {gt : Token}
    (hxs : ∀ t ∈ xs, t.isPunct '<' = false ∧ t.isPunct '>' = false ∧ isArrowHead t = false)
    (hlast : last.any isArrowHead = false) (hgt : gt.isPunct '>' = true) (ys : List Token) :
    reach last 1 (xs ++ gt :: ys) = xs.length + 1 := by
  induction xs generalizing last with
  | nil =>
    have hstep : step last gt 1 = 0 := by
      simp [step, hgt, hlast, Token.isPunct_eq_false hgt (b := '<') (by decide)]
    simp [reach, hstep]
  | cons t ts ih =>
    obtain ⟨hlt, hgt', harrow⟩ := hxs t List.mem_cons_self
    have hstep : step last t 1 = 1 := by simp [step, hlt, hgt']
    have hlast' : (some t).any isArrowHead = false := harrow
    have := ih (fun t' h => hxs t' (List.mem_cons_of_mem t h)) hlast'
    simp [reach, hstep, this]

/-- What stands between the angle brackets of generic parameters. -/
theorem span_generics {lt gt : Token} {params : List (List Token)} {inner : List Token}
    (hlt : lt.isPunct '<' = true) (hgt : gt.isPunct '>' = true)
    (hjoined : Token.Joined params inner)
    (hparams : ∀ param ∈ params, Token.isGenericParam param = true) (after : List Token) :
    span (lt :: (inner ++ [gt]) ++ after) = (lt :: (inner ++ [gt]), after) := by
  have hinner : ∀ t ∈ inner,
      t.isPunct '<' = false ∧ t.isPunct '>' = false ∧ isArrowHead t = false := by
    refine hjoined.forall_mem (fun param hparam t ht => ?_) fun t ht => ?_
    · have hplain := (Token.plain_of_isGenericParam (hparams param hparam)).2 t ht
      exact ⟨hplain.lt, hplain.gt, hplain.arrow⟩
    · simp [isArrowHead, Token.isPunct_eq_false ht (b := '<') (by decide),
        Token.isPunct_eq_false ht (b := '>') (by decide),
        Token.isPunct_eq_false ht (b := '-') (by decide),
        Token.isPunct_eq_false ht (b := '=') (by decide)]
  have harrow : isArrowHead lt = false := by
    simp [isArrowHead, Token.isPunct_eq_false hlt (b := '-') (by decide),
      Token.isPunct_eq_false hlt (b := '=') (by decide)]
  have hreach : reach none 0 (lt :: (inner ++ [gt]) ++ after) = (lt :: (inner ++ [gt])).length := by
    have hopen := reach_open hinner (show (some lt).any isArrowHead = false from harrow) hgt after
    have hstep : step none lt 0 = 1 := by simp [step, hlt]
    simp [reach, hstep, hopen]
  rw [span, hreach, List.splitAt_eq, List.take_left, List.drop_left]

end Angle

namespace Outline

theorem generics_ordinary {params : List (List Token)} {ts : List Token}
    (h : Token.Generics params ts) {d : Delimiter} {inner after : List Token} {p : Pos} :
    generics (ts ++ .group d inner p :: after) = (params, .group d inner p :: after) := by
  cases h with
  | none => rfl
  | @some lt gt params inner hlt hgt hjoined hparams =>
    have hsplit := Angle.split_joined hjoined fun param hparam =>
      have hplain := Token.plain_of_isGenericParam (hparams param hparam)
      Angle.IsPart.of_plain hplain.1 hplain.2
    unfold generics
    rw [if_pos (by simpa using hlt), Angle.span_generics hlt hgt hjoined hparams]
    simp [hsplit]

theorem endsType_of_endsHeader {t : Token} (h : endsHeader t = true) : endsType t = true := by
  rw [endsHeader, Bool.or_eq_true] at h
  rcases h with h | h <;> simp [endsType, endsImplType, h]

theorem endsType_of_isResult {t : Token} {ts : List Token} (h : Token.isResult (t :: ts) = true) :
    endsType t = false := by
  cases t with
  | ident text p =>
    have hwhere : text ≠ Bytes.ofString "where" := by
      rintro rfl
      rw [Token.isResult, if_neg (by decide)] at h
      simp at h
    simp [endsType, endsImplType, Token.isGroupOf, Token.isIdent, Token.isPunct, hwhere]
  | group d inner p =>
    have hbrace : d ≠ .brace := by simpa [Token.isResult] using h
    simp [endsType, endsImplType, Token.isGroupOf, Token.isIdent, Token.isPunct, hbrace]
  | _ => simp [Token.isResult] at h

/-- **The return type** is `bool` where it says so. -/
theorem returnsBool_spanUntil {result : List Token} {ending : Token} (sig : Signature)
    (hresult : Token.isResult result = true) (hending : endsHeader ending = true)
    (hsig : sig.output = (Angle.spanUntil endsType (result ++ [ending])).1) :
    sig.returnsBool = Token.isBool result := by
  obtain - | ⟨t, ts⟩ := result
  · simp [Token.isResult] at hresult
  have hgoes : Angle.lengthUntil endsType none 0 (t :: ts ++ [ending]) =
      Angle.lengthUntil endsType (some t) (Angle.step none t 0) (ts ++ [ending]) + 1 := by
    simp [Angle.lengthUntil, endsType_of_isResult hresult]
  rw [Angle.spanUntil, hgoes, List.splitAt_eq] at hsig
  by_cases hbool : t.isIdent "bool" = true
  · obtain ⟨p, rfl⟩ := Token.exists_eq_of_isIdent hbool
    obtain rfl : ts = [] := by simpa [Token.isResult] using hresult
    have hstop : Angle.lengthUntil endsType (some (.ident (Bytes.ofString "bool") p))
        (Angle.step none (.ident (Bytes.ofString "bool") p) 0) [ending] = 0 := by
      simp [Angle.lengthUntil, Angle.step, Token.isPunct, endsType_of_endsHeader hending]
    rw [List.nil_append, hstop] at hsig
    simp [Signature.returnsBool, hsig, Token.isBool]
  · have hno : Token.isBool (t :: ts) = false := by
      cases ts <;> simp_all [Token.isBool]
    rw [hno, Signature.returnsBool, hsig]
    simp only [List.cons_append, List.take_succ_cons]
    split
    · rename_i t' heq
      obtain rfl : t = t' := (List.cons.inj heq).1
      simpa using hbool
    · rfl

/-- **An ordinary definition** is read as one construct with its parameters and inputs; what stands
inside it and behind it comes from behind the arrow. -/
theorem fnAt_ordinary {f : FnText} {params inputs : List (List Token)}
    (h : f.IsOrdinary params inputs) :
    ∃ out body after,
      fnAt f.name (f.generics ++ f.afterGenerics) =
        (.construct (.fn ⟨f.name, params, inputs, out⟩) body, after) ∧
      Signature.returnsBool ⟨f.name, params, inputs, out⟩ = Token.isBool f.result ∧
      Token.safeNamesL body ++ Token.safeNamesL after <+ Token.safeNamesL f.behind := by
  have houtput : output (f.dash :: f.angle :: f.behind) = Angle.spanUntil endsType f.behind := by
    simp [output, h.dash, h.angle]
  have hbehind : skipWhere (Angle.spanUntil endsType f.behind).2 <:+ f.behind :=
    (skipWhere_suffix _).trans (spanUntil_suffix _ _)
  unfold fnAt
  rw [FnText.afterGenerics, generics_ordinary h.generics]
  simp only [houtput, h.inputs.split]
  split
  · rename_i body q after hwhere
    rw [hwhere] at hbehind
    exact ⟨_, _, _, rfl, returnsBool_spanUntil _ h.result h.ending rfl,
      Token.safeNamesL_group_sublist hbehind⟩
  · rename_i t after _ hwhere
    rw [hwhere] at hbehind
    refine ⟨_, _, _, rfl, returnsBool_spanUntil _ h.result h.ending rfl, ?_⟩
    rw [Token.safeNamesL_nil, List.nil_append]
    split
    · exact Token.safeNamesL_sublist_of_suffix ((List.suffix_cons t after).trans hbehind)
    · exact Token.safeNamesL_sublist_of_suffix hbehind
  · exact ⟨_, _, _, rfl, returnsBool_spanUntil _ h.result h.ending rfl, by simp⟩

theorem step_fn (p : Pos) (name : Bytes) (q : Pos) (rest : List Token) :
    step (.ident (Bytes.ofString "fn") p) (.ident name q :: rest) = fnAt ⟨name, q⟩ rest := by
  have hmacro : macroUse? ⟨Bytes.ofString "fn", p⟩ (.ident name q :: rest) = none := by
    unfold macroUse?
    split
    · rename_i heq
      obtain rfl := (List.cons.inj heq).1
      rw [if_neg (by simp [Token.isPunct])]
    · rename_i heq
      obtain rfl := (List.cons.inj heq).1
      rw [if_neg (by simp [Token.isPunct])]
    · rfl
  have hqualifiers : skipQualifiers (.ident (Bytes.ofString "fn") p :: .ident name q :: rest) =
      .ident (Bytes.ofString "fn") p :: .ident name q :: rest := by
    have hsize : qualifierSize (.ident (Bytes.ofString "fn") p) (.ident name q :: rest) = 0 := rfl
    rw [skipQualifiers, skipQualifiersFrom, hsize]
  have hitem : item? (.ident (Bytes.ofString "fn") p) (.ident name q :: rest) =
      some (fnAt ⟨name, q⟩ rest) := rfl
  simp [step, word, hmacro, hqualifiers, hitem]

theorem read_ordinary {f : FnText} {params inputs : List (List Token)}
    (h : f.IsOrdinary params inputs) :
    ∃ sig inside after,
      read f.tokens = .construct (.fn sig) inside :: after ∧
      sig.name = f.name ∧ sig.generics = params ∧ sig.inputs = inputs ∧
      sig.returnsBool = Token.isBool f.result ∧
      Node.namesL inside ++ Node.namesL after <+ Token.safeNamesL f.behind := by
  obtain ⟨out, body, after, hfn, hbool, hnames⟩ := fnAt_ordinary h
  refine ⟨_, read body, read after, ?_, rfl, rfl, rfl, hbool,
    ((namesL_read_sublist body).append (namesL_read_sublist after)).trans hnames⟩
  rw [FnText.tokens, read, step_fn, hfn]
  rfl

end Outline

end GetterRename
