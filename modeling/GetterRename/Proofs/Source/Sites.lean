import GetterRename.Proofs.Source.Names

/-!
# Identifiers and what stands around them

The identifiers of token trees in the order of the text, each with its neighbours in the list that
holds it, with the last word before it in the text, whatever list that one is in, and with what
comes behind the groups around it.

* `Site` — an identifier in its place;
* `Token.sitesL`, `Token.sitesOf` — the identifiers of a list of token trees;
* `Token.safeNamesL_eq_sites` — the safe names are those of the safe sites.
-/

namespace GetterRename

/-- An identifier of token trees and what stands around it. -/
structure Site where
  name : Ident
  /-- The closest identifier or literal before it, in any list. -/
  word : Option Token
  /-- The token before it in its list. -/
  before : Option Token
  /-- The tokens behind it in its list. -/
  after : List Token
  /-- The tokens behind the closing delimiters of the groups around it, from the inside out. -/
  behind : List Token

namespace Site

/-- No hazard stands right behind the identifier. -/
def isSafe (s : Site) : Bool := !s.after.head?.any Token.isHazard

/-- The identifier names a metavariable: a `$` stands right before it. -/
def isMetavariable (s : Site) : Bool := s.before.any (·.isPunct '$')

end Site

namespace Token

mutual

/-- The closest identifier or literal before the end of a token tree. -/
def lastWord (word : Option Token) : Token → Option Token
  | ident text p => some (ident text p)
  | literal text p => some (literal text p)
  | group _ tokens _ => lastWordL word tokens
  | _ => word

/-- The closest identifier or literal before the end of a list of token trees. -/
def lastWordL (word : Option Token) : List Token → Option Token
  | [] => word
  | t :: ts => lastWordL (lastWord word t) ts

end

mutual

/-- The identifiers of a token tree that stands between `before` and `after`, inside groups that
`behind` comes after. -/
def sites (behind : List Token) (word before : Option Token) (after : List Token) :
    Token → List Site
  | ident text p => [⟨⟨text, p⟩, word, before, after, behind⟩]
  | group _ tokens _ => sitesL (after ++ behind) word none tokens
  | _ => []

/-- The identifiers of a list of token trees behind `before`. -/
def sitesL (behind : List Token) (word before : Option Token) : List Token → List Site
  | [] => []
  | t :: ts => sites behind word before ts t ++ sitesL behind (lastWord word t) (some t) ts

end

def sitesOf (ts : List Token) : List Site := sitesL [] none none ts

def isDoc : Token → Bool
  | doc _ _ => true
  | _ => false

@[simp] theorem lastWord_group (word : Option Token) (d : Delimiter) (ts : List Token) (p : Pos) :
    lastWord word (group d ts p) = lastWordL word ts := by
  simp [lastWord]

@[simp] theorem sites_group (behind : List Token) (word before : Option Token)
    (after : List Token) (d : Delimiter) (ts : List Token) (p : Pos) :
    sites behind word before after (group d ts p) = sitesL (after ++ behind) word none ts := by
  simp [sites]

theorem safeNamesL_eq_sites (behind : List Token) (word before : Option Token) (ts : List Token) :
    safeNamesL ts = ((sitesL behind word before ts).filter Site.isSafe).map Site.name := by
  induction ts using inductionL generalizing behind word before with
  | nil => rfl
  | leaf t ts ht ih =>
    rw [safeNamesL_cons, sitesL, List.filter_append, List.map_append, ← ih]
    congr 1
    cases t with
    | ident text p => cases h : ts.head?.any isHazard <;> simp [safeNames, sites, Site.isSafe, h]
    | group d inner p => simp [isGroup] at ht
    | _ => simp [safeNames, sites]
  | group d inner p ts ihInner ih =>
    rw [safeNamesL_cons, sitesL, List.filter_append, List.map_append, ← ih, safeNames_group,
      sites_group, ← ihInner]

end Token

end GetterRename
