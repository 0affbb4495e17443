import GetterRename.Getter.DefinitionMatcher
import GetterRename.Proofs.Getter.Trace

/-!
# Definitions in a token stream

The definition matcher takes the first identifier behind the word `fn` for the name of a function,
with nothing but punctuation, documentation and delimiters between them.  From there on it holds
back the candidate until a token completes the definition or drops it; right behind the name a
hazard drops it.

* `DefinitionMatcher.Settles` — what a token does to the candidate held back;
* `DefinitionMatcher.Found` — a rename of the definition matcher and its site;
* `DefinitionMatcher.fn_of_runL` — the word `fn` in front of a name;
* `DefinitionMatcher.advances_runL` — a run of the definition matcher.
-/

namespace GetterRename.DefinitionMatcher

/-! ### Candidates held back -/

namespace State

def holding (ctx : Context) (ts : List Token) : State → Holding
  | pending phase cand _ => some fun s =>
    cand.Of ctx s.name ∧ s.word.any (·.isIdent "fn") = true ∧
      (s.isSafe = true ∨ phase = .named ∧ s.after = ts)
  | _ => none

theorem holding_nil (ctx : Context) (ts : List Token) (state : State) :
    state.holding ctx [] = none ∧ state.holding ctx ts = none ∨
      ∃ P P', state.holding ctx [] = some P ∧ state.holding ctx ts = some P' ∧ ∀ s, P s → P' s := by
  cases state with
  | pending phase cand depth =>
    refine .inr ⟨_, _, rfl, rfl, ?_⟩
    rintro s ⟨hof, hfn, hsafe⟩
    refine ⟨hof, hfn, .inl (hsafe.elim id fun hnil => ?_)⟩
    simp [Site.isSafe, hnil.2]
  | _ => exact .inl ⟨rfl, rfl⟩

end State

/-- The rename is that of a name behind the word `fn` in a token stream. -/
structure Found (ctx : Context) (r : Rename) (s : Site) : Prop extends r.InStream ctx s where
  fn : s.word.any (·.isIdent "fn") = true

variable {ctx : Context} {scope : Scope}

/-- What a token does to the candidate held back: it is dropped, kept or judged. -/
inductive Settles (ctx : Context) (scope : Scope) (cand : Candidate) : State × List Finding → Prop
  | drop : Settles ctx scope cand (.idle, [])
  | keep {cand' : Candidate} (h : cand.Same cand') (phase : Phase) (depth : Nat)
      (hphase : phase ≠ .named) : Settles ctx scope cand (.pending phase cand' depth, [])
  | judge {cand' : Candidate} (h : cand.Same cand') :
      Settles ctx scope cand (decided ctx scope cand')

theorem Settles.advances {cand : Candidate} {r : State × List Finding} {P : Site → Prop}
    {sites : List Site} (h : Settles ctx scope cand r)
    (hP : ∀ s, P s → cand.Of ctx s.name ∧ s.word.any (·.isIdent "fn") = true ∧ s.isSafe = true)
    (ts : List Token) : Advances (Found ctx) (some P) r.2 (r.1.holding ctx ts) sites := by
  cases h with
  | drop => exact .drop rfl
  | keep h phase depth hphase =>
    refine .keep (fun s hs => ?_) rfl
    obtain ⟨hof, hfn, hsafe⟩ := hP s hs
    exact ⟨hof.of_same h, hfn, .inl hsafe⟩
  | judge h =>
    refine .judge fun s hs => ?_
    obtain ⟨hof, hfn, hsafe⟩ := hP s hs
    refine (Finding.renames_judge_stream (hof.of_same h) hsafe scope).imp_right ?_
    rintro ⟨r, hr, hstream, -⟩
    exact ⟨r, hr, hstream, hfn⟩

theorem settles_pendingPunct (level : Nat) (c : UInt8) (afterDash : Bool) (phase : Phase)
    (cand : Candidate) (depth : Nat) :
    Settles ctx scope cand (pendingPunct ctx scope level c afterDash phase cand depth) := by
  have hsame : cand.Same cand := ⟨rfl, rfl, rfl, rfl⟩
  cases phase with
  | named =>
    simp only [pendingPunct]
    split
    · exact .keep hsame _ _ nofun
    · exact .drop
  | params angles =>
    simp only [pendingPunct]
    refine .keep hsame _ _ ?_
    repeat' split
    all_goals simp
  | paramLifetime angles => exact .drop
  | args | argSelf =>
    simp only [pendingPunct]
    repeat' split
    all_goals refine .keep ?_ _ _ ?_ <;> simp [Candidate.Same]
  | argRef =>
    simp only [pendingPunct]
    split <;> exact .keep hsame _ _ nofun
  | argLifetime => exact .keep hsame _ _ nofun
  | ret =>
    simp only [pendingPunct]
    repeat' split
    · exact .keep hsame _ _ nofun
    · exact .keep hsame _ _ nofun
    · exact .judge hsame
    · exact .judge (by simp [Candidate.Same])
  | retLifetime => exact .keep hsame _ _ nofun

theorem settles_pendingIdent (text : Bytes) (phase : Phase) (cand : Candidate) (depth : Nat) :
    Settles ctx scope cand (pendingIdent ctx scope text phase cand depth) := by
  have hsame : cand.Same cand := ⟨rfl, rfl, rfl, rfl⟩
  cases phase with
  | named => exact .drop
  | argRef =>
    simp only [pendingIdent]
    split
    · refine .keep ?_ _ _ ?_ <;> simp [Candidate.Same]
    · split <;> exact .keep hsame _ _ nofun
  | ret =>
    simp only [pendingIdent]
    split
    · refine .keep ?_ _ _ ?_ <;> simp [Candidate.Same]
    · split
      · exact .judge hsame
      · exact .judge (by simp [Candidate.Same])
  | _ => refine .keep ?_ _ _ ?_ <;> simp [Candidate.Same]

theorem settles_pendingGroup (level : Nat) (delim : Delimiter) (isEmpty : Bool) (phase : Phase)
    (cand : Candidate) (depth : Nat) :
    Settles ctx scope cand (pendingGroup ctx scope level delim isEmpty phase cand depth) := by
  have hsame : cand.Same cand := ⟨rfl, rfl, rfl, rfl⟩
  cases phase with
  | named =>
    simp only [pendingGroup]
    split
    · refine .keep ?_ _ _ ?_ <;> simp [Candidate.Same]
    · exact .drop
  | params angles =>
    simp only [pendingGroup]
    split
    · exact .keep hsame _ _ nofun
    split
    · refine .keep ?_ _ _ ?_ <;> simp [Candidate.Same]
    · exact .drop
  | paramLifetime angles => exact .keep hsame _ _ nofun
  | args | argRef | argLifetime | argSelf =>
    simp only [pendingGroup]
    split
    · exact .drop
    · exact .keep hsame _ _ nofun
  | ret | retLifetime =>
    simp only [pendingGroup]
    split
    · exact .judge hsame
    · exact .judge (by simp [Candidate.Same])

/-! ### Steps -/

/-- Right behind its name a candidate is safe in front of a token that is no hazard, and further on
in front of any token. -/
theorem safe_of_holding {phase : Phase} {cand : Candidate} {t : Token} {ts : List Token}
    (ht : phase = .named → t.isHazard = false) {s : Site}
    (h : cand.Of ctx s.name ∧ s.word.any (·.isIdent "fn") = true ∧
      (s.isSafe = true ∨ phase = .named ∧ s.after = t :: ts)) :
    cand.Of ctx s.name ∧ s.word.any (·.isIdent "fn") = true ∧ s.isSafe = true := by
  obtain ⟨hof, hfn, hsafe⟩ := h
  refine ⟨hof, hfn, hsafe.elim id fun hnamed => ?_⟩
  simp [Site.isSafe, hnamed.2, ht hnamed.1]

theorem advances_ident {behind : List Token} {word prev : Option Token} {level : Nat} {text : Bytes}
    {p : Pos} {m : Machine} {ts : List Token}
    (hfn : ∀ depth, m.state = .fn depth → word.any (·.isIdent "fn") = true) :
    Advances (Found ctx) (m.state.holding ctx (.ident text p :: ts))
      (ident ctx scope level ⟨text, p⟩ m).2 ((ident ctx scope level ⟨text, p⟩ m).1.holding ctx ts)
      [⟨⟨text, p⟩, word, prev, ts, behind⟩] := by
  obtain ⟨state, afterDash⟩ := m
  unfold ident
  cases state with
  | idle =>
    simp only
    split <;> exact .drop rfl
  | fn depth =>
    simp only
    split
    · exact .drop rfl
    unfold fnName
    split
    · rename_i cand hcand
      exact .new ⟨Context.of_candidate? hcand, hfn depth rfl, .inr ⟨rfl, rfl⟩⟩ rfl
    · exact .drop rfl
  | pending phase cand depth =>
    simp only
    split
    · exact (Settles.judge ⟨rfl, rfl, rfl, rfl⟩).advances (fun s => safe_of_holding fun _ => rfl) ts
    · exact (settles_pendingIdent text phase cand depth).advances
        (fun s => safe_of_holding fun _ => rfl) ts

theorem advances_punct {level : Nat} {c : UInt8} {joint : Bool} {p : Pos} {m : Machine}
    {ts : List Token} :
    Advances (Found ctx) (m.state.holding ctx (.punct c joint p :: ts))
      (punct ctx scope level c m).2 ((punct ctx scope level c m).1.holding ctx ts) [] := by
  obtain ⟨state, afterDash⟩ := m
  unfold punct
  cases state with
  | idle => exact .drop rfl
  | fn depth =>
    simp only
    split <;> exact .drop rfl
  | pending phase cand depth =>
    simp only
    by_cases hz : phase = .named ∧ Token.isHazard (.punct c joint p) = true
    · -- right behind the name a hazard drops the candidate, elsewhere it is like any other
      obtain ⟨rfl, hz⟩ := hz
      have hc : c = byte '#' ∨ c = byte '\'' := by simpa [Token.isHazard] using hz
      have hsemi : (c = byte ';' && level = depth) = false := by
        rcases hc with rfl | rfl <;> simp <;> intro h <;> exact absurd h (by decide)
      have hlt : c ≠ byte '<' := by rcases hc with rfl | rfl <;> decide
      rw [if_neg (by simp [hsemi])]
      simp only [pendingPunct, hlt, if_false]
      exact .drop rfl
    · have hsafe : phase = .named → Token.isHazard (.punct c joint p) = false := by
        intro hphase
        simpa [hphase] using hz
      split
      · exact (Settles.judge ⟨rfl, rfl, rfl, rfl⟩).advances (fun s => safe_of_holding hsafe) ts
      · exact (settles_pendingPunct level c afterDash phase cand depth).advances
          (fun s => safe_of_holding hsafe) ts

theorem advances_group {level : Nat} {delim : Delimiter} {inner ts : List Token} {p : Pos}
    {m : Machine} :
    Advances (Found ctx) (m.state.holding ctx (.group delim inner p :: ts))
      (group ctx scope level delim inner.isEmpty m).2
      ((group ctx scope level delim inner.isEmpty m).1.holding ctx inner) [] := by
  obtain ⟨state, afterDash⟩ := m
  unfold group
  cases state with
  | idle => exact .drop rfl
  | fn depth => exact .drop rfl
  | pending phase cand depth =>
    exact (settles_pendingGroup level delim inner.isEmpty phase cand depth).advances
      (fun s => safe_of_holding fun _ => rfl) inner

theorem advances_leaf {behind : List Token} {word prev : Option Token} {level : Nat} {m : Machine}
    {t : Token} {ts : List Token}
    (hfn : ∀ depth, m.state = .fn depth → word.any (·.isIdent "fn") = true)
    (ht : t.isGroup = false) :
    Advances (Found ctx) (m.state.holding ctx (t :: ts)) (run ctx scope level m t).2
      ((run ctx scope level m t).1.state.holding ctx ts) (Token.sites behind word prev ts t) := by
  cases t with
  | ident text p =>
    simp only [run, Token.sites]
    exact advances_ident hfn
  | punct c joint p =>
    simp only [run, Token.sites]
    exact advances_punct
  | literal text p =>
    simp only [run]
    exact .drop rfl
  | doc text p =>
    simp only [run]
    obtain ⟨state, afterDash⟩ := m
    cases state with
    | pending phase cand depth =>
      refine .keep (fun s hs => ?_) rfl
      obtain ⟨hof, hword, hsafe⟩ := @safe_of_holding _ phase cand _ ts (fun _ => rfl) s hs
      exact ⟨hof, hword, .inl hsafe⟩
    | _ => exact .drop rfl
  | group d inner p => simp [Token.isGroup] at ht

/-! ### The word in front of a name -/

theorem Settles.ne_fn {cand : Candidate} {r : State × List Finding} (h : Settles ctx scope cand r)
    (depth : Nat) : r.1 ≠ .fn depth := by
  cases h <;> nofun

/-- Only the word `fn` makes the matcher wait for a name. -/
theorem text_of_ident {level depth : Nat} {name : Ident} {m : Machine}
    (h : (ident ctx scope level name m).1 = .fn depth) :
    (name.text == Bytes.ofString "fn") = true := by
  obtain ⟨state, afterDash⟩ := m
  by_contra hno
  rw [Bool.not_eq_true] at hno
  cases state with
  | idle => simp [ident, hno] at h
  | fn d =>
    simp only [ident, hno, Bool.false_eq_true, if_false, fnName] at h
    split at h <;> simp at h
  | pending phase cand d =>
    simp only [ident, hno, Bool.false_and] at h
    exact (settles_pendingIdent name.text phase cand d).ne_fn depth h

theorem fn_of_punct {level depth : Nat} {c : UInt8} {m : Machine}
    (h : (punct ctx scope level c m).1 = .fn depth) : ∃ d, m.state = .fn d := by
  obtain ⟨state, afterDash⟩ := m
  cases state with
  | idle => simp [punct] at h
  | fn d => exact ⟨d, rfl⟩
  | pending phase cand d =>
    simp only [punct] at h
    split at h
    · exact absurd h ((Settles.judge ⟨rfl, rfl, rfl, rfl⟩).ne_fn depth)
    · exact absurd h ((settles_pendingPunct level c afterDash phase cand d).ne_fn depth)

theorem fn_of_group {level depth : Nat} {delim : Delimiter} {isEmpty : Bool} {m : Machine}
    (h : (group ctx scope level delim isEmpty m).1 = .fn depth) : m.state = .fn depth := by
  obtain ⟨state, afterDash⟩ := m
  cases state with
  | pending phase cand d =>
    exact absurd h ((settles_pendingGroup level delim isEmpty phase cand d).ne_fn depth)
  | _ => exact h

/-- While the matcher waits for a name, the last word is `fn`. -/
theorem fn_of_runL {word : Option Token} {level : Nat} {m : Machine} (ts : List Token)
    (hfn : ∀ depth, m.state = .fn depth → word.any (·.isIdent "fn") = true) :
    ∀ depth, (runL ctx scope level m ts).1.state = .fn depth →
      (Token.lastWordL word ts).any (·.isIdent "fn") = true := by
  induction ts using Token.inductionL generalizing word level m with
  | nil => exact hfn
  | leaf t ts ht ih =>
    simp only [runL, Token.lastWordL]
    refine ih fun depth h => ?_
    cases t with
    | ident text p =>
      simp only [run] at h
      simpa [Token.lastWord, Token.isIdent] using text_of_ident h
    | punct c joint p =>
      simp only [run] at h
      obtain ⟨d, hd⟩ := fn_of_punct h
      simpa [Token.lastWord] using hfn d hd
    | literal text p => simp [run] at h
    | doc text p =>
      simp only [run] at h
      simpa [Token.lastWord] using hfn depth h
    | group d inner p => simp [Token.isGroup] at ht
  | group d inner p ts ihInner ih =>
    simp only [runL, run, Token.lastWordL, Token.lastWord_group]
    refine ih (ihInner fun depth h => ?_)
    exact hfn depth (fn_of_group h)

/-! ### Runs -/

/-- **A run of the definition matcher.**  It renames safe names behind the word `fn`, in order. -/
theorem advances_runL {behind : List Token} {word prev : Option Token} {level : Nat} {m : Machine}
    (ts : List Token)
    (hfn : ∀ depth, m.state = .fn depth → word.any (·.isIdent "fn") = true) :
    Advances (Found ctx) (m.state.holding ctx ts) (runL ctx scope level m ts).2
      ((runL ctx scope level m ts).1.state.holding ctx []) (Token.sitesL behind word prev ts) := by
  induction ts using Token.inductionL generalizing behind word prev level m with
  | nil =>
    simp only [runL, Token.sitesL]
    exact .refl _
  | leaf t ts ht ih =>
    have hnext := @fn_of_runL ctx scope word level m [t] hfn
    simp only [runL, Token.lastWordL] at hnext
    simp only [runL, Token.sitesL]
    exact (advances_leaf hfn ht).trans (ih hnext)
  | group d inner p ts ihInner ih =>
    have hnext := @fn_of_runL ctx scope word level m [.group d inner p] hfn
    simp only [runL, run, Token.lastWordL] at hnext
    simp only [runL, run, Token.sitesL, Token.sites_group]
    have hinner := @ihInner (ts ++ behind) word none (level + 1)
      ⟨(group ctx scope level d inner.isEmpty m).1, m.afterDash⟩
      fun depth h => hfn depth (fn_of_group h)
    refine (advances_group.trans (hinner.behind (State.holding_nil ctx ts _))).trans ?_
    exact @ih behind _ (some (.group d inner p)) level ⟨_, false⟩ hnext

theorem trace_findings (ctx : Context) (scope : Scope) (ts : List Token) :
    Rename.Trace (Found ctx) (Finding.renames (findings ctx scope ts)) (Token.sitesOf ts) :=
  (@advances_runL ctx scope [] none none 0 {} ts (by simp)).trace

end GetterRename.DefinitionMatcher
