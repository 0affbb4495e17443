import GetterRename.Naming.Rules
import GetterRename.Proofs.Text.Split

/-!
# What the rules make of a suffix

Apart from a few suffixes with a name of their own, the name of a `bool` getter depends on the first
word of its suffix behind a leading `is_`: a verb is put into the third person, a word that makes
`is_` redundant keeps it away, and any other word has it in front.  All rules together give the name
of a `bool` getter, or follow the one rule for other getters.

* `Naming.firstWord`, `Naming.behindFirst` — the first word of a name, and what stands behind it;
* `Naming.named`, `Naming.named_cases` — the rules for words;
* `Naming.forced_cases` — how the name of a `bool` getter comes about;
* `Naming.renameSuffix_cases` — how any new name comes about.
-/

namespace GetterRename.Naming

/-! ### First words -/

/-- The first word of a name: what stands in front of its first underscore. -/
def firstWord (text : Bytes) : Bytes := (Bytes.cutFirst (byte '_') text).1

/-- What stands behind the first word, its underscore included. -/
def behindFirst (text : Bytes) : Bytes := text.drop (firstWord text).length

theorem firstWord_append_behindFirst (text : Bytes) : firstWord text ++ behindFirst text = text := by
  rcases Bytes.cutFirst_cases (byte '_') text with ⟨htext, -⟩ | ⟨rest, -, htext⟩
  · have hall : behindFirst text = [] :=
      List.drop_eq_nil_of_le (Nat.le_of_eq (congrArg List.length htext))
    rw [hall, List.append_nil]
    exact htext.symm
  · have hdrop := congrArg (List.drop (firstWord text).length) htext
    rw [firstWord, List.drop_left] at hdrop
    rw [behindFirst, firstWord, hdrop]
    exact htext.symm

theorem behindFirst_cases (text : Bytes) :
    (Bytes.cutFirst (byte '_') text).2 = none ∧ behindFirst text = [] ∨
      ∃ rest, (Bytes.cutFirst (byte '_') text).2 = some rest ∧
        behindFirst text = byte '_' :: rest := by
  have hparts := firstWord_append_behindFirst text
  rcases Bytes.cutFirst_cases (byte '_') text with ⟨htext, hnone⟩ | ⟨rest, hsome, htext⟩
  · exact .inl ⟨hnone, List.append_right_eq_self.1 (hparts.trans htext)⟩
  · exact .inr ⟨rest, hsome, List.append_cancel_left (hparts.trans htext)⟩

theorem firstWord_append {word : Bytes} (h : byte '_' ∉ word) (text : Bytes) :
    firstWord (word ++ behindFirst text) = word := by
  rcases behindFirst_cases text with ⟨-, hbehind⟩ | ⟨rest, -, hbehind⟩
  · rw [hbehind, List.append_nil, firstWord, Bytes.cutFirst_of_not_mem h]
  · rw [hbehind, firstWord, Bytes.cutFirst_append h]

theorem firstWord_isHead_append (rest : Bytes) :
    firstWord (isHead ++ rest) = Bytes.ofString "is" := by
  have hword : byte '_' ∉ Bytes.ofString "is" := by decide
  exact congrArg Prod.fst (Bytes.cutFirst_append hword rest)

theorem not_startsWith_isHead {text : Bytes} (h : firstWord text ≠ Bytes.ofString "is") :
    ¬ isHead <+: text := by
  rintro ⟨rest, rfl⟩
  exact h (firstWord_isHead_append rest)

/-! ### What the tables hold -/

theorem mem_of_lookup {table : List (Bytes × Bytes)} {key word : Bytes}
    (h : table.lookup key = some word) : word ∈ table.map (·.2) := by
  obtain ⟨before, after, rfl, -⟩ := List.lookup_eq_some_iff.1 h
  simp

theorem lookup_eq_none {table : List (Bytes × Bytes)} {key : Bytes}
    (h : ∀ kv ∈ table, key ≠ kv.1) : table.lookup key = none :=
  List.lookup_eq_none_iff.2 fun kv hkv => by simpa using h kv hkv

theorem eq_of_mem_exact {word : Bytes} (h : word ∈ boolExactSubstitutes.map (·.2)) :
    word = isHead ++ Bytes.ofString "muted" ∨ word = Bytes.ofString "result" := by
  have hwords : ∀ word ∈ boolExactSubstitutes.map (·.2),
      word = isHead ++ Bytes.ofString "muted" ∨ word = Bytes.ofString "result" := by decide +kernel
  exact hwords word h

theorem lookup_of_mem_boolNoPrefix {word : Bytes} (h : word ∈ boolNoPrefix) :
    boolVerbSubstitutes.lookup word = none := by
  have hwords : ∀ word ∈ boolNoPrefix, boolVerbSubstitutes.lookup word = none := by decide +kernel
  exact hwords word h

/-! ### The rules for words -/

/-- The suffix has no name of its own: the rules for words apply to it. -/
structure IsOrdinary (suffix : Bytes) : Prop where
  not_exact : boolExactSubstitutes.lookup suffix = none
  ne_is : suffix ≠ Bytes.ofString "is"
  ne_isHead : suffix ≠ isHead

/-- How a suffix says that its getter returns a `bool`, by the first word behind a leading `is_`. -/
theorem evident?_eq {suffix : Bytes} (h : IsOrdinary suffix) :
    evident? suffix =
      let rest := Bytes.dropHead isHead suffix
      match boolVerbSubstitutes.lookup (firstWord rest) with
      | some word => some (boolName (word ++ behindFirst rest) .substituted)
      | none =>
        if firstWord rest ∈ boolNoPrefix then some (boolName rest .noPrefix)
        else if Bytes.startsWith suffix isHead then some (boolName suffix .regular)
        else none := by
  have hwhole : ¬ (suffix = Bytes.ofString "is" || suffix = Bytes.ofString "is_") = true := by
    simpa using ⟨h.ne_is, h.ne_isHead⟩
  unfold evident?
  simp only [h.not_exact, hwhole, if_false, leading, Bool.false_eq_true, List.contains_eq_mem,
    decide_eq_true_eq, firstWord]
  cases hverb : boolVerbSubstitutes.lookup
      (Bytes.cutFirst (byte '_') (Bytes.dropHead isHead suffix)).1 with
  | none => rfl
  | some word =>
    rcases behindFirst_cases (Bytes.dropHead isHead suffix) with
      ⟨hcut, hbehind⟩ | ⟨rest, hcut, hbehind⟩
    · simp only [hcut, hbehind, List.append_nil]
    · simp only [hcut, hbehind]

/-- What the rules for words make of a suffix without its leading `is_`. -/
def named (rest : Bytes) : Bytes :=
  match boolVerbSubstitutes.lookup (firstWord rest) with
  | some word => word ++ behindFirst rest
  | none => if firstWord rest ∈ boolNoPrefix then rest else isHead ++ rest

theorem named_of_word {rest : Bytes} (h : firstWord rest ∈ boolNoPrefix) : named rest = rest := by
  rw [named, lookup_of_mem_boolNoPrefix h]
  exact if_pos h

theorem named_of_other {rest : Bytes} (hverb : boolVerbSubstitutes.lookup (firstWord rest) = none)
    (hword : firstWord rest ∉ boolNoPrefix) : named rest = isHead ++ rest := by
  rw [named, hverb]
  exact if_neg hword

/-- The rules for words: a verb, a word that makes `is_` redundant, and any other word. -/
theorem named_cases (rest : Bytes) :
    (∃ word, boolVerbSubstitutes.lookup (firstWord rest) = some word ∧
      named rest = word ++ behindFirst rest) ∨
    (firstWord rest ∈ boolNoPrefix ∧ named rest = rest) ∨
    (boolVerbSubstitutes.lookup (firstWord rest) = none ∧ firstWord rest ∉ boolNoPrefix ∧
      named rest = isHead ++ rest) := by
  cases hverb : boolVerbSubstitutes.lookup (firstWord rest) with
  | some word => exact .inl ⟨word, rfl, by rw [named, hverb]⟩
  | none =>
    by_cases hword : firstWord rest ∈ boolNoPrefix
    · exact .inr (.inl ⟨hword, named_of_word hword⟩)
    · exact .inr (.inr ⟨rfl, hword, named_of_other hverb hword⟩)

/-! ### Names of `bool` getters -/

/-- A leading `is_` of the suffix makes no difference to the name. -/
theorem text_forced {suffix : Bytes} (h : IsOrdinary suffix) :
    (forced suffix).text = named (Bytes.dropHead isHead suffix) := by
  unfold forced named
  rw [evident?_eq h]
  simp only
  cases boolVerbSubstitutes.lookup (firstWord (Bytes.dropHead isHead suffix)) with
  | some word => rfl
  | none =>
    simp only
    split
    · rfl
    split
    · rename_i hstart
      obtain ⟨rest, rfl⟩ := List.isPrefixOf_iff_prefix.1 hstart
      rw [Bytes.dropHead_append]
      rfl
    · rename_i hstart
      rw [Bytes.dropHead_eq_self fun hp => hstart (List.isPrefixOf_iff_prefix.2 hp)]
      rfl

theorem forced_cases (suffix : Bytes) :
    (forced suffix).text ∈ boolExactSubstitutes.map (·.2) ∨
      (forced suffix).text = Bytes.ofString "is" ∨
      IsOrdinary suffix ∧ (forced suffix).text = named (Bytes.dropHead isHead suffix) := by
  cases hexact : boolExactSubstitutes.lookup suffix with
  | some word =>
    have htext : (forced suffix).text = word := by
      unfold forced evident?
      rw [hexact]
      rfl
    exact .inl (htext ▸ mem_of_lookup hexact)
  | none =>
    by_cases his : suffix = Bytes.ofString "is"
    · exact .inr (.inl (by rw [his]; decide +kernel))
    by_cases hhead : suffix = isHead
    · exact .inr (.inl (by rw [hhead]; decide +kernel))
    have hordinary : IsOrdinary suffix := ⟨hexact, his, hhead⟩
    exact .inr (.inr ⟨hordinary, text_forced hordinary⟩)

theorem returnsBool_of_evident? {suffix : Bytes} {found : NewName}
    (h : evident? suffix = some found) : found.returnsBool = .yes := by
  unfold evident? at h
  repeat' split at h
  all_goals cases h <;> rfl

theorem returnsBool_forced (suffix : Bytes) : (forced suffix).returnsBool = .yes := by
  unfold forced
  cases hevident : evident? suffix with
  | some found => exact returnsBool_of_evident? hevident
  | none => rfl

/-- A guess that a getter returns a `bool` gives it the name of one that does. -/
theorem text_of_guessed? {suffix : Bytes} {guess : NewName} (h : guessed? suffix = some guess) :
    guess.returnsBool = .yes ∧ guess.text = (forced suffix).text := by
  unfold guessed? at h
  unfold forced
  cases hevident : evident? suffix with
  | some found =>
    rw [hevident] at h
    obtain rfl := Option.some.inj h
    exact ⟨returnsBool_of_evident? hevident, rfl⟩
  | none =>
    rw [hevident] at h
    simp only [Option.orElse_none] at h
    split at h
    · obtain rfl := Option.some.inj h
      exact ⟨rfl, rfl⟩
    · exact nomatch h

/-! ### All new names -/

/-- The name of any other getter does not depend on what is known about it. -/
theorem plain_eq (suffix : Bytes) (known : ReturnsBool) :
    plain suffix known = { plain suffix .no with returnsBool := known } := by
  unfold plain
  repeat' split
  all_goals rfl

theorem renameSuffix_error_iff {suffix : Bytes} {known : ReturnsBool} :
    (∃ refusal, renameSuffix suffix known = .error refusal) ↔ isReserved suffix = true := by
  unfold renameSuffix
  by_cases h : isReserved suffix = true
  · simp [h]
  · cases known <;> simp [h]

theorem renameSuffix_yes {suffix : Bytes} (h : isReserved suffix = false) :
    renameSuffix suffix .yes = .ok (forced suffix) := by
  simp [renameSuffix, h]

theorem renameSuffix_no {suffix : Bytes} (h : isReserved suffix = false) :
    renameSuffix suffix .no = .ok (plain suffix .no) := by
  simp [renameSuffix, h]

theorem renameSuffix_maybe {suffix : Bytes} (h : isReserved suffix = false) :
    renameSuffix suffix .maybe = .ok ((guessed? suffix).getD (plain suffix .maybe)) := by
  simp [renameSuffix, h]

theorem renameSuffix_cases {suffix : Bytes} {known : ReturnsBool} {newName : NewName}
    (h : renameSuffix suffix known = .ok newName) :
    isReserved suffix = false ∧
      (newName.returnsBool = .yes ∧ newName.text = (forced suffix).text ∨
        known ≠ .yes ∧ newName = plain suffix known) := by
  have hfree : isReserved suffix = false := by
    refine Bool.eq_false_iff.2 fun hreserved => ?_
    obtain ⟨refusal, hrefused⟩ := renameSuffix_error_iff.2 hreserved
    exact nomatch h.symm.trans hrefused
  refine ⟨hfree, ?_⟩
  cases known with
  | no =>
    rw [renameSuffix_no hfree] at h
    exact .inr ⟨nofun, (Except.ok.inj h).symm⟩
  | yes =>
    rw [renameSuffix_yes hfree] at h
    obtain rfl := Except.ok.inj h
    exact .inl ⟨returnsBool_forced suffix, rfl⟩
  | maybe =>
    rw [renameSuffix_maybe hfree] at h
    obtain rfl := Except.ok.inj h
    cases hguess : guessed? suffix with
    | some guess => exact .inl (text_of_guessed? hguess)
    | none => exact .inr ⟨nofun, rfl⟩

end GetterRename.Naming
