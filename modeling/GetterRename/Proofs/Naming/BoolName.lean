import GetterRename.Proofs.Naming.Words
import Mathlib.Control.Monad.Basic

/-!
# Names of `bool` getters

The names that the rules for `bool` getters make are kept when they are suffixes themselves, and no
other suffix is.  A guess about a getter gives it one of the names that it could get with certainty.

* `Naming.IsKept`, `Naming.isKept_iff` — the suffixes that the rules keep;
* `Naming.renameSuffix_normal` — the new name of a `bool` getter is in normal form, and kept;
* `Naming.renameSuffix_guess` — a guess gives the name of one of the two definite answers.
-/

namespace GetterRename.Naming

/-! ### Words and the tables -/

theorem is_not_mem_boolNoPrefix : Bytes.ofString "is" ∉ boolNoPrefix := by decide +kernel

/-- The third person of a verb is a word that makes `is_` redundant. -/
theorem boolNoPrefix_of_lookup {verb word : Bytes}
    (h : boolVerbSubstitutes.lookup verb = some word) : word ∈ boolNoPrefix ∧ byte '_' ∉ word := by
  have hwords : ∀ word ∈ boolVerbSubstitutes.map (·.2), word ∈ boolNoPrefix ∧ byte '_' ∉ word := by
    decide +kernel
  exact hwords word (mem_of_lookup h)

theorem not_mem_reserved_of_underscore {text : Bytes} (h : byte '_' ∈ text) :
    isReserved text = false := by
  have hwords : ∀ word ∈ reserved, byte '_' ∉ word := by decide +kernel
  simpa [isReserved] using fun hmem => hwords text hmem h

theorem isReserved_of_word {text : Bytes} (h : firstWord text ∈ boolNoPrefix) :
    isReserved text = false := by
  have hwords : ∀ word ∈ reserved, firstWord word ∉ boolNoPrefix := by decide +kernel
  simpa [isReserved] using fun hmem => hwords text hmem h

theorem isOrdinary_of_word {text : Bytes} (h : firstWord text ∈ boolNoPrefix) :
    IsOrdinary text where
  not_exact := by
    have hkeys : ∀ kv ∈ boolExactSubstitutes, firstWord kv.1 ∉ boolNoPrefix := by decide +kernel
    exact lookup_eq_none fun kv hkv heq => hkeys kv hkv (heq ▸ h)
  ne_is := by
    rintro rfl
    exact absurd h (by decide +kernel)
  ne_isHead := by
    rintro rfl
    exact absurd h (by decide +kernel)

theorem isOrdinary_isHead_append {rest : Bytes} (h : rest ≠ []) : IsOrdinary (isHead ++ rest) where
  not_exact := by
    have hkeys : ∀ kv ∈ boolExactSubstitutes, byte '_' ∉ kv.1 := by decide +kernel
    exact lookup_eq_none fun kv hkv heq => hkeys kv hkv (heq ▸ List.mem_append_left _ (by decide))
  ne_is := fun heq => by
    have hmem : byte '_' ∈ isHead ++ rest := List.mem_append_left _ (by decide)
    rw [heq] at hmem
    exact absurd hmem (by decide)
  ne_isHead := fun heq => h (List.append_right_eq_self.1 heq)

/-! ### Names that the rules keep -/

/-- The suffixes that the rules for `bool` getters keep. -/
inductive IsKept : Bytes → Prop
  | bare : IsKept "is"
  | result : IsKept "result"
  /-- A word that makes `is_` redundant, alone or in front. -/
  | word {text : Bytes} (h : firstWord text ∈ boolNoPrefix) : IsKept text
  /-- Any other word behind `is_`, unless it is a verb to be put into the third person. -/
  | head {rest : Bytes} (hne : rest ≠ [])
      (hverb : boolVerbSubstitutes.lookup (firstWord rest) = none)
      (hword : firstWord rest ∉ boolNoPrefix) : IsKept (isHead ++ rest)

theorem isKept_named {rest : Bytes} (hne : rest ≠ []) : IsKept (named rest) := by
  rcases named_cases rest with ⟨word, hverb, hnamed⟩ | ⟨hword, hnamed⟩ | ⟨hverb, hword, hnamed⟩
  · obtain ⟨hmem, hone⟩ := boolNoPrefix_of_lookup hverb
    rw [hnamed]
    exact .word (by rwa [firstWord_append hone])
  · rw [hnamed]
    exact .word hword
  · rw [hnamed]
    exact .head hne hverb hword

theorem isKept_forced {suffix : Bytes} (h : isReserved suffix = false) :
    IsKept (forced suffix).text := by
  rcases forced_cases suffix with hexact | his | ⟨hordinary, hnamed⟩
  · rcases eq_of_mem_exact hexact with hmuted | hresult
    · rw [hmuted]
      exact .head (by decide) (by decide +kernel) (by decide +kernel)
    · rw [hresult]
      exact .result
  · rw [his]
    exact .bare
  · rw [hnamed]
    refine isKept_named fun hempty => ?_
    rcases Bytes.dropHead_cases isHead suffix with ⟨rest, rfl, hrest⟩ | ⟨-, hself⟩
    · obtain rfl := hrest.symm.trans hempty
      exact hordinary.ne_isHead (List.append_nil isHead)
    · obtain rfl := hself.symm.trans hempty
      exact absurd h (by decide +kernel)

theorem isReserved_of_isKept {text : Bytes} (h : IsKept text) : isReserved text = false := by
  cases h with
  | bare => decide +kernel
  | result => decide +kernel
  | word h => exact isReserved_of_word h
  | head => exact not_mem_reserved_of_underscore (List.mem_append_left _ (by decide))

theorem text_forced_of_isKept {text : Bytes} (h : IsKept text) : (forced text).text = text := by
  cases h with
  | bare => decide +kernel
  | result => decide +kernel
  | word h =>
    have hhead : ¬ isHead <+: text :=
      not_startsWith_isHead fun his => is_not_mem_boolNoPrefix (his ▸ h)
    rw [text_forced (isOrdinary_of_word h), Bytes.dropHead_eq_self hhead, named_of_word h]
  | head hne hverb hword =>
    rw [text_forced (isOrdinary_isHead_append hne), Bytes.dropHead_append,
      named_of_other hverb hword]

/-- The names that are kept are those that the rules give again. -/
theorem isKept_iff {text : Bytes} :
    IsKept text ↔ isReserved text = false ∧ (forced text).text = text :=
  ⟨fun h => ⟨isReserved_of_isKept h, text_forced_of_isKept h⟩, fun ⟨hfree, htext⟩ =>
    htext ▸ isKept_forced hfree⟩

/-! ### Names in normal form -/

theorem form_of_isKept {text : Bytes} (h : IsKept text) :
    Bytes.startsWith text isHead = true ∨ text = Bytes.ofString "is" ∨
      text = Bytes.ofString "result" ∨ firstWord text ∈ boolNoPrefix := by
  cases h with
  | bare => exact .inr (.inl rfl)
  | result => exact .inr (.inr (.inl rfl))
  | word h => exact .inr (.inr (.inr h))
  | head => exact .inl (List.isPrefixOf_iff_prefix.2 (List.prefix_append ..))

/-- A suffix with two `is_` in front is kept. -/
theorem isKept_of_doubled {suffix : Bytes} (h : isHead ++ isHead <+: suffix) : IsKept suffix := by
  obtain ⟨rest, rfl⟩ := h
  rw [List.append_assoc]
  have hfirst := firstWord_isHead_append rest
  refine .head (List.append_ne_nil_of_left_ne_nil (by decide) _) ?_ ?_
  · rw [hfirst]
    decide +kernel
  · rw [hfirst]
    exact is_not_mem_boolNoPrefix

/-- No name by the rules for words has two `is_` in front, unless one stands there already. -/
theorem startsWith_isHead_of_named {rest : Bytes} (h : isHead ++ isHead <+: named rest) :
    isHead <+: rest := by
  have hhead : isHead <+: named rest := (List.prefix_append ..).trans h
  rcases named_cases rest with ⟨word, hverb, hnamed⟩ | ⟨-, hnamed⟩ | ⟨-, -, hnamed⟩
  · obtain ⟨hmem, hone⟩ := boolNoPrefix_of_lookup hverb
    rw [hnamed] at hhead
    refine absurd hhead (not_startsWith_isHead fun his => is_not_mem_boolNoPrefix ?_)
    rwa [← his, firstWord_append hone]
  · rwa [hnamed] at hhead
  · rw [hnamed] at h
    exact (List.prefix_append_right_inj isHead).1 h

/-- The rules put no second `is_` in front. -/
theorem doubled_forced_iff {suffix : Bytes} :
    isHead ++ isHead <+: (forced suffix).text ↔ isHead ++ isHead <+: suffix := by
  constructor
  · intro h
    rcases forced_cases suffix with hexact | his | ⟨-, hnamed⟩
    · have hwords : ∀ word ∈ boolExactSubstitutes.map (·.2), ¬ isHead ++ isHead <+: word := by
        decide +kernel
      exact absurd h (hwords _ hexact)
    · rw [his] at h
      exact absurd h (by decide)
    · rw [hnamed] at h
      have hstart := startsWith_isHead_of_named h
      rcases Bytes.dropHead_cases isHead suffix with ⟨rest, rfl, hrest⟩ | ⟨hno, hself⟩
      · rw [hrest] at hstart
        exact (List.prefix_append_right_inj isHead).2 hstart
      · rw [hself] at hstart
        exact absurd hstart hno
  · intro h
    rwa [text_forced_of_isKept (isKept_of_doubled h)]

/-- **A `bool` getter is named once and for all.**  Every suffix that is not reserved gives a name
that has `is_` in front, is `is` or `result`, or starts with a word that makes `is_` redundant.  Two
`is_` stand in front of it only if they stood in front of the suffix, and as a suffix the name gives
itself. -/
theorem renameSuffix_normal {suffix : Bytes} (h : isReserved suffix = false) :
    ∃ newName, renameSuffix suffix .yes = .ok newName ∧
      (Bytes.startsWith newName.text isHead = true ∨ newName.text = Bytes.ofString "is" ∨
        newName.text = Bytes.ofString "result" ∨ firstWord newName.text ∈ boolNoPrefix) ∧
      (Bytes.startsWith newName.text (isHead ++ isHead) = true ↔
        Bytes.startsWith suffix (isHead ++ isHead) = true) ∧
      ∃ again, renameSuffix newName.text .yes = .ok again ∧ again.text = newName.text := by
  have hkept := isKept_forced h
  obtain ⟨hfree, htext⟩ := isKept_iff.1 hkept
  refine ⟨forced suffix, renameSuffix_yes h, form_of_isKept hkept, ?_, forced (forced suffix).text,
    renameSuffix_yes hfree, htext⟩
  exact List.isPrefixOf_iff_prefix.trans (doubled_forced_iff.trans List.isPrefixOf_iff_prefix.symm)

/-- A verb behind `is_` is put into the third person, and the `is_` is dropped. -/
theorem renameSuffix_normal_emitEos :
    isReserved "is_emit_eos" = false ∧
      renameSuffix "is_emit_eos" .yes = .ok ⟨"emits_eos", .yes, .substituted⟩ ∧
      firstWord "emits_eos" ∈ boolNoPrefix ∧
      ∃ again, renameSuffix "emits_eos" .yes = .ok again ∧ again.text = "emits_eos" := by
  have hfree : isReserved "is_emit_eos" = false := by decide +kernel
  have hname : renameSuffix "is_emit_eos" .yes = .ok ⟨"emits_eos", .yes, .substituted⟩ := by
    decide +kernel
  obtain ⟨newName, hnew, -, -, hagain⟩ := renameSuffix_normal hfree
  obtain rfl := Except.ok.inj (hnew.symm.trans hname)
  exact ⟨hfree, hname, by decide +kernel, hagain⟩

/-! ### Guesses -/

/-- **A guess is one of the definite answers.**  Where nothing is known about a getter, its suffix is
refused if and only if both definite answers refuse it.  If it is not, the new name is that of a
`bool` getter, and taken for one, or it is that of another getter, by the same rule, and nothing is
known about it. -/
theorem renameSuffix_guess (suffix : Bytes) :
    ((∃ refusal, renameSuffix suffix .maybe = .error refusal) ↔
      (∃ refusal, renameSuffix suffix .yes = .error refusal) ∧
        ∃ refusal, renameSuffix suffix .no = .error refusal) ∧
      ∀ guess, renameSuffix suffix .maybe = .ok guess →
        (guess.returnsBool = .yes ∧
          ∃ sure, renameSuffix suffix .yes = .ok sure ∧ guess.text = sure.text) ∨
        (guess.returnsBool = .maybe ∧ ∃ sure, renameSuffix suffix .no = .ok sure ∧
          guess.text = sure.text ∧ guess.rule = sure.rule) := by
  refine ⟨by simp only [renameSuffix_error_iff, and_self], fun guess h => ?_⟩
  obtain ⟨hfree, ⟨hyes, htext⟩ | ⟨-, rfl⟩⟩ := renameSuffix_cases h
  · exact .inl ⟨hyes, forced suffix, renameSuffix_yes hfree, htext⟩
  · rw [plain_eq suffix .maybe]
    exact .inr ⟨rfl, plain suffix .no, renameSuffix_no hfree, rfl, rfl⟩

/-- An adjective is taken for a `bool` getter, by another rule than one that is known to be. -/
theorem renameSuffix_guess_seekable :
    renameSuffix "seekable_x" .maybe = .ok ⟨"is_seekable_x", .yes, .substituted⟩ ∧
      ∃ sure, renameSuffix "seekable_x" .yes = .ok sure ∧ sure.text = "is_seekable_x" ∧
        sure.rule = .regular := by
  have hguess : renameSuffix "seekable_x" .maybe = .ok ⟨"is_seekable_x", .yes, .substituted⟩ := by
    decide +kernel
  rcases (renameSuffix_guess "seekable_x").2 _ hguess with ⟨-, sure, hsure, htext⟩ | ⟨hmaybe, -⟩
  · have hrule : renameSuffix "seekable_x" .yes = .ok ⟨"is_seekable_x", .yes, .regular⟩ := by
      decide +kernel
    obtain rfl := Except.ok.inj (hsure.symm.trans hrule)
    exact ⟨hguess, _, hsure, htext.symm, rfl⟩
  · exact nomatch hmaybe

end GetterRename.Naming
