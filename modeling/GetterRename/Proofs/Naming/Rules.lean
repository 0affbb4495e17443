import GetterRename.Proofs.Naming.Words
import GetterRename.Proofs.Source.Names

/-!
# New names are runs

The rules cut a suffix at underscores, put words in front of it or behind it, and replace words from
tables.  An underscore is an ASCII byte, so every part of a run is a run; and the words of the tables
are runs.  A new name may still start with a digit or a mark: then it is no name.

* `Naming.isRun_renameSuffix` — the new name of a getter is a run of identifier characters;
* `Naming.isName_of_lex` — a run that is read as one identifier is a name.
-/

namespace GetterRename

instance : DecidablePred IsRun := fun text => inferInstanceAs (Decidable (Extent.identifier text = _))

namespace Naming

theorem isRun_cutFirst {text : Bytes} (h : IsRun text) :
    IsRun (Bytes.cutFirst (byte '_') text).1 ∧
      ∀ rest, (Bytes.cutFirst (byte '_') text).2 = some rest → IsRun rest := by
  rcases Bytes.cutFirst_cases (byte '_') text with ⟨h1, h2⟩ | ⟨rest, h1, h2⟩
  · refine ⟨by rwa [← h1], fun rest hrest => ?_⟩
    rw [h2] at hrest
    exact absurd hrest (by simp)
  · rw [h2] at h
    obtain ⟨hfirst, hrest⟩ := h.of_append_cons (by decide)
    refine ⟨hfirst, fun rest' hrest' => ?_⟩
    obtain rfl : rest = rest' := Option.some.inj (h1.symm.trans hrest')
    exact hrest.of_cons (by decide)

theorem isRun_behindFirst {text : Bytes} (h : IsRun text) : IsRun (behindFirst text) := by
  rcases behindFirst_cases text with ⟨-, hbehind⟩ | ⟨rest, hrest, hbehind⟩
  · rw [hbehind]
    decide +kernel
  · rw [hbehind]
    exact ((isRun_cutFirst h).2 rest hrest).cons (by decide)

theorem isRun_dropHead {text : Bytes} (h : IsRun text) : IsRun (Bytes.dropHead isHead text) := by
  rcases Bytes.dropHead_cases isHead text with ⟨rest, rfl, hrest⟩ | ⟨-, hself⟩
  · rw [hrest]
    exact ((show IsRun isHead by decide +kernel).append_iff rest).1 h
  · rwa [hself]

theorem isRun_isHead {suffix : Bytes} (h : IsRun suffix) : IsRun (isHead ++ suffix) :=
  (show IsRun isHead by decide +kernel).append h

theorem isRun_named {rest : Bytes} (h : IsRun rest) : IsRun (named rest) := by
  have hverbs : ∀ word ∈ boolVerbSubstitutes.map (·.2), IsRun word := by decide +kernel
  rcases named_cases rest with ⟨word, hverb, hnamed⟩ | ⟨-, hnamed⟩ | ⟨-, -, hnamed⟩
  · rw [hnamed]
    exact (hverbs word (mem_of_lookup hverb)).append (isRun_behindFirst h)
  · rwa [hnamed]
  · rw [hnamed]
    exact isRun_isHead h

theorem isRun_forced {suffix : Bytes} (h : IsRun suffix) : IsRun (forced suffix).text := by
  have hexact : ∀ word ∈ boolExactSubstitutes.map (·.2), IsRun word := by decide +kernel
  rcases forced_cases suffix with hmem | his | ⟨-, hnamed⟩
  · exact hexact _ hmem
  · rw [his]
    decide +kernel
  · rw [hnamed]
    exact isRun_named (isRun_dropHead h)

theorem isRun_plain {suffix : Bytes} (h : IsRun suffix) (known : ReturnsBool) :
    IsRun (plain suffix known).text := by
  have hexact : ∀ word ∈ exactSubstitutes.map (·.2), IsRun word := by decide +kernel
  unfold plain
  split
  · rename_i word hword
    exact hexact word (mem_of_lookup hword)
  · obtain ⟨hfirst, hremainder⟩ := isRun_cutFirst h
    split
    · rename_i first b remainder hcut
      rw [hcut] at hfirst hremainder
      split
      · exact (hremainder _ rfl).append (hfirst.cons (by decide))
      · exact h
    · exact h

/-- **New names are runs.** -/
theorem isRun_renameSuffix {suffix : Bytes} {known : ReturnsBool} {newName : NewName}
    (h : IsRun suffix) (hn : renameSuffix suffix known = .ok newName) : IsRun newName.text := by
  obtain ⟨-, ⟨-, htext⟩ | ⟨-, rfl⟩⟩ := renameSuffix_cases hn
  · rw [htext]
    exact isRun_forced h
  · exact isRun_plain h known

/-! ### Names among them -/

/-- No byte order mark and no `#!` line starts a run. -/
theorem body_of_isRun {text : Bytes} (h : IsRun text) : Token.body text = text := by
  have hbom : Bytes.dropHead Event.byteOrderMark text = text := by
    refine Bytes.dropHead_eq_self ?_
    rintro ⟨rest, rfl⟩
    obtain ⟨char, tail, code, heq, hc, -⟩ := h.exists_char (by simp [Event.byteOrderMark])
    have hdec : Utf8.decode? (Event.byteOrderMark ++ rest) = some (0xFEFF, 3) := rfl
    rw [heq, hc.decode? tail] at hdec
    obtain ⟨rfl, -⟩ := Prod.mk.inj (Option.some.inj hdec)
    exact absurd hc.continues (by decide +kernel)
  have hshebang : Event.shebang text = 0 := by
    unfold Event.shebang
    split
    · rename_i hstart
      simp only [Bool.and_eq_true] at hstart
      obtain ⟨rest, rfl⟩ := List.isPrefixOf_iff_prefix.1 hstart.1
      have hmem : byte '#' ∈ Bytes.ofString "#!" ++ rest := List.mem_append_left _ (by decide)
      exact absurd (h.forall_mem _ hmem) (by decide)
    · rfl
  rw [Token.body, hbom, hshebang]
  rfl

theorem isName_of_lex {text name : Bytes} {p : Pos} (h : IsRun text)
    (hlex : Token.lex text = .ok [.ident name p]) : IsName text := by
  refine ⟨h, ?_⟩
  obtain ⟨es, hes, hnest⟩ := Token.lex_eq_ok_iff.1 hlex
  have hmarks := Token.marksL_of_nest hnest
  rw [body_of_isRun h] at hes
  cases hes with
  | done => simp [Element.events, Token.marks] at hmarks
  | @next b x y piece es element _ =>
    have hbytes := h.forall_mem
    have hb : isRunByte b = true := by simpa [isRunByte] using hbytes b (by simp)
    have hlead := Piece.lead_of_isRunByte hb
    split at hlead
    · -- a number is no identifier
      rw [Piece.at?_eq, hlead] at element
      obtain ⟨rfl, -⟩ := Prod.mk.inj (Except.ok.inj element)
      simp [Element.events, Event.ofPiece, Event.mark, Token.marks] at hmarks
    · have hplain : Piece.Plain b (x ++ y) := by
        have hx : ∀ c ∈ x ++ y, isWordByte c = true ∨ 0x80 ≤ c :=
          fun c hc => hbytes c (List.mem_cons_of_mem _ hc)
        have := @Piece.Plain.of_run b (x ++ y) [] hx rfl (by simp)
        rwa [List.append_nil] at this
      rw [Piece.at?_eq_word hlead, Piece.word_plain hplain] at element
      split at element
      · assumption
      · simp at element

end Naming

end GetterRename
