import GetterRename.Proofs.Source.Reading
import GetterRename.Proofs.Source.Spelling

/-!
# Other words in a comment

Where words in a comment are replaced by other words, the comment stays what it is: no word takes
part in the marks that open and close comments, and none breaks a line.

* `Reworded` — a text and the same text with other words;
* `Reworded.head?_iff`, `Reworded.mem_iff` — the bytes that belong to no word stay;
* `Reworded.spells` — a reworded comment is a comment.
-/

namespace GetterRename

/-- The text with some words, made of identifier bytes, replaced by others. -/
inductive Reworded : Bytes → Bytes → Prop where
  | nil : Reworded [] []
  | keep (b : UInt8) {x x' : Bytes} (rest : Reworded x x') : Reworded (b :: x) (b :: x')
  | word {b : UInt8} {old new x x' : Bytes} (hold : ∀ c ∈ b :: old, isRunByte c = true)
      (hne : new ≠ []) (hnew : ∀ c ∈ new, isRunByte c = true) (rest : Reworded x x') :
      Reworded (b :: (old ++ x)) (new ++ x')

namespace Reworded

variable {b : UInt8} {x x' : Bytes}

/-- The first byte is kept, or a word stands there before and after. -/
theorem cons_cases (h : Reworded (b :: x) x') :
    (∃ y, x' = b :: y ∧ Reworded x y) ∨
      isRunByte b = true ∧ ∃ c y, x' = c :: y ∧ isRunByte c = true := by
  cases h with
  | keep _ rest => exact .inl ⟨_, rfl, rest⟩
  | @word _ old new x y hold hne hnew rest =>
    obtain ⟨c, new, rfl⟩ := List.exists_cons_of_ne_nil hne
    exact .inr ⟨hold b (by simp), c, new ++ y, rfl, hnew c (by simp)⟩

theorem exists_of_cons (h : Reworded (b :: x) x') (hb : isRunByte b = false) :
    ∃ y, x' = b :: y ∧ Reworded x y := by
  refine h.cons_cases.resolve_right ?_
  rintro ⟨hrun, -⟩
  rw [hb] at hrun
  exact absurd hrun (by simp)

theorem head?_iff (h : Reworded x x') (hb : isRunByte b = false) :
    x'.head? = some b ↔ x.head? = some b := by
  cases x with
  | nil =>
    cases h
    rfl
  | cons c x =>
    rcases h.cons_cases with ⟨y, rfl, -⟩ | ⟨hc, d, y, rfl, hd⟩
    · rfl
    · simp [Piece.ne_of_isRunByte hc hb, Piece.ne_of_isRunByte hd hb]

/-- The bytes that belong to no word stay. -/
theorem mem_iff (h : Reworded x x') (hb : isRunByte b = false) : b ∈ x' ↔ b ∈ x := by
  have hno : ∀ {word : Bytes}, (∀ c ∈ word, isRunByte c = true) → b ∉ word :=
    fun hword hmem => Piece.ne_of_isRunByte (hword b hmem) hb rfl
  induction h with
  | nil => rfl
  | keep c rest ih => simp only [List.mem_cons, ih]
  | word hold hne hnew rest ih =>
    rw [← List.cons_append]
    simp only [List.mem_append, hno hold, hno hnew, false_or, ih]

theorem line_advance (h : Reworded x x') {p q : Pos} (hpq : q.line = p.line) :
    (q.advance x').line = (p.advance x).line := by
  have hword : ∀ {word : Bytes} (p : Pos), (∀ c ∈ word, isRunByte c = true) →
      (p.advance word).line = p.line := by
    intro word p hrun
    rw [Pos.advance_of_no_newline]
    exact fun hmem => Piece.ne_of_isRunByte (hrun _ hmem) (by decide) rfl
  induction h generalizing p q with
  | nil => exact hpq
  | keep b rest ih =>
    rw [Pos.advance_cons, Pos.advance_cons]
    exact ih (Pos.line_advance hpq [b])
  | word hold hne hnew rest ih =>
    rw [← List.cons_append, Pos.advance_append, Pos.advance_append]
    exact ih (by rw [hword q hnew, hword p hold, hpq])

/-! ### Comments -/

theorem not_prefix {m n : UInt8} (h : Reworded x x') (hn : isRunByte n = false)
    (hno : ¬ [m, n] <+: b :: x) : ¬ [m, n] <+: b :: x' := by
  rintro ⟨z, hz⟩
  obtain ⟨rfl, rfl⟩ := List.cons.inj hz
  have hhead := (h.head?_iff hn).1 rfl
  obtain ⟨y, rfl⟩ := List.head?_eq_some_iff.1 hhead
  exact hno ⟨y, rfl⟩

theorem closes_append {depth : Nat} {word : Bytes} (hword : ∀ c ∈ word, isRunByte c = true)
    (h : Closes (depth + 1) x) : Closes (depth + 1) (word ++ x) := by
  induction word with
  | nil => exact h
  | cons c word ih =>
    obtain ⟨hc, hword⟩ := List.forall_mem_cons.1 hword
    refine .other (ih hword) ?_ ?_
    all_goals
      rintro ⟨z, hz⟩
      exact Piece.ne_of_isRunByte hc (by decide) (List.cons.inj hz).1.symm

theorem closes {depth : Nat} (h : Closes depth x) (hw : Reworded x x') : Closes depth x' := by
  induction h generalizing x' with
  | done =>
    cases hw
    exact .done
  | opens _ ih =>
    obtain ⟨y, rfl, hy⟩ := hw.exists_of_cons (by decide)
    obtain ⟨z, rfl, hz⟩ := hy.exists_of_cons (by decide)
    exact .opens (ih hz)
  | closes _ ih =>
    obtain ⟨y, rfl, hy⟩ := hw.exists_of_cons (by decide)
    obtain ⟨z, rfl, hz⟩ := hy.exists_of_cons (by decide)
    exact .closes (ih hz)
  | @other depth b text _ hopens hcloses ih =>
    generalize htext : b :: text = whole at hw
    cases hw with
    | nil => simp at htext
    | keep c rest =>
      obtain ⟨rfl, rfl⟩ := List.cons.inj htext
      exact .other (ih rest) (rest.not_prefix (by decide) hopens)
        (rest.not_prefix (by decide) hcloses)
    | @word c old new y y' hold hne hnew rest =>
      obtain ⟨rfl, rfl⟩ := List.cons.inj htext
      -- behind the first byte of the word stands another word or the text behind it
      cases old with
      | nil => exact closes_append hnew (ih rest)
      | cons d old => exact ih (.word (fun c hc => hold c (List.mem_cons_of_mem _ hc)) hne hnew rest)

/-- **A reworded comment is a comment.** -/
theorem spells {piece : Piece} (hpiece : piece = .lineComment ∨ piece = .blockComment)
    (h : piece.Spells x) (hw : Reworded x x') : piece.Spells x' := by
  rcases hpiece with rfl | rfl
  · obtain ⟨⟨inner, rfl⟩, hline⟩ := h
    obtain ⟨y, rfl, hy⟩ := hw.exists_of_cons (by decide)
    obtain ⟨z, rfl, -⟩ := hy.exists_of_cons (by decide)
    exact ⟨⟨z, rfl⟩, fun hmem => hline ((hw.mem_iff (by decide)).1 hmem)⟩
  · obtain ⟨inner, rfl, hcloses⟩ := h
    obtain ⟨y, rfl, hy⟩ := hw.exists_of_cons (by decide)
    obtain ⟨z, rfl, hz⟩ := hy.exists_of_cons (by decide)
    exact ⟨z, rfl, hz.closes hcloses⟩

end Reworded

end GetterRename
