import GetterRename.Getter.DocCode
import Mathlib.Algebra.Group.Nat.Even
import Mathlib.Data.List.Induction

/-!
# Documentation line by line

Every fence opens a block or closes the one that is open, so the fences before a line tell whether
the line is inside a block.  What is found in documentation is what is found in the blocks that are
closed: each of them stands between a fence with an even number of fences before it and the next
one.

* `DocCode.findings`, `DocCode.after` — the findings of documentation lines, and the block open
  behind them;
* `DocCode.after_eq_none_iff` — fences open and close blocks in turn;
* `DocCode.Passage` — the lines from one fence to the next;
* `DocCode.mem_findings_iff` — the findings are those of the passages that are closed.
-/

namespace GetterRename

namespace DocCode

/-- What a fence has behind its mark; nothing for any other line. -/
def tag? (doc : DocLine) : Option Bytes := Bytes.after? fence (Blank.trim doc.text)

def blockTag (opening : DocLine) : Bytes :=
  Blank.trim (((tag? opening).getD []).dropWhile (· == byte '`'))

def isFence (doc : DocLine) : Bool := (tag? doc).isSome

def isShown (doc : DocLine) : Bool := !isHidden (Blank.trim doc.text)

/-- The findings of documentation lines, one after the other, from the block open before them. -/
def findings (ctx : Context) (block : Option Block) : List DocLine → List Finding
  | [] => []
  | doc :: docs => (line ctx block doc).2 ++ findings ctx (line ctx block doc).1 docs

/-- The block open behind documentation lines. -/
def after (ctx : Context) (block : Option Block) (docs : List DocLine) : Option Block :=
  docs.foldl (fun b doc => (line ctx b doc).1) block

def Block.add (b : Block) (doc : DocLine) : Block :=
  if b.isRenamable && isShown doc then b.push (Blank.trim doc.text) doc.line else b

variable {ctx : Context} {block : Option Block} {b : Block} {doc : DocLine} {docs : List DocLine}

theorem tag?_eq_none (h : isFence doc = false) : tag? doc = none :=
  Option.isNone_iff_eq_none.1 (Option.isSome_eq_false_iff.1 h)

theorem line_opening {tag : Bytes} (h : tag? doc = some tag) :
    line ctx none doc = (some (Block.opened tag doc.line), []) := by
  unfold tag? at h
  simp only [line, h]

theorem line_closing (h : isFence doc = true) :
    line ctx (some b) doc = (none, if b.isRenamable then b.findings ctx else []) := by
  obtain ⟨tag, htag⟩ := Option.isSome_iff_exists.1 h
  unfold tag? at htag
  simp only [line, htag]

theorem line_inside (h : isFence doc = false) :
    line ctx (some b) doc = (some (b.add doc), []) := by
  have htag := tag?_eq_none h
  unfold tag? at htag
  simp only [line, htag]
  rfl

theorem line_outside (h : isFence doc = false) : line ctx none doc = (none, []) := by
  have htag := tag?_eq_none h
  unfold tag? at htag
  simp only [line, htag]

theorem findings_append (xs ys : List DocLine) :
    findings ctx block (xs ++ ys) =
      findings ctx block xs ++ findings ctx (after ctx block xs) ys := by
  induction xs generalizing block with
  | nil => rfl
  | cons x xs ih =>
    simp only [List.cons_append, findings, after, List.foldl_cons, List.append_assoc]
    exact congrArg _ ih

theorem after_append (xs ys : List DocLine) :
    after ctx block (xs ++ ys) = after ctx (after ctx block xs) ys := List.foldl_append

/-- Every fence opens a block or closes one. -/
theorem after_eq_none_iff :
    after ctx block docs = none ↔ (Even (docs.countP isFence) ↔ block = none) := by
  induction docs generalizing block with
  | nil => simp [after]
  | cons doc docs ih =>
    have hcons : after ctx block (doc :: docs) = after ctx (line ctx block doc).1 docs := rfl
    rw [hcons, ih, List.countP_cons]
    cases hfence : isFence doc with
    | true =>
      obtain ⟨tag, htag⟩ := Option.isSome_iff_exists.1 hfence
      rw [if_pos rfl, Nat.even_add_one]
      cases block with
      | none => simp [line_opening htag]
      | some b => simp [line_closing hfence]
    | false =>
      cases block with
      | none => simp [line_outside hfence]
      | some b => simp [line_inside hfence]

/-- Lines inside a block are gathered. -/
theorem inside_block (hbody : ∀ doc ∈ docs, isFence doc = false) :
    after ctx (some b) docs = some (docs.foldl Block.add b) ∧ findings ctx (some b) docs = [] := by
  induction docs generalizing b with
  | nil => exact ⟨rfl, rfl⟩
  | cons doc docs ih =>
    obtain ⟨hdoc, hdocs⟩ := List.forall_mem_cons.1 hbody
    obtain ⟨hafter, hfound⟩ := @ih (b.add doc) hdocs
    have hline := @line_inside ctx b doc hdoc
    constructor
    · rw [← List.singleton_append, after_append]
      simp only [after, List.foldl_cons, List.foldl_nil, hline]
      exact hafter
    · rw [findings, hline, List.nil_append]
      exact hfound

/-! ### Passages -/

/-- The block that a fence opens and the lines behind it make up. -/
def gathered (opening : DocLine) (body : List DocLine) : Block :=
  body.foldl Block.add (Block.opened ((tag? opening).getD []) opening.line)

theorem exists_of_after (h : after ctx none docs = some b) :
    ∃ before opening body, docs = before ++ opening :: body ∧ Even (before.countP isFence) ∧
      isFence opening = true ∧ (∀ doc ∈ body, isFence doc = false) ∧ b = gathered opening body := by
  induction docs using List.reverseRecOn generalizing b with
  | nil => exact nomatch h
  | append_singleton docs doc ih =>
    have hlast : (line ctx (after ctx none docs) doc).1 = some b := by
      rw [after_append] at h
      exact h
    cases hfence : isFence doc with
    | true =>
      cases hopen : after ctx none docs with
      | some b' => simp [hopen, line_closing hfence] at hlast
      | none =>
        obtain ⟨tag, htag⟩ := Option.isSome_iff_exists.1 hfence
        rw [hopen, line_opening htag] at hlast
        obtain rfl := Option.some.inj hlast
        refine ⟨docs, doc, [], rfl, (after_eq_none_iff.1 hopen).2 rfl, hfence, nofun, ?_⟩
        simp [gathered, htag]
    | false =>
      cases hopen : after ctx none docs with
      | none => simp [hopen, line_outside hfence] at hlast
      | some b' =>
        rw [hopen, line_inside hfence] at hlast
        obtain ⟨before, opening, body, rfl, heven, hopens, hbody, rfl⟩ := ih hopen
        obtain rfl := Option.some.inj hlast
        refine ⟨before, opening, body ++ [doc], by simp, heven, hopens, ?_, ?_⟩
        · simpa [or_imp, forall_and, hfence] using hbody
        · simp [gathered]

/-- Documentation lines from one fence to the next. -/
structure Passage where
  opening : DocLine
  body : List DocLine
  closing : DocLine

namespace Passage

/-- The passage is a block of the documentation lines: its first fence opens a block, since an even
number of fences stands before it, and its last one is the next fence. -/
structure Of (p : Passage) (docs : List DocLine) : Prop where
  stands : ∃ before behind, docs = before ++ p.opening :: (p.body ++ p.closing :: behind) ∧
    Even (before.countP isFence)
  opens : isFence p.opening = true
  inside : ∀ doc ∈ p.body, isFence doc = false
  closes : isFence p.closing = true

/-- The block that the lines of a passage make up. -/
def gathered (p : Passage) : Block := DocCode.gathered p.opening p.body

end Passage

theorem isRenamable_gathered (opening : DocLine) (body : List DocLine) :
    (gathered opening body).isRenamable = isRenamableTag (blockTag opening) := by
  induction body using List.reverseRecOn with
  | nil => rfl
  | append_singleton body doc ih =>
    have hadd : gathered opening (body ++ [doc]) = (gathered opening body).add doc := by
      simp [gathered]
    rw [hadd, ← ih, Block.add]
    split <;> rfl

/-- **What is found in documentation lines** is what is found in the blocks that are closed. -/
theorem mem_findings_iff {f : Finding} :
    f ∈ findings ctx none docs ↔ ∃ p : Passage, p.Of docs ∧
      isRenamableTag (blockTag p.opening) = true ∧ f ∈ p.gathered.findings ctx := by
  constructor
  · intro h
    induction docs using List.reverseRecOn with
    | nil => exact nomatch h
    | append_singleton docs doc ih =>
      rw [findings_append, List.mem_append] at h
      rcases h with h | h
      · obtain ⟨p, hp, hrest⟩ := ih h
        obtain ⟨before, behind, hstands, heven⟩ := hp.stands
        refine ⟨p, ⟨⟨before, behind ++ [doc], by simp [hstands], heven⟩, hp.opens, hp.inside,
          hp.closes⟩, hrest⟩
      · cases hfence : isFence doc with
        | false =>
          cases hopen : after ctx none docs <;>
            simp [findings, hopen, line_outside hfence, line_inside hfence] at h
        | true =>
          cases hopen : after ctx none docs with
          | none =>
            obtain ⟨tag, htag⟩ := Option.isSome_iff_exists.1 hfence
            simp [findings, hopen, line_opening htag] at h
          | some b =>
            obtain ⟨before, opening, body, rfl, heven, hopens, hbody, rfl⟩ := exists_of_after hopen
            simp only [findings, hopen, line_closing hfence, List.append_nil] at h
            split at h
            · rename_i hren
              rw [isRenamable_gathered] at hren
              exact ⟨⟨opening, body, doc⟩, ⟨⟨before, [], by simp, heven⟩, hopens, hbody, hfence⟩,
                hren, h⟩
            · exact nomatch h
  · rintro ⟨p, hp, hren, hf⟩
    obtain ⟨before, behind, rfl, heven⟩ := hp.stands
    obtain ⟨tag, htag⟩ := Option.isSome_iff_exists.1 hp.opens
    have hstart : after ctx none before = none := after_eq_none_iff.2 (by simp [heven])
    obtain ⟨hafter, hinside⟩ :=
      @inside_block ctx (Block.opened tag p.opening.line) p.body hp.inside
    have hblock : p.gathered = p.body.foldl Block.add (Block.opened tag p.opening.line) := by
      simp [Passage.gathered, gathered, htag]
    have hren' : p.gathered.isRenamable = true := (isRenamable_gathered p.opening p.body).trans hren
    simp only [findings_append, findings, hstart, line_opening htag, hafter, hinside,
      line_closing hp.closes, ← hblock, hren', List.nil_append, if_true, List.mem_append]
    exact .inr (.inl hf)

end DocCode

end GetterRename
