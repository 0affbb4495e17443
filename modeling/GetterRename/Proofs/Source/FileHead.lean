import GetterRename.Proofs.Source.Nesting
import GetterRename.Proofs.Source.Renaming

/-!
# The head of a file

Scanning a file starts behind its `#!` line.  Renaming behind that line neither changes it nor
makes one: a byte that belongs to no identifier stands at the head of the renamed text exactly when
it stood there before.

* `Event.shebang_spec` — the `#!` line of a text;
* `Renamed.head?_iff` — the heads of a text and of the renamed text;
* `Event.shebang_renamed` — the `#!` line of the renamed text;
* `Token.exists_head`, `Token.body_renamed` — where scanning starts, before and after.
-/

namespace GetterRename

namespace Event

theorem exists_takeWhile (text : Bytes) :
    ∃ a b, text = a ++ b ∧ text.takeWhile (· != byte '\n') = a ∧ byte '\n' ∉ a ∧
      b.head?.all (· == byte '\n') = true := by
  refine ⟨_, _, List.takeWhile_append_dropWhile.symm, rfl, fun hmem => ?_, ?_⟩
  · simpa using List.mem_takeWhile_imp hmem
  · have := List.head?_dropWhile_not (· != byte '\n') text
    cases hd : (text.dropWhile (· != byte '\n')).head? with
    | none => rfl
    | some c => simpa [hd] using this

theorem takeWhile_append {a b : Bytes} (ha : byte '\n' ∉ a)
    (hb : b.head?.all (· == byte '\n') = true) : (a ++ b).takeWhile (· != byte '\n') = a := by
  have hall : ∀ c ∈ a, (c != byte '\n') = true := by
    intro c hc
    rw [bne_iff_ne]
    rintro rfl
    exact ha hc
  rw [List.takeWhile_append_of_pos hall]
  cases b with
  | nil => simp
  | cons c b =>
    obtain rfl : c = byte '\n' := by simpa using hb
    simp

theorem shebang_spec (text : Bytes) :
    byte '\n' ∉ text.take (shebang text) ∧
      (shebang text = 0 ∨ (text.drop (shebang text)).head?.all (· == byte '\n') = true) := by
  unfold shebang
  split
  · obtain ⟨a, b, rfl, htake, ha, hb⟩ := exists_takeWhile text
    rw [htake, List.take_left, List.drop_left]
    exact ⟨ha, .inr hb⟩
  · exact ⟨by simp, .inl rfl⟩

/-- A text has a `#!` line when it starts with these two bytes and a bracket does not follow. -/
theorem shebang_eq (text : Bytes) :
    shebang text = 0 ∧ (∀ rest, text = byte '#' :: byte '!' :: rest → rest.head? = some (byte '[')) ∨
      ∃ a b, text = byte '#' :: byte '!' :: (a ++ b) ∧ (a ++ b).head? ≠ some (byte '[') ∧
        shebang text = a.length + 2 ∧ byte '\n' ∉ a ∧ b.head?.all (· == byte '\n') = true := by
  unfold shebang
  split
  · rename_i h
    simp only [Bool.and_eq_true, bne_iff_ne] at h
    obtain ⟨rest, rfl⟩ := List.isPrefixOf_iff_prefix.1 h.1
    obtain ⟨a, b, rfl, htake, ha, hb⟩ := exists_takeWhile rest
    refine .inr ⟨a, b, rfl, ?_, ?_, ha, hb⟩
    · rw [List.head?_eq_getElem?]
      exact h.2
    · have hhead : ∀ c ∈ Bytes.ofString "#!", (c != byte '\n') = true := by decide +kernel
      rw [List.takeWhile_append_of_pos hhead, htake, List.length_append, Nat.add_comm]
      rfl
  · rename_i h
    refine .inl ⟨rfl, ?_⟩
    rintro rest rfl
    by_contra hb
    refine h ?_
    simp only [Bool.and_eq_true, bne_iff_ne]
    refine ⟨List.isPrefixOf_iff_prefix.2 ⟨rest, rfl⟩, ?_⟩
    rwa [List.head?_eq_getElem?] at hb

theorem shebang_line {a b : Bytes} (hbracket : (a ++ b).head? ≠ some (byte '['))
    (ha : byte '\n' ∉ a) (hb : b.head?.all (· == byte '\n') = true) :
    shebang (byte '#' :: byte '!' :: (a ++ b)) = a.length + 2 := by
  have hcond : (Bytes.startsWith (byte '#' :: byte '!' :: (a ++ b)) "#!" &&
      (byte '#' :: byte '!' :: (a ++ b))[2]? != some (byte '[')) = true := by
    rw [List.head?_eq_getElem?] at hbracket
    simp only [Bool.and_eq_true, bne_iff_ne]
    exact ⟨List.isPrefixOf_iff_prefix.2 ⟨a ++ b, rfl⟩, hbracket⟩
  have hline : byte '\n' ∉ byte '#' :: byte '!' :: a := by
    simp only [List.mem_cons, not_or]
    exact ⟨by decide, by decide, ha⟩
  rw [shebang, if_pos hcond, ← List.cons_append, ← List.cons_append, takeWhile_append hline hb]
  rfl

end Event

namespace Renamed

/-- Another byte than those of identifiers, and than the newline at the end, is no new head. -/
theorem head?_iff {es es' : List Element} (h : Renamed es es') {c : UInt8}
    (hc : isRunByte c = false) (hn : c ≠ byte '\n') :
    (Element.textL es').head? = some c ↔ (Element.textL es).head? = some c := by
  induction h with
  | nil => rfl
  | newline => simpa using fun h => hn h.symm
  | keep e rest ih =>
    cases htext : e.text with
    | nil => simpa [htext] using ih
    | cons b text => simp [htext]
  | @rename old new es es' hold hnew hnext rest ih =>
    obtain ⟨b, new, rfl⟩ := List.exists_cons_of_ne_nil hnew.ne_nil
    cases old with
    | nil => simp at hold
    | cons a old =>
      have ha : isRunByte a = true := by simp [isRunByte, show isWordByte a = true from hold]
      have hb : isRunByte b = true := by simpa [isRunByte] using hnew.run.forall_mem b (by simp)
      have hac := Piece.ne_of_isRunByte ha hc
      have hbc := Piece.ne_of_isRunByte hb hc
      simp [hac, hbc]
  | @comment piece old new es es' hpiece words rest ih =>
    cases old with
    | nil =>
      cases words
      simpa using ih
    | cons b old =>
      rcases words.cons_cases with ⟨y, rfl, -⟩ | ⟨hb, d, y, rfl, hd⟩
      · simp
      · simp [Piece.ne_of_isRunByte hb hc, Piece.ne_of_isRunByte hd hc]
  | front free rest ih => simp [Element.newline]

theorem split_of_punct {es es' : List Element} (h : Renamed es es')
    (hreads : Reads (Element.textL es') es') {c : UInt8} {rest : Bytes}
    (hc : Piece.lead c = .punct) (htext : Element.textL es' = c :: rest) :
    ∃ es₁ es₁', Renamed es₁ es₁' ∧ Element.textL es = c :: Element.textL es₁ ∧
      rest = Element.textL es₁' ∧ Reads (Element.textL es₁') es₁' := by
  generalize Element.textL es' = text at hreads htext
  cases hreads with
  | done => simp at htext
  | @next b x y piece es₁' element reads =>
    obtain ⟨rfl, rfl⟩ := List.cons.inj htext
    rw [Piece.at?_eq, hc] at element
    obtain ⟨-, hx⟩ := Prod.mk.inj (Except.ok.inj element)
    obtain rfl : x = [] := List.eq_nil_of_length_eq_zero hx.symm
    have hrun : isRunByte b = false :=
      Piece.isRunByte_eq_false (by rw [hc]; decide) (by rw [hc]; decide)
    rw [List.nil_append, ← reads.textL_eq]
    cases h with
    | newline => exact absurd hc (by decide)
    | keep e rest => exact ⟨_, es₁', rest, by simp, rfl, reads.of_textL⟩
    | rename hold hnew hnext rest =>
      have := hnew.run.forall_mem b (by simp)
      simp only [isRunByte, Bool.or_eq_false_iff, decide_eq_false_iff_not] at hrun
      rcases this with hw | hge
      · rw [hrun.1] at hw
        exact absurd hw (by simp)
      · exact absurd hge hrun.2
    | comment hpiece words rest =>
      obtain rfl := (Prod.mk.inj (Except.ok.inj element)).1
      rcases hpiece with hpiece | hpiece <;> cases hpiece
    | front free rest => exact absurd hc (by decide)

end Renamed

/-- **The `#!` line stays.** -/
theorem Event.shebang_renamed {head : Bytes} {es es' : List Element}
    (hreads : Reads (Element.textL es) es) (hr : Renamed es es')
    (hhead : shebang (head ++ Element.textL es) = head.length) :
    shebang (head ++ Element.textL es') = head.length := by
  obtain ⟨hreads', hnear⟩ := hreads.renamed hr
  rcases shebang_eq (head ++ Element.textL es) with ⟨hzero, hno⟩ | ⟨a, b, heq, hbracket, hlen, ha, hb⟩
  · obtain rfl : head = [] := List.eq_nil_of_length_eq_zero (hhead.symm.trans hzero)
    rw [List.nil_append] at hno ⊢
    rcases shebang_eq (Element.textL es') with ⟨hzero', -⟩ | ⟨a, b, heq, hbracket, -⟩
    · exact hzero'
    -- the bytes `#!` would be elements of the text before
    exfalso
    obtain ⟨es₁, es₁', hr₁, htext₁, hrest₁, hreads₁⟩ := hr.split_of_punct hreads' (by decide) heq
    obtain ⟨es₂, es₂', hr₂, htext₂, hrest₂, -⟩ :=
      hr₁.split_of_punct hreads₁ (by decide) hrest₁.symm
    rw [htext₁, htext₂] at hno
    rw [hrest₂] at hbracket
    exact hbracket ((hr₂.head?_iff (by decide) (by decide)).2 (hno _ rfl))
  · rw [hlen] at hhead
    obtain ⟨rfl, rfl⟩ : head = byte '#' :: byte '!' :: a ∧ Element.textL es = b := by
      rw [← List.cons_append, ← List.cons_append] at heq
      exact List.append_inj heq (by simpa using hhead.symm)
    have hb' := hnear.lineEnd hb
    rw [List.cons_append, List.cons_append, shebang_line ?_ ha hb']
    · rfl
    cases a with
    | nil =>
      cases hc : (Element.textL es').head? with
      | none => simp [hc]
      | some c =>
        obtain rfl : c = byte '\n' := by simpa [hc] using hb'
        simp only [List.nil_append, hc]
        decide
    | cons c a => simpa using hbracket

/-- No byte order mark is read. -/
theorem Reads.no_byteOrderMark {text : Bytes} {es : List Element} (h : Reads text es) :
    Bytes.startsWith text Event.byteOrderMark = false := by
  by_contra hstart
  rw [Bool.not_eq_false] at hstart
  obtain ⟨rest, rfl⟩ := List.isPrefixOf_iff_prefix.1 hstart
  have hs : GetterRename.startsIdent (Event.byteOrderMark ++ rest) = true := h.startsIdent (by decide)
  have hno : GetterRename.startsIdent (Event.byteOrderMark ++ rest) = false := by
    have hdec : Utf8.decode? (Event.byteOrderMark ++ rest) = some (0xFEFF, 3) := rfl
    have : isIdentStart 0xFEFF = false := by decide +kernel
    simp [GetterRename.startsIdent, Utf8.headCode, hdec, this]
  rw [hs] at hno
  exact absurd hno (by simp)

namespace Token

theorem body_of_head {head text : Bytes}
    (hbom : Bytes.startsWith (head ++ text) Event.byteOrderMark = false)
    (hhead : Event.shebang (head ++ text) = head.length) :
    body (head ++ text) = text ∧ start (head ++ text) = ⟨1, head.length⟩ := by
  have hdrop : Bytes.dropHead Event.byteOrderMark (head ++ text) = head ++ text := by
    simp [Bytes.dropHead, Bytes.after?, hbom]
  rw [body, start, hdrop, hhead]
  exact ⟨List.drop_left, rfl⟩

theorem exists_head {src : Bytes} (hbom : Bytes.startsWith src Event.byteOrderMark = false) :
    ∃ head, src = head ++ body src ∧ Event.shebang src = head.length ∧
      start src = ⟨1, head.length⟩ ∧ byte '\n' ∉ head ∧
      (head = [] ∨ (body src).head?.all (· == byte '\n') = true) := by
  obtain ⟨hline, hend⟩ := Event.shebang_spec src
  have hsplit := List.take_append_drop (Event.shebang src) src
  have hlen : Event.shebang src = (src.take (Event.shebang src)).length := by
    rw [List.length_take, Nat.min_eq_left]
    unfold Event.shebang
    split
    · exact (List.takeWhile_sublist _).length_le
    · exact Nat.zero_le _
  generalize src.take (Event.shebang src) = head at *
  generalize src.drop (Event.shebang src) = text at *
  subst hsplit
  obtain ⟨hbody, hstart⟩ := body_of_head hbom hlen
  rw [hbody]
  refine ⟨head, rfl, hlen, hstart, hline, hend.imp_left fun h => ?_⟩
  exact List.eq_nil_of_length_eq_zero (hlen.symm.trans h)

theorem no_byteOrderMark_of_head {head text : Bytes} {es : List Element} (hreads : Reads text es)
    (hhead : Event.shebang (head ++ text) = head.length) :
    Bytes.startsWith (head ++ text) Event.byteOrderMark = false := by
  rcases Event.shebang_eq (head ++ text) with ⟨hzero, -⟩ | ⟨a, b, heq, -⟩
  · obtain rfl : head = [] := List.eq_nil_of_length_eq_zero (hhead.symm.trans hzero)
    exact hreads.no_byteOrderMark
  · rw [heq]
    rfl

/-- Scanning the renamed text starts where scanning the text started. -/
theorem body_renamed {head : Bytes} {es es' : List Element} (hreads : Reads (Element.textL es) es)
    (hr : Renamed es es') (hhead : Event.shebang (head ++ Element.textL es) = head.length) :
    body (head ++ Element.textL es') = Element.textL es' ∧
      start (head ++ Element.textL es') = ⟨1, head.length⟩ := by
  have hhead' := Event.shebang_renamed hreads hr hhead
  exact body_of_head (no_byteOrderMark_of_head (hreads.renamed hr).1 hhead') hhead'

end Token

end GetterRename
