import GetterRename.Proofs.Patch.Walk
import GetterRename.Proofs.Source.Tiling

/-!
# Places on lines

A place in a text is a line and a column, and the text from there on is the rest of that line.  An
identifier that was read from the text stands on its line as a whole identifier: the byte in front
of it ends another element, and the byte behind it continues nothing.

* `Patch.exists_line` — the line of a place;
* `Reads.closed_before`, `Reads.closed_behind` — the bytes around an identifier;
* `Patch.isIdentAt_of_split` — an identifier on its line;
* `Token.exists_line_of_mem` — the line of a name, in any file.
-/

namespace GetterRename

/-! ### Around an identifier -/

namespace Reads

theorem element_of_split {text : Bytes} {e : Element} {es₁ es₂ : List Element}
    (h : Reads text (es₁ ++ e :: es₂)) :
    ∃ b x, e.text = b :: x ∧ Piece.at? b (x ++ Element.textL es₂) = .ok (e.piece, x.length) ∧
      Reads (Element.textL es₂) es₂ := by
  have hrest := h.append_right
  generalize Element.textL (e :: es₂) = rest at hrest
  cases hrest with
  | @next b x y piece es element reads =>
    rw [reads.textL_eq]
    exact ⟨b, x, rfl, element, reads⟩

/-- No identifier byte stands right in front of an element that starts with a letter. -/
theorem closed_before {text : Bytes} {e : Element} {es₁ es₂ : List Element}
    (h : Reads text (es₁ ++ e :: es₂)) (he : e.text.head?.any isWordByte = true)
    (hne : es₁ ≠ []) :
    ∃ c, (Element.textL es₁).getLast? = some c ∧ isRunByte c = false := by
  obtain ⟨es₀, e₀, rfl⟩ : ∃ es₀ e₀, es₁ = es₀ ++ [e₀] :=
    ⟨es₁.dropLast, es₁.getLast hne, (List.dropLast_append_getLast hne).symm⟩
  rw [List.append_assoc, List.singleton_append] at h
  obtain ⟨b, x, htext, element, -⟩ := h.element_of_split
  have hnext : (Element.textL (e :: es₂)).head?.any isWordByte = true := by
    rw [Element.textL_cons]
    cases htext : e.text with
    | nil => simp [htext] at he
    | cons c t => simpa [htext] using he
  obtain ⟨c, hc, hrun⟩ := Piece.at?_closed element hnext
  refine ⟨c, ?_, hrun⟩
  simp only [Element.textL_append, Element.textL_cons, Element.textL_nil, List.append_nil, htext]
  rw [List.getLast?_append, hc]
  rfl

/-- No identifier byte stands right behind an identifier. -/
theorem closed_behind {text : Bytes} {name : Bytes} {es₁ es₂ : List Element}
    (h : Reads text (es₁ ++ ⟨.ident, name⟩ :: es₂)) :
    (Element.textL es₂).head?.any isRunByte = false := by
  obtain ⟨b, x, -, element, reads⟩ := h.element_of_split
  have hid := (Piece.at?_ident element).2.1
  generalize Element.textL es₂ = y at element reads hid ⊢
  cases y with
  | nil => rfl
  | cons c y =>
    by_contra hc
    simp only [List.head?_cons, Option.any_some, Bool.not_eq_false, isRunByte, Bool.or_eq_true,
      decide_eq_true_eq] at hc
    rcases hc with hw | hge
    · exact Piece.identifier_ne_zero hw y hid
    · have := identifier_pos_of_startsIdent (reads.startsIdent hge)
      omega

/-- What is read as an identifier and does not start with `r` is a name. -/
theorem isName {text : Bytes} {name : Bytes} {es₁ es₂ : List Element}
    (h : Reads text (es₁ ++ ⟨.ident, name⟩ :: es₂)) (hr : name.head? ≠ some (byte 'r')) :
    IsName name := by
  obtain ⟨b, x, rfl, element, -⟩ := h.element_of_split
  refine (Piece.at?_ident element).2.2.resolve_right ?_
  rintro ⟨rfl, -⟩
  exact hr rfl

end Reads

/-! ### Lines -/

/-- A name does not reach over the end of its line. -/
theorem IsName.exists_of_line {name c line below : Bytes} (hname : IsName name)
    (h : name ++ c = line ++ byte '\n' :: below) :
    ∃ c', line = name ++ c' ∧ c = c' ++ byte '\n' :: below := by
  have hnl : byte '\n' ∉ name := fun hmem =>
    absurd (hname.run.forall_mem _ hmem) (by decide)
  rcases List.append_eq_append_iff.1 h with ⟨m, hm, hrest⟩ | ⟨m, rfl, hrest⟩
  · exact ⟨m, hm, hrest⟩
  · cases m with
    | nil => exact ⟨[], by simp, by simpa using hrest.symm⟩
    | cons d m =>
      obtain ⟨rfl, -⟩ := List.cons.inj hrest
      exact absurd (by simp) hnl

namespace Patch

theorem exists_line {texts : List Bytes} {a b : Bytes} {k : Nat}
    (hline : ∀ text ∈ texts, byte '\n' ∉ text)
    (h : texts.flatMap (· ++ [byte '\n']) = a ++ b) (hb : b ≠ []) :
    ∃ i text, ((⟨k, 0⟩ : Pos).advance a).line = k + i ∧ texts[i]? = some text ∧
      ((⟨k, 0⟩ : Pos).advance a).col ≤ text.length ∧
      (∃ above, a = above ++ text.take ((⟨k, 0⟩ : Pos).advance a).col) ∧
      ∃ below, b = text.drop ((⟨k, 0⟩ : Pos).advance a).col ++ byte '\n' :: below := by
  induction texts generalizing a k with
  | nil =>
    rw [List.flatMap_nil, eq_comm, List.append_eq_nil_iff] at h
    exact absurd h.2 hb
  | cons text texts ih =>
    obtain ⟨htext, htexts⟩ := List.forall_mem_cons.1 hline
    rw [List.flatMap_cons, List.append_assoc, List.singleton_append] at h
    rcases List.append_eq_append_iff.1 h with ⟨m, rfl, hm⟩ | ⟨m, rfl, hm⟩
    · cases m with
      | nil =>
        -- the place is the end of the line
        have hcol := Pos.advance_of_no_newline ⟨k, 0⟩ htext
        rw [List.append_nil, hcol]
        refine ⟨0, text, rfl, rfl, by simp, ⟨[], by simp⟩, ?_⟩
        exact ⟨texts.flatMap (· ++ [byte '\n']), by simpa using hm.symm⟩
      | cons c m =>
        obtain ⟨rfl, hm'⟩ := List.cons.inj hm
        have hadv : (⟨k, 0⟩ : Pos).advance (text ++ byte '\n' :: m) =
            (⟨k + 1, 0⟩ : Pos).advance m := by
          rw [Pos.advance_append, Pos.advance_of_no_newline _ htext, Pos.advance_cons]
          rfl
        obtain ⟨i, t, hl, ht, hcol, ⟨above, habove⟩, hbelow⟩ := @ih m (k + 1) htexts hm'
        rw [hadv]
        refine ⟨i + 1, t, by omega, by simpa using ht, hcol, ⟨text ++ byte '\n' :: above, ?_⟩,
          hbelow⟩
        rw [List.append_assoc, List.cons_append, ← habove]
    · have ha : byte '\n' ∉ a := fun hmem => htext (List.mem_append_left _ hmem)
      have hcol := Pos.advance_of_no_newline ⟨k, 0⟩ ha
      rw [hcol]
      refine ⟨0, a ++ m, rfl, rfl, by simp, ⟨[], by simp⟩, ?_⟩
      exact ⟨texts.flatMap (· ++ [byte '\n']), by simpa using hm⟩

theorem isIdentAt_of_split {texts : List Bytes} {a name c : Bytes} {k : Nat}
    (hline : ∀ text ∈ texts, byte '\n' ∉ text)
    (h : texts.flatMap (· ++ [byte '\n']) = a ++ (name ++ c)) (hname : IsName name)
    (hbefore : ∀ b, a.getLast? = some b → b = byte '\n' ∨ isRunByte b = false)
    (hbehind : c.head?.any isRunByte = false) :
    ∃ i text, ((⟨k, 0⟩ : Pos).advance a).line = k + i ∧ texts[i]? = some text ∧
      Line.isIdentAt text ((⟨k, 0⟩ : Pos).advance a).col name = true := by
  obtain ⟨i, text, hl, ht, hcol, ⟨above, habove⟩, below, hbelow⟩ :=
    @exists_line texts a (name ++ c) k hline h (by simp [hname.ne_nil])
  refine ⟨i, text, hl, ht, ?_⟩
  generalize ((⟨k, 0⟩ : Pos).advance a).col = col at hcol habove hbelow ⊢
  obtain ⟨c', hdrop, hc'⟩ := hname.exists_of_line hbelow
  have hlen := congrArg List.length hdrop
  simp only [List.length_drop, List.length_append] at hlen
  have hpos := List.length_pos_iff.2 hname.ne_nil
  refine Line.isIdentAt_iff.2 ⟨by omega, by rw [hdrop, List.take_left], ?_, ?_⟩
  · by_cases h0 : col = 0
    · exact .inl h0
    right
    have hlast : a.getLast? = text[col - 1]? := by
      rw [habove, List.getLast?_append]
      have : (text.take col).getLast? = text[col - 1]? := by
        rw [List.getLast?_eq_getElem?, List.length_take, Nat.min_eq_left hcol,
          List.getElem?_take_of_lt (by omega)]
      rw [this, List.getElem?_eq_getElem (by omega)]
      rfl
    rw [← hlast]
    cases hb : a.getLast? with
    | none => rfl
    | some b =>
      rw [Option.any_some, Line.isIdentByte_eq]
      rcases hbefore b hb with rfl | hrun
      · decide
      · exact hrun
  · have hbyte : text[col + name.length]? = c'.head? := by
      rw [← List.getElem?_drop, hdrop, List.getElem?_append_right (Nat.le_refl _), Nat.sub_self,
        List.head?_eq_getElem?]
    rw [hbyte]
    cases c' with
    | nil => rfl
    | cons d c' =>
      rw [hc'] at hbehind
      rw [List.head?_cons, Option.any_some, Line.isIdentByte_eq]
      exact hbehind

end Patch

/-- **An identifier on its line.**  Columns count from behind a byte order mark. -/
theorem Token.exists_line_of_mem {texts : List Bytes} {toks : List Token} {id : Ident}
    (hline : ∀ text ∈ texts, byte '\n' ∉ text)
    (hlex : lex (texts.flatMap (· ++ [byte '\n'])) = .ok toks) (hid : id ∈ safeNamesL toks)
    (hr : id.text.head? ≠ some (byte 'r')) :
    ∃ i text col, id.pos.line = 1 + i ∧ texts[i]? = some text ∧ id.text <+: text.drop col ∧
      col = id.pos.col + if id.pos.line = 1 then
        (Bytes.mark (texts.flatMap (· ++ [byte '\n']))).length else 0 := by
  obtain ⟨es, hreads, hnest⟩ := lex_eq_ok_iff.1 hlex
  obtain ⟨es₁, es₂, rfl, hpos, -⟩ := exists_elements_of_mem hreads hnest hid
  have hname := hreads.isName hr
  generalize hsrc : texts.flatMap (· ++ [byte '\n']) = src at hreads hpos ⊢
  have hbody : _ ++ body src = Bytes.dropHead Event.byteOrderMark src :=
    List.take_append_drop (Event.shebang (Bytes.dropHead Event.byteOrderMark src)) _
  rw [Event.start_eq, ← Pos.advance_append] at hpos
  generalize (Bytes.dropHead Event.byteOrderMark src).take _ = head at hbody hpos
  have hsplit : texts.flatMap (· ++ [byte '\n']) =
      Bytes.mark src ++ (head ++ Element.textL es₁) ++ (id.text ++ Element.textL es₂) := by
    have htext := Bytes.mark_append src
    rw [← hbody, ← hreads.textL_eq] at htext
    exact hsrc.trans (htext.symm.trans (by simp))
  have hplace : (⟨1, 0⟩ : Pos).advance (Bytes.mark src ++ (head ++ Element.textL es₁)) =
      ⟨id.pos.line, id.pos.col + if id.pos.line = 1 then (Bytes.mark src).length else 0⟩ := by
    rw [Pos.advance_append, Pos.advance_of_no_newline _ (Bytes.mark_no_newline src),
      Pos.advance_from, ← hpos, Nat.zero_add]
  obtain ⟨i, text, hl, ht, -, -, below, hbelow⟩ :=
    @Patch.exists_line texts _ _ 1 hline hsplit (by simp [hname.ne_nil])
  rw [hplace] at hl hbelow
  obtain ⟨rest, hrest, -⟩ := hname.exists_of_line hbelow
  exact ⟨i, text, _, hl, ht, ⟨rest, hrest.symm⟩, rfl⟩

end GetterRename
