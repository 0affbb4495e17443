import GetterRename.Proofs.Text.Identifier

/-!
# Extents are settled by the bytes they cover

An element that has an end is recognised by its own bytes, with any text behind them: a string up
to its closing quote, a raw string, a character, a nested comment.  The other elements stop where
the next byte does not continue them, so for these the next byte counts as well.

* `Extent.string?_inv`, `Extent.character?_inv`, `Extent.through?_inv`, `Extent.comment?_inv` —
  the bytes of an element with an end;
* `Extent.suffix_append_iff`, `Extent.number_stop`, `Extent.number_append` — where a suffix and a
  number stop.
-/

namespace GetterRename.Extent

/-! ### Elements with an end -/

theorem string?_inv {text : Bytes} {n : Nat} (h : string? text = some n) :
    ∃ body rest, text = body ++ rest ∧ body ≠ [] ∧ body.length = n ∧
      ∀ z, string? (body ++ z) = some n := by
  fun_induction string? text generalizing n with
  | case1 => simp at h
  | case2 =>
    simp only [Option.some.injEq] at h
    subst h
    refine ⟨[byte '"'], [], rfl, by simp, rfl, fun z => ?_⟩
    have hne : byte '"' ≠ byte '\\' := by decide
    cases z <;> simp [string?, hne]
  | case3 => simp at h
  | case4 c rest ih =>
    obtain ⟨m, hm, rfl⟩ := Option.map_eq_some_iff.1 h
    obtain ⟨body, rest', rfl, -, rfl, hz⟩ := ih hm
    exact ⟨byte '\\' :: c :: body, rest', rfl, by simp, rfl, fun z => by simp [string?, hz]⟩
  | case5 c rest h1 =>
    simp only [Option.some.injEq] at h
    subst h
    refine ⟨[byte '"'], c :: rest, rfl, by simp, rfl, fun z => ?_⟩
    cases z <;> simp [string?, h1]
  | case6 b c rest h1 h2 ih =>
    obtain ⟨m, hm, rfl⟩ := Option.map_eq_some_iff.1 h
    obtain ⟨body, rest', heq, hne, rfl, hz⟩ := ih hm
    obtain ⟨c', body, rfl⟩ := List.exists_cons_of_ne_nil hne
    refine ⟨b :: c' :: body, rest', by simp [heq], by simp, rfl, fun z => ?_⟩
    have := hz z
    simp only [List.cons_append] at this ⊢
    simp [string?, h1, h2, this]

theorem character?_inv {text : Bytes} {n : Nat} (h : character? text = some n) :
    ∃ body rest, text = body ++ rest ∧ body ≠ [] ∧ body.length = n ∧
      ∀ z, character? (body ++ z) = some n := by
  fun_induction character? text generalizing n with
  | case1 => simp at h
  | case2 =>
    simp only [Option.some.injEq] at h
    subst h
    refine ⟨[byte '\''], [], rfl, by simp, rfl, fun z => ?_⟩
    have h1 : byte '\'' ≠ byte '\n' := by decide
    have h2 : byte '\'' ≠ byte '\\' := by decide
    cases z <;> simp [character?, h1, h2]
  | case3 => simp at h
  | case4 => simp at h
  | case5 c rest h1 ih =>
    obtain ⟨m, hm, rfl⟩ := Option.map_eq_some_iff.1 h
    obtain ⟨body, rest', rfl, -, rfl, hz⟩ := ih hm
    exact ⟨byte '\\' :: c :: body, rest', rfl, by simp, rfl, fun z => by simp [character?, h1, hz]⟩
  | case6 c rest h1 h2 =>
    simp only [Option.some.injEq] at h
    subst h
    refine ⟨[byte '\''], c :: rest, rfl, by simp, rfl, fun z => ?_⟩
    cases z <;> simp [character?, h1, h2]
  | case7 b c rest h1 h2 h3 ih =>
    obtain ⟨m, hm, rfl⟩ := Option.map_eq_some_iff.1 h
    obtain ⟨body, rest', heq, hne, rfl, hz⟩ := ih hm
    obtain ⟨c', body, rfl⟩ := List.exists_cons_of_ne_nil hne
    refine ⟨b :: c' :: body, rest', by simp [heq], by simp, rfl, fun z => ?_⟩
    have := hz z
    simp only [List.cons_append] at this ⊢
    simp [character?, h1, h2, h3, this]

theorem comment?_inv {depth : Nat} {text : Bytes} {n : Nat} (h : comment? depth text = some n) :
    ∃ body rest, text = body ++ rest ∧ (depth ≠ 0 → body.getLast? = some (byte '/')) ∧
      body.length = n ∧ ∀ z, comment? depth (body ++ z) = some n := by
  fun_induction comment? depth text generalizing n with
  | case1 text =>
    simp only [Option.some.injEq] at h
    subst h
    exact ⟨[], text, rfl, by simp, rfl, fun z => by simp [comment?]⟩
  | case2 => simp at h
  | case3 => simp at h
  | case4 depth b c rest h1 ih =>
    obtain ⟨m, hm, rfl⟩ := Option.map_eq_some_iff.1 h
    obtain ⟨body, rest', rfl, hlast, rfl, hz⟩ := ih hm
    refine ⟨b :: c :: body, rest', rfl, fun _ => ?_, rfl, fun z => by simp [comment?, h1, hz]⟩
    simp [List.getLast?_cons, hlast]
  | case5 depth b c rest h1 h2 ih =>
    obtain ⟨m, hm, rfl⟩ := Option.map_eq_some_iff.1 h
    obtain ⟨body, rest', rfl, hlast, rfl, hz⟩ := ih hm
    refine ⟨b :: c :: body, rest', rfl, fun _ => ?_, rfl, fun z => by simp [comment?, h1, h2, hz]⟩
    have hc : c = byte '/' := by simpa using (show _ ∧ _ by simpa using h2).2
    cases depth with
    | zero =>
      obtain rfl : body = [] := by
        have := hz []
        simpa [comment?] using this.symm
      simp [hc]
    | succ depth => simp [List.getLast?_cons, hlast]
  | case6 depth b c rest h1 h2 ih =>
    obtain ⟨m, hm, rfl⟩ := Option.map_eq_some_iff.1 h
    obtain ⟨body, rest', heq, hlast, rfl, hz⟩ := ih hm
    have hlast := hlast (by simp)
    obtain ⟨c', body, rfl⟩ : ∃ c' body', body = c' :: body' := by
      cases body with
      | nil => simp at hlast
      | cons c' body => exact ⟨c', body, rfl⟩
    obtain ⟨rfl, -⟩ := List.cons.inj heq
    refine ⟨b :: c :: body, rest', by simp [heq], fun _ => ?_, by simp, fun z => ?_⟩
    · rw [List.getLast?_cons_cons, hlast]
    · have := hz z
      simp only [List.cons_append] at this ⊢
      simp [comment?, h1, h2, this]

theorem isPrefixOf_append_of_le {closing text : Bytes} (h : closing.length ≤ text.length)
    (z : Bytes) : closing.isPrefixOf (text ++ z) = closing.isPrefixOf text := by
  induction closing generalizing text with
  | nil => simp
  | cons c closing ih =>
    cases text with
    | nil => simp at h
    | cons b text => simp only [List.cons_append, List.isPrefixOf, ih (by simpa using h)]

theorem through?_inv {closing text : Bytes} {n : Nat} (hne : closing ≠ [])
    (h : through? closing text = some n) :
    ∃ body rest, text = body ++ rest ∧ closing.length ≤ body.length ∧ body.length = n ∧
      ∀ z, through? closing (body ++ z) = some n := by
  fun_induction through? closing text generalizing n with
  | case1 => simp at h
  | case2 b rest h1 =>
    simp only [Option.some.injEq] at h
    subst h
    obtain ⟨rest', hrest⟩ := List.isPrefixOf_iff_prefix.1 h1
    refine ⟨closing, rest', hrest.symm, Nat.le_refl _, rfl, fun z => ?_⟩
    obtain ⟨c, closing, rfl⟩ := List.exists_cons_of_ne_nil hne
    simp [through?]
  | case3 b rest h1 ih =>
    obtain ⟨m, hm, rfl⟩ := Option.map_eq_some_iff.1 h
    obtain ⟨body, rest', rfl, hle, rfl, hz⟩ := ih hm
    refine ⟨b :: body, rest', rfl, by simp; omega, rfl, fun z => ?_⟩
    have hlen : closing.length ≤ (b :: body).length := by simp; omega
    have h1' : closing.isPrefixOf (b :: body ++ z) = false := by
      rw [isPrefixOf_append_of_le hlen, ← isPrefixOf_append_of_le hlen rest']
      exact Bool.eq_false_iff.2 h1
    simp only [List.cons_append] at h1'
    simp [through?, h1', hz]

/-! ### Elements that stop before a byte -/

theorem suffix_append_iff {word rest : Bytes} :
    suffix (word ++ rest) = word.length ↔
      (∀ b ∈ word, isWordByte b = true) ∧ ∀ b, rest.head? = some b → isWordByte b = false := by
  induction word with
  | nil => cases rest <;> simp [suffix, List.takeWhile_cons]
  | cons c word ih =>
    unfold suffix at ih ⊢
    by_cases hc : isWordByte c = true
    · simp only [List.cons_append, List.takeWhile_cons, hc, if_true, List.length_cons,
        List.forall_mem_cons, true_and]
      rw [Nat.add_right_cancel_iff]
      exact ih
    · simp [hc]

theorem isWordByte_of_isDigitByte {b : UInt8} (h : isDigitByte b = true) : isWordByte b = true := by
  simp [isWordByte, h]

theorem number_le (isHex hasPoint : Bool) (last : UInt8) (text : Bytes) :
    number isHex hasPoint last text ≤ text.length := by
  induction text generalizing hasPoint last with
  | nil => exact Nat.le_refl _
  | cons b rest ih =>
    simp only [number, List.length_cons]
    split
    · exact Nat.succ_le_succ (ih _ _)
    split
    · exact Nat.succ_le_succ (ih _ _)
    split
    · exact Nat.succ_le_succ (ih _ _)
    · exact Nat.zero_le _

theorem number_stop {isHex hasPoint : Bool} {last : UInt8} {digits rest : Bytes}
    (h : number isHex hasPoint last (digits ++ rest) = digits.length) :
    rest.head?.any isWordByte = false := by
  induction digits generalizing hasPoint last with
  | nil =>
    cases rest with
    | nil => rfl
    | cons b rest =>
      by_contra hb
      simp only [List.head?_cons, Option.any_some, Bool.not_eq_false] at hb
      simp [number, hb] at h
  | cons b digits ih =>
    simp only [List.cons_append, number, List.length_cons] at h
    split at h
    · exact ih (Nat.succ.inj h)
    split at h
    · exact ih (Nat.succ.inj h)
    split at h
    · exact ih (Nat.succ.inj h)
    · simp at h

/-- A number stops where the text behind it does not continue it. -/
theorem number_append {isHex hasPoint : Bool} {last : UInt8} {digits rest rest' : Bytes}
    (h : number isHex hasPoint last (digits ++ rest) = digits.length)
    (hstop : ∀ hasPoint last, number isHex hasPoint last rest = 0 →
      number isHex hasPoint last rest' = 0) :
    number isHex hasPoint last (digits ++ rest') = digits.length := by
  induction digits generalizing hasPoint last with
  | nil => exact hstop hasPoint last h
  | cons b digits ih =>
    simp only [List.cons_append, number, List.length_cons] at h ⊢
    split at h
    · rename_i hb
      rw [if_pos hb, ih (by omega)]
    rename_i hb
    rw [if_neg hb]
    split at h
    · rename_i hp
      have hnum : number isHex true b (digits ++ rest) = digits.length := by omega
      have hp' : (b == byte '.' && !hasPoint && (digits ++ rest').head?.any isDigitByte) = true := by
        cases digits with
        | nil =>
          -- a digit behind the point would belong to the number
          exfalso
          cases rest with
          | nil => simp at hp
          | cons d rest =>
            have hd : isDigitByte d = true := by simp at hp; exact hp.2
            simp [number, isWordByte_of_isDigitByte hd] at hnum
        | cons d digits => simpa using hp
      rw [if_pos hp', ih hnum]
    split at h
    · rename_i hs
      have hdot : (b == byte '.') = false := by
        simp only [Bool.and_eq_true, Bool.or_eq_true, beq_iff_eq] at hs
        rcases hs.1.1 with rfl | rfl <;> decide
      rw [if_neg (by simp [hdot]), if_pos hs, ih (by omega)]
    · simp at h

end GetterRename.Extent
