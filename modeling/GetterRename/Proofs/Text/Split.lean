import GetterRename.Text.Bytes
import Mathlib.Algebra.GroupWithZero.Nat

/-!
# Texts and their parts

A text is cut at each separator, and the parts put together with separators between them are the
text again.

* `Bytes.splitOn_spec` — the parts of a text hold no separator, and together they are the text;
* `Bytes.splitOn_append` — the parts of two texts with a separator between them;
* `Bytes.splitOn_join` — parts put together are found again;
* `Bytes.cutFirst_cases`, `Bytes.cutFirst_append` — what stands before and after the first separator.
-/

namespace GetterRename.Bytes

theorem splitOn_spec (sep : UInt8) (text : Bytes) :
    ∃ parts last, splitOn sep text = parts ++ [last] ∧
      text = parts.flatMap (· ++ [sep]) ++ last ∧ ∀ part ∈ parts ++ [last], sep ∉ part := by
  induction text with
  | nil => exact ⟨[], [], rfl, rfl, by simp⟩
  | cons b text ih =>
    obtain ⟨parts, last, hsplit, htext, hsep⟩ := ih
    unfold splitOn
    by_cases hb : b = sep
    · subst hb
      rw [if_pos rfl, hsplit]
      refine ⟨[] :: parts, last, rfl, by simp [← htext], ?_⟩
      rw [List.cons_append, List.forall_mem_cons]
      exact ⟨by simp, hsep⟩
    · rw [if_neg hb, hsplit]
      cases parts with
      | nil =>
        refine ⟨[], b :: last, rfl, by simp [htext], ?_⟩
        have := hsep last (by simp)
        simpa using ⟨fun h => hb h.symm, this⟩
      | cons part parts =>
        refine ⟨(b :: part) :: parts, last, rfl, by simp [htext], ?_⟩
        obtain ⟨hpart, hrest⟩ := List.forall_mem_cons.1 hsep
        rw [List.cons_append, List.forall_mem_cons]
        refine ⟨?_, hrest⟩
        simpa using ⟨fun h => hb h.symm, hpart⟩

theorem not_mem_of_mem_splitOn {sep : UInt8} {text part : Bytes} (h : part ∈ splitOn sep text) :
    sep ∉ part := by
  obtain ⟨parts, last, hsplit, -, hsep⟩ := splitOn_spec sep text
  exact hsep part (hsplit ▸ h)

theorem splitOn_ne_nil (sep : UInt8) (text : Bytes) : splitOn sep text ≠ [] := by
  obtain ⟨parts, last, hsplit, -, -⟩ := splitOn_spec sep text
  simp [hsplit]

theorem splitOn_of_not_mem {sep : UInt8} {text : Bytes} (h : sep ∉ text) :
    splitOn sep text = [text] := by
  induction text with
  | nil => rfl
  | cons b text ih =>
    rw [List.mem_cons, not_or] at h
    rw [splitOn, if_neg (fun hb => h.1 hb.symm), ih h.2]

theorem splitOn_append (sep : UInt8) (text rest : Bytes) :
    splitOn sep (text ++ sep :: rest) = splitOn sep text ++ splitOn sep rest := by
  induction text with
  | nil => simp [splitOn]
  | cons b text ih =>
    rw [List.cons_append]
    by_cases hb : b = sep
    · simp [splitOn, hb, ih]
    · obtain ⟨part, parts, hsplit⟩ := List.exists_cons_of_ne_nil (splitOn_ne_nil sep text)
      simp [splitOn, hb, ih, hsplit]

/-- Parts with a separator behind each. -/
theorem splitOn_flatMap {sep : UInt8} {parts : List Bytes} (h : ∀ part ∈ parts, sep ∉ part) :
    splitOn sep (parts.flatMap (· ++ [sep])) = parts ++ [[]] := by
  induction parts with
  | nil => rfl
  | cons part parts ih =>
    obtain ⟨hpart, hrest⟩ := List.forall_mem_cons.1 h
    rw [List.flatMap_cons, List.append_assoc, List.singleton_append, splitOn_append, ih hrest,
      splitOn_of_not_mem hpart, List.singleton_append, List.cons_append]

theorem join_cons (sep part : Bytes) {parts : List Bytes} (h : parts ≠ []) :
    join sep (part :: parts) = part ++ sep ++ join sep parts := by
  cases parts with
  | nil => exact absurd rfl h
  | cons next rest => rfl

theorem splitOn_join {sep : UInt8} {parts : List Bytes} (hne : parts ≠ [])
    (h : ∀ part ∈ parts, sep ∉ part) : splitOn sep (join [sep] parts) = parts := by
  induction parts with
  | nil => exact absurd rfl hne
  | cons part parts ih =>
    obtain ⟨hpart, hrest⟩ := List.forall_mem_cons.1 h
    by_cases hlast : parts = []
    · subst hlast
      exact splitOn_of_not_mem hpart
    · rw [join_cons _ _ hlast, List.append_assoc, List.singleton_append, splitOn_append,
        ih hlast hrest, splitOn_of_not_mem hpart, List.singleton_append]

theorem mem_of_mem_splitOn {sep b : UInt8} {text part : Bytes} (h : part ∈ splitOn sep text)
    (hb : b ∈ part) : b ∈ text := by
  obtain ⟨parts, last, hsplit, htext, -⟩ := splitOn_spec sep text
  rw [hsplit, List.mem_append, List.mem_singleton] at h
  rw [htext]
  rcases h with h | rfl
  · exact List.mem_append_left _ (List.mem_flatMap.2 ⟨part, h, List.mem_append_left _ hb⟩)
  · exact List.mem_append_right _ hb

theorem mem_join {sep : Bytes} {b : UInt8} {parts : List Bytes} (h : b ∈ join sep parts) :
    b ∈ sep ∨ ∃ part ∈ parts, b ∈ part := by
  induction parts with
  | nil => simp [join] at h
  | cons part parts ih =>
    by_cases hlast : parts = []
    · subst hlast
      exact .inr ⟨part, List.mem_cons_self, h⟩
    · rw [join_cons _ _ hlast, List.mem_append, List.mem_append] at h
      rcases h with (h | h) | h
      · exact .inr ⟨part, List.mem_cons_self, h⟩
      · exact .inl h
      · exact (ih h).imp_right fun ⟨p, hp, hb⟩ => ⟨p, List.mem_cons_of_mem _ hp, hb⟩

theorem head?_join (sep : Bytes) {part : Bytes} (parts : List Bytes) (h : part ≠ []) :
    (join sep (part :: parts)).head? = part.head? := by
  obtain ⟨b, rest, rfl⟩ := List.exists_cons_of_ne_nil h
  cases parts <;> rfl

/-! ### The first part -/

theorem cutFirst_cases (sep : UInt8) (text : Bytes) :
    (text = (cutFirst sep text).1 ∧ (cutFirst sep text).2 = none) ∨
      ∃ rest, (cutFirst sep text).2 = some rest ∧ text = (cutFirst sep text).1 ++ sep :: rest := by
  induction text with
  | nil => exact .inl ⟨rfl, rfl⟩
  | cons b text ih =>
    unfold cutFirst
    by_cases hb : b = sep
    · rw [if_pos hb]
      exact .inr ⟨text, rfl, by rw [hb]; rfl⟩
    · rw [if_neg hb]
      rcases ih with ⟨h1, h2⟩ | ⟨rest, h1, h2⟩
      · exact .inl ⟨congrArg (b :: ·) h1, h2⟩
      · exact .inr ⟨rest, h1, congrArg (b :: ·) h2⟩

theorem cutFirst_of_not_mem {sep : UInt8} {text : Bytes} (h : sep ∉ text) :
    cutFirst sep text = (text, none) := by
  induction text with
  | nil => rfl
  | cons b text ih =>
    rw [List.mem_cons, not_or] at h
    rw [cutFirst, if_neg (fun hb => h.1 hb.symm), ih h.2]

theorem cutFirst_append {sep : UInt8} {part : Bytes} (h : sep ∉ part) (rest : Bytes) :
    cutFirst sep (part ++ sep :: rest) = (part, some rest) := by
  induction part with
  | nil => exact if_pos rfl
  | cons b part ih =>
    rw [List.mem_cons, not_or] at h
    rw [List.cons_append, cutFirst, if_neg (fun hb => h.1 hb.symm), ih h.2]

/-! ### Texts behind a head -/

theorem dropHead_append (head text : Bytes) : dropHead head (head ++ text) = text := by
  have hstart : startsWith (head ++ text) head = true :=
    List.isPrefixOf_iff_prefix.2 (List.prefix_append head text)
  rw [dropHead, after?, if_pos hstart, List.drop_left, Option.getD_some]

theorem dropHead_eq_self {head text : Bytes} (h : ¬ head <+: text) :
    dropHead head text = text := by
  have hstart : ¬ startsWith text head = true := fun hs => h (List.isPrefixOf_iff_prefix.1 hs)
  rw [dropHead, after?, if_neg hstart, Option.getD_none]

theorem dropHead_cases (head text : Bytes) :
    (∃ rest, text = head ++ rest ∧ dropHead head text = rest) ∨
      ¬ head <+: text ∧ dropHead head text = text := by
  by_cases h : head <+: text
  · obtain ⟨rest, rfl⟩ := h
    exact .inl ⟨rest, rfl, dropHead_append head rest⟩
  · exact .inr ⟨h, dropHead_eq_self h⟩

/-! ### Lengths -/

/-- The number of bytes of parts with a separator behind each. -/
def weight (parts : List Bytes) : Nat := (parts.map (·.length + 1)).sum

@[simp] theorem weight_nil : weight [] = 0 := rfl

@[simp] theorem weight_cons (part : Bytes) (parts : List Bytes) :
    weight (part :: parts) = part.length + 1 + weight parts := by
  simp [weight]

@[simp] theorem weight_append (xs ys : List Bytes) : weight (xs ++ ys) = weight xs + weight ys := by
  simp [weight]

@[simp] theorem weight_reverse (parts : List Bytes) : weight parts.reverse = weight parts := by
  induction parts with
  | nil => rfl
  | cons part parts ih =>
    rw [List.reverse_cons, weight_append, ih, weight_cons, weight_cons, weight_nil]
    omega

theorem weight_splitOn (sep : UInt8) (text : Bytes) :
    weight (splitOn sep text) = text.length + 1 := by
  obtain ⟨parts, last, hsplit, htext, -⟩ := splitOn_spec sep text
  have hparts : (parts.flatMap (· ++ [sep])).length = weight parts := by
    simp [weight, List.length_flatMap]
  have hlength := congrArg List.length htext
  rw [List.length_append, hparts] at hlength
  rw [hsplit, weight_append, weight_cons, weight_nil]
  omega

theorem length_join (sep : UInt8) {parts : List Bytes} (hne : parts ≠ []) :
    (join [sep] parts).length + 1 = weight parts := by
  induction parts with
  | nil => exact absurd rfl hne
  | cons part parts ih =>
    by_cases hlast : parts = []
    · subst hlast
      rfl
    · have hrest := ih hlast
      rw [join_cons _ _ hlast, List.length_append, List.length_append, weight_cons, ← hrest]
      simp only [List.length_singleton]
      omega

end GetterRename.Bytes
