import GetterRename.Proofs.Naming.Words
import Mathlib.Control.Monad.Basic

/-!
# Getters that get one name

The name of a getter that returns no `bool` is its suffix, with two exceptions: a keyword gets an
underscore, and a leading `mut` is moved behind.  A name made by an exception may be a suffix as
well, and then two getters get it; there are no other pairs.

* `Naming.IsMoved` — the suffixes with a `mut` to be moved;
* `Naming.suffix_kinds` — the three kinds of suffixes;
* `Naming.Clash`, `Naming.clash_iff` — the pairs of suffixes that get one name.
-/

namespace GetterRename.Naming

/-! ### Names by the kind of the suffix -/

/-- A `mut` and more stand in the suffix. -/
def IsMoved (suffix : Bytes) : Prop := ∃ rest, rest ≠ [] ∧ suffix = Bytes.ofString "mut_" ++ rest

theorem suffix_kinds (suffix : Bytes) :
    suffix = Bytes.ofString "type" ∨
      IsMoved suffix ∨ suffix ≠ Bytes.ofString "type" ∧ ¬ IsMoved suffix := by
  by_cases htype : suffix = Bytes.ofString "type"
  · exact .inl htype
  by_cases hmoved : IsMoved suffix
  · exact .inr (.inl hmoved)
  · exact .inr (.inr ⟨htype, hmoved⟩)

theorem lookup_exactSubstitutes {suffix : Bytes} (h : suffix ≠ Bytes.ofString "type") :
    exactSubstitutes.lookup suffix = none := by
  have hkeys : ∀ kv ∈ exactSubstitutes, kv.1 = Bytes.ofString "type" := by decide
  exact lookup_eq_none fun kv hkv heq => h (heq.trans (hkeys kv hkv))

theorem text_plain_type : (plain "type" .no).text = Bytes.ofString "type_" := by decide

theorem text_plain_moved {rest : Bytes} (h : rest ≠ []) :
    (plain (Bytes.ofString "mut_" ++ rest) .no).text = rest ++ Bytes.ofString "_mut" := by
  obtain ⟨b, rest, rfl⟩ := List.exists_cons_of_ne_nil h
  have hkey : Bytes.ofString "mut_" ++ b :: rest ≠ Bytes.ofString "type" := fun heq =>
    absurd (List.cons.inj heq).1 (by decide)
  have hword : byte '_' ∉ Bytes.ofString "mut" := by decide
  have hcut : Bytes.cutFirst (byte '_') (Bytes.ofString "mut_" ++ b :: rest) =
      (Bytes.ofString "mut", some (b :: rest)) := Bytes.cutFirst_append hword (b :: rest)
  have hmut : moved.contains (Bytes.ofString "mut") = true := by decide
  simp only [plain, lookup_exactSubstitutes hkey, hcut, hmut, if_true]
  rfl

theorem text_plain_stays {suffix : Bytes} (htype : suffix ≠ Bytes.ofString "type")
    (hmoved : ¬ IsMoved suffix) : (plain suffix .no).text = suffix := by
  unfold plain
  rw [lookup_exactSubstitutes htype]
  simp only
  split
  · rename_i first b rest hcut
    split
    · rename_i hfirst
      -- the first word would be a `mut` with more behind it
      have hwords : ∀ word ∈ moved, word = Bytes.ofString "mut" := by decide
      obtain rfl := hwords first (by simpa using hfirst)
      rcases Bytes.cutFirst_cases (byte '_') suffix with ⟨-, hnone⟩ | ⟨rest', hsome, hsuffix⟩
      · rw [hcut] at hnone
        exact nomatch hnone
      · rw [hcut] at hsome hsuffix
        obtain rfl := Option.some.inj hsome
        exact absurd ⟨b :: rest, by simp, hsuffix⟩ hmoved
    · rfl
  · rfl

/-! ### Pairs of suffixes -/

/-- Two suffixes that get one name: the first one is changed to the second, which stays. -/
inductive Clash : Bytes → Bytes → Prop
  | keyword : Clash "type" "type_"
  | moved {rest : Bytes} (hne : rest ≠ []) (hstays : ¬ IsMoved (rest ++ Bytes.ofString "_mut")) :
    Clash (Bytes.ofString "mut_" ++ rest) (rest ++ Bytes.ofString "_mut")

theorem append_mut_ne (rest : Bytes) : rest ++ Bytes.ofString "_mut" ≠ Bytes.ofString "type" ∧
    rest ++ Bytes.ofString "_mut" ≠ Bytes.ofString "type_" := by
  have hlast : (rest ++ Bytes.ofString "_mut").getLast? = some (byte 't') := by
    rw [List.getLast?_append]
    rfl
  constructor
  all_goals
    intro heq
    rw [heq] at hlast
    exact absurd hlast (by decide)

theorem Clash.text_eq {s t : Bytes} (h : Clash s t) : (plain s .no).text = (plain t .no).text := by
  cases h with
  | keyword => decide
  | moved hne hstays => rw [text_plain_moved hne, text_plain_stays (append_mut_ne _).1 hstays]

theorem clash_of_type {t : Bytes} (hne : t ≠ Bytes.ofString "type")
    (h : (plain t .no).text = Bytes.ofString "type_") : Clash "type" t := by
  rcases suffix_kinds t with rfl | ⟨rest, hrest, rfl⟩ | ⟨htype, hmoved⟩
  · exact absurd rfl hne
  · rw [text_plain_moved hrest] at h
    exact absurd h (append_mut_ne rest).2
  · rw [text_plain_stays htype hmoved] at h
    exact h ▸ .keyword

theorem clash_of_moved {rest t : Bytes} (hrest : rest ≠ []) (hne : t ≠ Bytes.ofString "mut_" ++ rest)
    (h : (plain t .no).text = rest ++ Bytes.ofString "_mut") :
    Clash (Bytes.ofString "mut_" ++ rest) t := by
  rcases suffix_kinds t with rfl | ⟨rest', hrest', rfl⟩ | ⟨htype, hmoved⟩
  · exact absurd h.symm (append_mut_ne rest).2
  · rw [text_plain_moved hrest'] at h
    exact absurd (by rw [List.append_cancel_right h]) hne
  · rw [text_plain_stays htype hmoved] at h
    subst h
    exact .moved hrest hmoved

/-- Different suffixes get one name if and only if they clash. -/
theorem clash_iff {s t : Bytes} (hne : s ≠ t) :
    (plain s .no).text = (plain t .no).text ↔ Clash s t ∨ Clash t s := by
  refine ⟨fun h => ?_, fun h => h.elim Clash.text_eq fun h => h.text_eq.symm⟩
  rcases suffix_kinds s with rfl | ⟨rest, hrest, rfl⟩ | ⟨hs, hs'⟩
  · exact .inl (clash_of_type hne.symm (h.symm.trans text_plain_type))
  · exact .inl (clash_of_moved hrest hne.symm (h.symm.trans (text_plain_moved hrest)))
  rcases suffix_kinds t with rfl | ⟨rest, hrest, rfl⟩ | ⟨ht, ht'⟩
  · exact .inr (clash_of_type hne (h.trans text_plain_type))
  · exact .inr (clash_of_moved hrest hne (h.trans (text_plain_moved hrest)))
  · rw [text_plain_stays hs hs', text_plain_stays ht ht'] at h
    exact absurd h hne

/-- **Which getters get one name.**  Of two different suffixes that are not reserved, both getters
that return no `bool` get the same name if and only if one suffix is `type` and the other `type_`,
or one is `mut_` and more and the other the same with `mut` moved behind, and the latter has no
`mut` to be moved itself. -/
theorem renameSuffix_no_eq_iff {s t : Bytes} (hne : s ≠ t) (hs : isReserved s = false)
    (ht : isReserved t = false) :
    (∃ newName newName', renameSuffix s .no = .ok newName ∧ renameSuffix t .no = .ok newName' ∧
      newName.text = newName'.text) ↔ Clash s t ∨ Clash t s := by
  rw [← clash_iff hne, renameSuffix_no hs, renameSuffix_no ht]
  constructor
  · rintro ⟨newName, newName', hn, hn', htext⟩
    obtain rfl := Except.ok.inj hn
    obtain rfl := Except.ok.inj hn'
    exact htext
  · exact fun h => ⟨_, _, rfl, rfl, h⟩

/-- `get_mut_x` and `get_x_mut` both become `x_mut`. -/
theorem renameSuffix_no_eq_iff_mut :
    Bytes.ofString "mut_x" ≠ "x_mut" ∧ isReserved "mut_x" = false ∧ isReserved "x_mut" = false ∧
      ∃ newName newName', renameSuffix "mut_x" .no = .ok newName ∧
        renameSuffix "x_mut" .no = .ok newName' ∧ newName.text = newName'.text := by
  have hne : Bytes.ofString "mut_x" ≠ "x_mut" := by decide
  have hs : isReserved "mut_x" = false := by decide +kernel
  have ht : isReserved "x_mut" = false := by decide +kernel
  have hstays : ¬ IsMoved "x_mut" := by
    rintro ⟨rest, -, heq⟩
    exact absurd (List.cons.inj heq).1 (by decide)
  have hrest : Bytes.ofString "x" ≠ [] := by decide
  have hclash : Clash "mut_x" "x_mut" := .moved hrest hstays
  exact ⟨hne, hs, ht, (renameSuffix_no_eq_iff hne hs ht).2 (.inl hclash)⟩

/-- Where the suffix with `mut` behind has a `mut` in front as well, that one is moved too. -/
example : renameSuffix "mut_mut_x" .no = .ok ⟨"mut_x_mut", .no, .fixed⟩ ∧
    renameSuffix "mut_x_mut" .no = .ok ⟨"x_mut_mut", .no, .fixed⟩ := by decide +kernel

end GetterRename.Naming
