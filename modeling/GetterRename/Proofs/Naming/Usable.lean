import GetterRename.Proofs.Naming.Rules

/-!
# Usable names

A new name can be used if it is read as one identifier, is not the underscore alone and is no
keyword.  The rules for `bool` getters put one of a few words in front, so their names can always be
used.  The other names are what follows `get_`, maybe with its first word moved: the table of
reserved suffixes keeps most keywords away from them, but lets the underscore and two keywords
through, and nothing keeps a digit or a mark from their front.

* `Naming.IsUsable` — the text can be the name of a function;
* `Naming.startsWithWord_forced` — the words in front of the names of `bool` getters;
* `Naming.isUsable_rename_iff` — which new names can be used.
-/

namespace GetterRename

namespace Token

/-! ### Identifiers on their own -/

theorem exists_lex_of_isName {text : Bytes} (h : IsName text) :
    ∃ p, lex text = .ok [.ident text p] := by
  obtain ⟨b, x, rfl⟩ := List.exists_cons_of_ne_nil h.ne_nil
  have helement : Piece.at? b (x ++ []) = .ok (.ident, x.length) :=
    Piece.at?_name h rfl (by simp)
  have hreads : Reads (body (b :: x)) [⟨.ident, b :: x⟩] := by
    rw [Naming.body_of_isRun h.run]
    simpa using Reads.next helement .done
  exact ⟨_, lex_eq_ok_iff.2 ⟨_, hreads, rfl⟩⟩

theorem length_body_le (src : Bytes) : (body src).length ≤ src.length := by
  have hdrop : (Bytes.dropHead Event.byteOrderMark src).length ≤ src.length := by
    unfold Bytes.dropHead Bytes.after?
    split
    · simp
    · simp
  simp only [body, List.length_drop]
  omega

/-- What is read as one identifier is a name, maybe a raw one. -/
theorem isName_of_lex {text : Bytes} {p : Pos} (h : lex text = .ok [.ident text p]) :
    IsName text ∨ text.head? = some (byte 'r') := by
  obtain ⟨es, hreads, hnest⟩ := lex_eq_ok_iff.1 h
  have hmem : (⟨text, p⟩ : Ident) ∈ safeNamesL [.ident text p] := by
    simp [safeNamesL, safeNames]
  obtain ⟨es₁, es₂, rfl, -, -⟩ := exists_elements_of_mem hreads hnest hmem
  have hlen := length_body_le text
  have hne := hreads.text_ne_nil
  rw [← hreads.textL_eq] at hlen
  simp only [Element.textL_append, Element.textL_cons, List.length_append] at hlen
  -- the identifier is as long as the text, so nothing stands around it
  have hbefore : es₁ = [] := by
    rcases es₁ with _ | ⟨e, es₁⟩
    · rfl
    · have := List.length_pos_iff.2 (hne e (by simp))
      simp only [Element.textL_cons, List.length_append] at hlen
      omega
  have hbehind : es₂ = [] := by
    rcases es₂ with _ | ⟨e, es₂⟩
    · rfl
    · have := List.length_pos_iff.2 (hne e (by simp))
      simp only [Element.textL_cons, List.length_append] at hlen
      omega
  subst hbefore hbehind
  generalize body text = source at hreads
  cases hreads with
  | @next b x y piece es element rest =>
    rcases (Piece.at?_ident element).2.2 with hname | ⟨rfl, -⟩
    · exact .inl hname
    · exact .inr rfl

end Token

namespace Naming

/-! ### Names that can be used -/

/-- The keywords that cannot name a function, those reserved for later and for later editions of the
language included. -/
def keywords : List Bytes :=
  ["as", "async", "await", "break", "const", "continue", "crate", "dyn", "else", "enum", "extern",
    "false", "fn", "for", "gen", "if", "impl", "in", "let", "loop", "match", "mod", "move", "mut",
    "pub", "ref", "return", "self", "Self", "static", "struct", "super", "trait", "true", "type",
    "unsafe", "use", "where", "while", "abstract", "become", "box", "do", "final", "macro",
    "override", "priv", "try", "typeof", "unsized", "virtual", "yield"].map Bytes.ofString

/-- The underscore and the keywords that are missing among the reserved suffixes. -/
def unguarded : List Bytes := ["_", "Self", "gen"].map Bytes.ofString

/-- The text can be the name of a function. -/
structure IsUsable (text : Bytes) : Prop where
  lexes : ∃ p, Token.lex text = .ok [.ident text p]
  ne_underscore : text ≠ Bytes.ofString "_"
  not_keyword : text ∉ keywords

/-- Of a run only the start counts, and the words that it may not be. -/
theorem isUsable_iff_of_isRun {text : Bytes} (h : IsRun text) :
    IsUsable text ↔ startsIdent text = true ∧ text ≠ Bytes.ofString "_" ∧ text ∉ keywords := by
  constructor
  · rintro ⟨⟨p, hlex⟩, hne, hkeyword⟩
    exact ⟨(isName_of_lex h hlex).start, hne, hkeyword⟩
  · rintro ⟨hstart, hne, hkeyword⟩
    exact ⟨Token.exists_lex_of_isName ⟨h, hstart⟩, hne, hkeyword⟩

theorem underscore_not_mem_keyword : ∀ word ∈ keywords, byte '_' ∉ word := by decide +kernel

/-- A run of more than one byte with an underscore in it can be used if it starts as names do. -/
theorem isUsable_of_underscore {text : Bytes} (h : IsRun text) (hlen : 1 < text.length)
    (hmem : byte '_' ∈ text) :
    (IsUsable text ↔ startsIdent text = true) ∧ text ∉ unguarded := by
  have hne : text ≠ Bytes.ofString "_" := by
    rintro rfl
    exact absurd hlen (by decide)
  have hkeyword : text ∉ keywords := fun hk => underscore_not_mem_keyword text hk hmem
  constructor
  · rw [isUsable_iff_of_isRun h]
    exact ⟨fun hu => hu.1, fun hs => ⟨hs, hne, hkeyword⟩⟩
  · intro hun
    have hwords : ∀ word ∈ unguarded, word = Bytes.ofString "_" ∨ byte '_' ∉ word := by
      decide +kernel
    rcases hwords text hun with rfl | hno
    · exact hne rfl
    · exact hno hmem

/-! ### Names of `bool` getters -/

/-- The words that may stand in front of the name of a `bool` getter. -/
def boolWords : List Bytes :=
  ["is", "result"].map Bytes.ofString ++ (boolVerbSubstitutes.map (·.2) ++ boolNoPrefix)

/-- The text is one of these words, maybe with an underscore and more behind it. -/
def StartsWithWord (words : List Bytes) (text : Bytes) : Prop :=
  ∃ word ∈ words, text = word ∨ ∃ rest, text = word ++ byte '_' :: rest

theorem startsWithWord_isHead (suffix : Bytes) : StartsWithWord boolWords (isHead ++ suffix) :=
  ⟨"is", by simp [boolWords], .inr ⟨suffix, rfl⟩⟩

theorem startsWithWord_append {words : List Bytes} {word : Bytes} (h : word ∈ words)
    (text : Bytes) : StartsWithWord words (word ++ behindFirst text) := by
  rcases behindFirst_cases text with ⟨-, hbehind⟩ | ⟨rest, -, hbehind⟩
  · exact ⟨word, h, .inl (by rw [hbehind, List.append_nil])⟩
  · exact ⟨word, h, .inr ⟨rest, by rw [hbehind]⟩⟩

theorem startsWithWord_named (rest : Bytes) : StartsWithWord boolWords (named rest) := by
  rcases named_cases rest with ⟨word, hverb, hnamed⟩ | ⟨hword, hnamed⟩ | ⟨-, -, hnamed⟩
  · have hmem : word ∈ boolWords :=
      List.mem_append_right _ (List.mem_append_left _ (mem_of_lookup hverb))
    rw [hnamed]
    exact startsWithWord_append hmem rest
  · have hmem : firstWord rest ∈ boolWords :=
      List.mem_append_right _ (List.mem_append_right _ hword)
    rw [hnamed]
    simpa only [firstWord_append_behindFirst] using startsWithWord_append hmem rest
  · rw [hnamed]
    exact startsWithWord_isHead rest

theorem startsWithWord_forced (suffix : Bytes) :
    StartsWithWord boolWords (forced suffix).text := by
  rcases forced_cases suffix with hexact | his | ⟨-, hnamed⟩
  · rcases eq_of_mem_exact hexact with hmuted | hresult
    · rw [hmuted]
      exact startsWithWord_isHead _
    · exact ⟨"result", by simp [boolWords], .inl hresult⟩
  · exact ⟨"is", by simp [boolWords], .inl his⟩
  · rw [hnamed]
    exact startsWithWord_named _

theorem isUsable_of_startsWithWord {text : Bytes} (hrun : IsRun text)
    (h : StartsWithWord boolWords text) : IsUsable text := by
  obtain ⟨word, hword, htext⟩ := h
  have hwords : ∀ w ∈ boolWords, 0 < w.length ∧ startsIdent w = true ∧
      w ≠ Bytes.ofString "_" ∧ w ∉ keywords := by decide +kernel
  obtain ⟨hpos, hstart, hne, hkeyword⟩ := hwords word hword
  rcases htext with rfl | ⟨rest, rfl⟩
  · exact (isUsable_iff_of_isRun hrun).2 ⟨hstart, hne, hkeyword⟩
  · refine (isUsable_of_underscore hrun ?_ (by simp)).1.2 (startsIdent_append hstart _)
    simp only [List.length_append, List.length_cons]
    omega

/-! ### Names of other getters -/

theorem isUsable_plain_iff {suffix : Bytes} (hrun : IsRun suffix)
    (hfree : isReserved suffix = false) (known : ReturnsBool) :
    IsUsable (plain suffix known).text ↔
      startsIdent (plain suffix known).text = true ∧ (plain suffix known).text ∉ unguarded := by
  have hresult := isRun_plain hrun known
  have hsuffix : exactSubstitutes.lookup suffix = none → (IsUsable suffix ↔
      startsIdent suffix = true ∧ suffix ∉ unguarded) := by
    intro hnone
    have htype : suffix ≠ Bytes.ofString "type" := by
      rintro rfl
      exact absurd hnone (by decide +kernel)
    have hguard : ∀ word ∈ keywords, isReserved word = true ∨ word = Bytes.ofString "type" ∨
        word ∈ unguarded := by decide +kernel
    have hexcept : ∀ word ∈ unguarded, word = Bytes.ofString "_" ∨ word ∈ keywords := by
      decide +kernel
    rw [isUsable_iff_of_isRun hrun]
    refine and_congr_right fun _ => ⟨?_, fun hun => ⟨?_, fun hk => ?_⟩⟩
    · rintro ⟨hne, hkeyword⟩ hun
      exact (hexcept suffix hun).elim hne hkeyword
    · rintro rfl
      exact hun (by decide +kernel)
    · rcases hguard suffix hk with hreserved | htype' | hun'
      · rw [hfree] at hreserved
        exact absurd hreserved (by decide)
      · exact htype htype'
      · exact hun hun'
  unfold plain at hresult ⊢
  split at hresult
  · rename_i word hword
    have hwords : ∀ w ∈ exactSubstitutes.map (·.2), 1 < w.length ∧ byte '_' ∈ w := by
      decide +kernel
    obtain ⟨hlen, hmem⟩ := hwords word (mem_of_lookup hword)
    obtain ⟨hiff, hun⟩ := isUsable_of_underscore hresult hlen hmem
    exact hiff.trans (and_iff_left hun).symm
  · rename_i hnone
    split at hresult
    · rename_i first b remainder hcut
      by_cases hmoved : moved.contains first = true
      · rw [if_pos hmoved] at hresult ⊢
        obtain ⟨hiff, hun⟩ := isUsable_of_underscore hresult
          (by simp only [List.length_append, List.length_cons]; omega) (by simp)
        exact hiff.trans (and_iff_left hun).symm
      · rw [if_neg hmoved]
        exact hsuffix hnone
    · exact hsuffix hnone

/-! ### All names -/

theorem returnsBool_plain {suffix : Bytes} {known : ReturnsBool} :
    (plain suffix known).returnsBool = known := by
  rw [plain_eq]

/-- **Usable names.**  The new name of a getter can be used if it is that of a `bool` getter.  Any
other can be used unless it starts with a digit or a mark, is the underscore alone or one of two
keywords that are not reserved. -/
theorem isUsable_rename_iff {name : Bytes} {p : Pos} {known : ReturnsBool} {newName : NewName}
    (hlex : Token.lex name = .ok [.ident name p]) (h : rename name known = .ok newName) :
    IsUsable newName.text ↔ newName.returnsBool = .yes ∨
      startsIdent newName.text = true ∧ newName.text ∉ unguarded := by
  unfold rename suffix? Bytes.after? at h
  split at h
  · exact absurd h nofun
  rename_i suffix hsuffix
  split at hsuffix
  · rename_i hstart
    obtain ⟨rest, rfl⟩ := List.isPrefixOf_iff_prefix.1 hstart
    rw [List.drop_left] at hsuffix
    obtain rfl := Option.some.inj hsuffix
    have hname : IsName (getHead ++ rest) := by
      refine (Token.isName_of_lex hlex).resolve_right fun hraw => ?_
      exact absurd (Option.some.inj hraw) (by decide)
    have hrun : IsRun rest := ((show IsRun getHead by decide +kernel).append_iff rest).1 hname.run
    have hnew := isRun_renameSuffix hrun h
    obtain ⟨hfree, ⟨hyes, htext⟩ | ⟨hknown, rfl⟩⟩ := renameSuffix_cases h
    · have hword : StartsWithWord boolWords newName.text := htext ▸ startsWithWord_forced rest
      exact iff_of_true (isUsable_of_startsWithWord hnew hword) (.inl hyes)
    · rw [isUsable_plain_iff hrun hfree, returnsBool_plain]
      exact (or_iff_right hknown).symm
  · exact absurd hsuffix nofun

/-- A keyword that is not reserved, a digit and the underscore come through. -/
example : ¬ IsUsable "Self" ∧ rename "get_Self" .no = .ok ⟨"Self", .no, .regular⟩ ∧
    rename "get_42" .no = .ok ⟨"42", .no, .regular⟩ ∧
    rename "get__" .maybe = .ok ⟨"_", .maybe, .regular⟩ :=
  ⟨fun h => h.not_keyword (by decide +kernel), by decide +kernel, by decide +kernel,
    by decide +kernel⟩

end Naming

end GetterRename
