import GetterRename.Proofs.Bounds.Patching
import Mathlib.Order.Bounds.Basic

/-!
# The leftmost place of a name

A rename without a reliable column is looked for from the left of its line.  After each place that
it turns down, the search goes on behind the whole name, although a name may overlap itself.  It
misses nothing all the same: the name is a run of identifier bytes, and inside of such a run no
identifier begins.

* `Line.IsWhole`, `Line.HasRoleAt`, `Line.IsPlace` — what a place is, said with positions;
* `Line.isWhole_iff`, `Line.hasRole_iff` — what the tests of the search say;
* `Line.mem_occurrencesFrom` — no identifier is jumped over;
* `Line.find?_leftmost` — the search finds the least place.
-/

namespace GetterRename.Line

/-! ### Places -/

/-- A run of identifier bytes that no other one contains. -/
structure IsMaximalRun (text : Bytes) (i j : Nat) : Prop where
  run : AllIdent text i j
  maximal : ∀ i' j', AllIdent text i' j' → i' ≤ i → j ≤ j' → i' = i ∧ j' = j

/-- The name stands at `i` and is a maximal run of identifier bytes. -/
structure IsWhole (text name : Bytes) (i : Nat) : Prop where
  stands : name <+: text.drop i
  maximal : IsMaximalRun text i (i + name.length)

/-- Spaces and tabs only, from position `i` up to `j`. -/
def IsGap (text : Bytes) (i j : Nat) : Prop := ∀ k, i ≤ k → k < j → text[k]?.any isBlank = true

/-- The whole word `fn` and at least one blank stand in front of `i`. -/
def IsBehindFn (text : Bytes) (i : Nat) : Prop :=
  ∃ k, IsWhole text "fn" k ∧ k + 2 < i ∧ IsGap text (k + 2) i

/-- The last byte in front of `i` that is no blank is a dot. -/
def IsBehindDot (text : Bytes) (i : Nat) : Prop :=
  ∃ k, text[k]? = some (byte '.') ∧ k < i ∧ IsGap text (k + 1) i

/-- A name at `i` has the role of a definition, of a method call or of another call. -/
def HasRoleAt (text : Bytes) (i : Nat) : Tool → Bool → Prop
  | .definitions, _ => IsBehindFn text i
  | .calls, true => IsBehindDot text i
  | .calls, false => ¬ IsBehindDot text i

/-- A free place where the identifier of the rename has its role. -/
structure IsPlace (text : Bytes) (r : Rename) (tool : Tool) (claimed : List Nat) (i : Nat) :
    Prop where
  whole : IsWhole text r.name i
  free : i ∉ claimed
  role : HasRoleAt text i tool r.isMethod

variable {text name : Bytes} {i j m : Nat}

/-! ### Whole identifiers -/

namespace AllIdent

theorem extend_left (h : AllIdent text i j) (hi : 0 < i)
    (hbyte : text[i - 1]?.any isIdentByte = true) : AllIdent text (i - 1) j where
  le := Nat.le_trans (Nat.sub_le i 1) h.le
  le_length := h.le_length
  ident k hk hkj := by
    by_cases hki : k = i - 1
    · rw [hki, hbyte]
    · exact h.ident k (by omega) hkj

theorem extend_right (h : AllIdent text i j) (hbyte : text[j]?.any isIdentByte = true) :
    AllIdent text i (j + 1) where
  le := Nat.le_succ_of_le h.le
  le_length := by
    by_contra hge
    rw [List.getElem?_eq_none (by omega)] at hbyte
    cases hbyte
  ident k hk hkj := by
    by_cases hkj' : k = j
    · rw [hkj', hbyte]
    · exact h.ident k hk (by omega)

theorem isMaximalRun_iff (h : AllIdent text i j) :
    IsMaximalRun text i j ↔
      (i = 0 ∨ text[i - 1]?.any isIdentByte = false) ∧ text[j]?.any isIdentByte = false := by
  constructor
  · intro hmax
    constructor
    · by_contra! hleft
      have hbyte : text[i - 1]?.any isIdentByte = true := by simpa using hleft.2
      have hlonger := h.extend_left (Nat.pos_of_ne_zero hleft.1) hbyte
      have := (hmax.maximal _ _ hlonger (Nat.sub_le i 1) (Nat.le_refl j)).1
      omega
    · by_contra hright
      have hbyte : text[j]?.any isIdentByte = true := by simpa using hright
      have := (hmax.maximal _ _ (h.extend_right hbyte) (Nat.le_refl i) (Nat.le_succ j)).2
      omega
  · rintro ⟨hleft, hright⟩
    refine ⟨h, fun i' j' hrun hi hj => ?_⟩
    have hle := h.le
    constructor
    · by_contra hne
      have hbyte := hrun.ident (i - 1) (by omega) (by omega)
      rw [hleft.resolve_left (by omega)] at hbyte
      cases hbyte
    · by_contra hne
      have hbyte := hrun.ident j (by omega) (by omega)
      rw [hright] at hbyte
      cases hbyte

end AllIdent

theorem isWhole_iff (hname : IsWord name) :
    IsWhole text name i ↔ isIdentAt text i name = true := by
  rw [isIdentAt_iff]
  constructor
  · rintro ⟨hstands, hmax⟩
    exact ⟨hmax.run.le_length, (List.prefix_iff_eq_take.1 hstands).symm,
      hmax.run.isMaximalRun_iff.1 hmax⟩
  · rintro ⟨-, htake, haround⟩
    have hstands : name <+: text.drop i := List.prefix_iff_eq_take.2 htake.symm
    exact ⟨hstands, (hname.allIdent hstands).isMaximalRun_iff.2 haround⟩

/-! ### Roles -/

theorem isWord_fn : IsWord "fn" := ⟨by decide +kernel, by decide +kernel⟩

theorem length_fn : ("fn" : Bytes).length = 2 := by decide +kernel

/-- The blanks in front of `i` begin at `m`. -/
structure GapStart (text : Bytes) (i m : Nat) : Prop where
  le : m ≤ i
  gap : IsGap text m i
  ink : m = 0 ∨ text[m - 1]?.any isBlank = false

theorem GapStart.eq_succ (h : GapStart text i m) {k : Nat} (hk : k < i)
    (hgap : IsGap text (k + 1) i) (hink : text[k]?.any isBlank = false) : m = k + 1 := by
  rcases Nat.lt_trichotomy m (k + 1) with hlt | heq | hgt
  · rw [h.gap k (by omega) hk] at hink
    cases hink
  · exact heq
  · have hblank := hgap (m - 1) (by omega) (by have := h.le; omega)
    rcases h.ink with hzero | hink'
    · omega
    · rw [hblank] at hink'
      cases hink'

/-- Trimming cuts the text in front of a position where the blanks begin. -/
theorem exists_gapStart (hi : i ≤ text.length) :
    ∃ m, GapStart text i m ∧ Bytes.dropEndWhile isBlank (text.take i) = text.take m := by
  induction i with
  | zero =>
    refine ⟨0, ⟨Nat.le_refl 0, fun k _ hk => by omega, .inl rfl⟩, ?_⟩
    simp [Bytes.dropEndWhile]
  | succ i ih =>
    have hlt : i < text.length := hi
    have htake : (text.take (i + 1)).reverse = text[i] :: (text.take i).reverse := by
      rw [List.take_succ_eq_append_getElem hlt, List.reverse_append]
      rfl
    by_cases hblank : isBlank text[i] = true
    · obtain ⟨m, ⟨hle, hgap, hink⟩, htext⟩ := ih (Nat.le_of_lt hlt)
      refine ⟨m, ⟨by omega, fun k hk hki => ?_, hink⟩, ?_⟩
      · by_cases hki' : k = i
        · rw [hki', List.getElem?_eq_getElem hlt]
          exact hblank
        · exact hgap k hk (by omega)
      · rw [← htext, Bytes.dropEndWhile, htake, List.dropWhile_cons_of_pos hblank]
        rfl
    · refine ⟨i + 1, ⟨Nat.le_refl _, fun k hk hki => by omega, .inr ?_⟩, ?_⟩
      · rw [Nat.add_sub_cancel, List.getElem?_eq_getElem hlt]
        simpa using hblank
      · rw [Bytes.dropEndWhile, htake, List.dropWhile_cons_of_neg hblank, ← htake,
          List.reverse_reverse]

theorem endsWith_take_iff {tail : Bytes} (hm : m ≤ text.length) :
    Bytes.endsWith (text.take m) tail = true ↔
      ∃ k, m = k + tail.length ∧ (text.drop k).take tail.length = tail := by
  have hlength : (text.take m).length = m := List.length_take_of_le hm
  rw [Bytes.endsWith, List.isSuffixOf_iff_suffix]
  constructor
  · intro h
    have hle := h.length_le
    rw [hlength] at hle
    refine ⟨m - tail.length, by omega, ?_⟩
    have hdrop := List.suffix_iff_eq_drop.1 h
    rw [hlength, List.drop_take, Nat.sub_sub_self hle] at hdrop
    exact hdrop.symm
  · rintro ⟨k, rfl, htail⟩
    rw [List.suffix_iff_eq_drop, hlength, Nat.add_sub_cancel, List.drop_take,
      Nat.add_sub_cancel_left, htail]

theorem isIdentByte_of_isBlank {b : UInt8} (h : isBlank b = true) : isIdentByte b = false := by
  have hcases : b = byte ' ' ∨ b = byte '\t' := by simpa [isBlank] using h
  rcases hcases with rfl | rfl <;> decide

theorem isBehindDot_iff (hi : i ≤ text.length) (h : GapStart text i m) :
    IsBehindDot text i ↔ Bytes.endsWith (text.take m) "." = true := by
  have hdot : ("." : Bytes) = [byte '.'] := by decide +kernel
  have hbyte (k : Nat) : (text.drop k).take 1 = [byte '.'] ↔ text[k]? = some (byte '.') := by
    rw [List.take_one, List.head?_drop]
    cases text[k]? <;> simp
  rw [endsWith_take_iff (Nat.le_trans h.le hi), hdot, List.length_singleton]
  constructor
  · rintro ⟨k, hk, hki, hgap⟩
    exact ⟨k, h.eq_succ hki hgap (by rw [hk]; decide), (hbyte k).2 hk⟩
  · rintro ⟨k, rfl, hk⟩
    exact ⟨k, (hbyte k).1 hk, h.le, h.gap⟩

theorem endsWithFn_iff (hm : m ≤ text.length) :
    endsWithFn (text.take m) = true ↔ ∃ k, m = k + 2 ∧ (text.drop k).take 2 = "fn" ∧
      (k = 0 ∨ text[k - 1]?.any isIdentByte = false) := by
  have hlength : (text.take m).length = m := List.length_take_of_le hm
  have hfront (k : Nat) (hk : m = k + 2) :
      ((text.take m).take (m - 2)).getLast?.any isIdentByte = false ↔
        k = 0 ∨ text[k - 1]?.any isIdentByte = false := by
    subst hk
    rw [Nat.add_sub_cancel, List.take_take, Nat.min_eq_left (Nat.le_add_right k 2),
      List.getLast?_take]
    split
    · rename_i hzero
      simp [hzero]
    · rename_i hpos
      rw [List.getElem?_eq_getElem (by omega)]
      simp [hpos]
  simp only [endsWithFn, hlength, Bool.and_eq_true, Bool.not_eq_true', endsWith_take_iff hm,
    length_fn]
  constructor
  · rintro ⟨⟨k, hk, htake⟩, hbefore⟩
    exact ⟨k, hk, htake, (hfront k hk).1 hbefore⟩
  · rintro ⟨k, hk, htake, hbefore⟩
    exact ⟨⟨k, hk, htake⟩, (hfront k hk).2 hbefore⟩

theorem isBehindFn_iff (hi : i ≤ text.length) (h : GapStart text i m) :
    IsBehindFn text i ↔ m ≠ i ∧ endsWithFn (text.take m) = true := by
  rw [endsWithFn_iff (Nat.le_trans h.le hi)]
  constructor
  · rintro ⟨k, hwhole, hki, hgap⟩
    obtain ⟨hlen, htake, hfront, -⟩ := isIdentAt_iff.1 ((isWhole_iff isWord_fn).1 hwhole)
    rw [length_fn] at hlen htake
    have hn : text[k + 1]?.any isBlank = false := by
      rw [← List.getElem?_drop, ← List.getElem?_take_of_lt (by omega : 1 < 2), htake]
      decide +kernel
    obtain rfl : m = k + 2 := h.eq_succ (by omega) hgap hn
    exact ⟨by omega, k, rfl, htake, hfront⟩
  · rintro ⟨hne, k, rfl, htake, hfront⟩
    have hlt : k + 2 < i := Nat.lt_of_le_of_ne h.le hne
    -- the word ends where the blanks begin
    have hbehind : text[k + 2]?.any isIdentByte = false := by
      have hblank := h.gap (k + 2) (Nat.le_refl _) hlt
      rw [List.getElem?_eq_getElem (by omega), Option.any_some] at hblank ⊢
      exact isIdentByte_of_isBlank hblank
    refine ⟨k, (isWhole_iff isWord_fn).2 (isIdentAt_iff.2 ?_), hlt, h.gap⟩
    rw [length_fn]
    exact ⟨by omega, htake, hfront, hbehind⟩

theorem hasRole_iff (hi : i ≤ text.length) (tool : Tool) (isMethod : Bool) :
    hasRole tool isMethod (text.take i) = true ↔ HasRoleAt text i tool isMethod := by
  obtain ⟨m, hstart, htext⟩ := exists_gapStart hi
  have hm : (text.take m).length = m := List.length_take_of_le (Nat.le_trans hstart.le hi)
  have hlength : (text.take i).length = i := List.length_take_of_le hi
  simp only [hasRole, htext]
  cases tool with
  | definitions =>
    rw [HasRoleAt, isBehindFn_iff hi hstart, hm, hlength]
    simp
  | calls =>
    cases isMethod with
    | true =>
      rw [HasRoleAt, isBehindDot_iff hi hstart]
      simp
    | false =>
      rw [HasRoleAt, isBehindDot_iff hi hstart]
      simp

/-! ### The places that the search looks at -/

theorem occurrencesFrom_sorted (hname : name ≠ []) (start : Nat) (rest : Bytes) :
    (∀ i ∈ occurrencesFrom name start rest, start ≤ i) ∧
      (occurrencesFrom name start rest).Pairwise (· < ·) := by
  have hpos := List.length_pos_iff.2 hname
  fun_induction occurrencesFrom name start rest with
  | case1 start hempty => exact absurd (List.isEmpty_iff.1 hempty) hname
  | case2 start hempty => exact ⟨by simp, .nil⟩
  | case3 start b tail hprefix ih =>
    obtain ⟨hle, hsorted⟩ := ih
    rw [if_pos hprefix, List.forall_mem_cons, List.pairwise_cons]
    refine ⟨⟨Nat.le_refl start, fun i hi => ?_⟩, fun i hi => ?_, hsorted⟩
    · have := hle i hi
      omega
    · have := hle i hi
      omega
  | case4 start b tail hprefix ih =>
    rw [if_neg hprefix]
    exact ⟨fun i hi => Nat.le_of_succ_le (ih.1 i hi), ih.2⟩

/-- **No identifier is jumped over**, although the search goes on behind the whole name. -/
theorem mem_occurrencesFrom (hname : IsWord name) {start : Nat} {rest : Bytes}
    (hrest : text.drop start = rest) (hi : start ≤ i) (h : isIdentAt text i name = true) :
    i ∈ occurrencesFrom name start rest := by
  have hpos := List.length_pos_iff.2 hname.ne_nil
  obtain ⟨hlen, htake, -, -⟩ := isIdentAt_iff.1 h
  fun_induction occurrencesFrom name start rest with
  | case1 start hempty => exact absurd (List.isEmpty_iff.1 hempty) hname.ne_nil
  | case2 start hempty =>
    have : text.length ≤ start := by simpa using hrest
    omega
  | case3 start b tail hprefix ih =>
    rw [if_pos hprefix]
    rcases Nat.eq_or_lt_of_le hi with rfl | hlt
    · exact List.mem_cons_self
    · -- the name at `start` is a run of identifier bytes, so the identifier stands behind it
      have hstands : name <+: text.drop start := hrest ▸ List.isPrefixOf_iff_prefix.1 hprefix
      have hbehind : start + name.length ≤ i := (hname.allIdent hstands).le_of_isIdentAt h hlt
      obtain ⟨n, hn⟩ : ∃ n, name.length = n + 1 := Nat.exists_eq_succ_of_ne_zero (by omega)
      have hnext : text.drop (start + max 1 name.length) = tail.drop (name.length - 1) := by
        rw [show max 1 name.length = n + 1 by omega, ← List.drop_drop, hrest, List.drop_succ_cons,
          hn, Nat.add_sub_cancel]
      exact List.mem_cons_of_mem start (ih hnext (by omega))
  | case4 start b tail hprefix ih =>
    have hne : start ≠ i := by
      rintro rfl
      rw [hrest] at htake
      exact hprefix (List.isPrefixOf_iff_prefix.2 (List.prefix_iff_eq_take.2 htake.symm))
    have hnext : text.drop (start + 1) = tail := by rw [← List.tail_drop, hrest, List.tail_cons]
    rw [if_neg hprefix]
    exact ih hnext (Nat.lt_of_le_of_ne hi hne)

/-- The first element of an ascending list with a property is the least one. -/
theorem find?_eq_some_iff_isLeast {p : Nat → Bool} {xs : List Nat} (h : xs.Pairwise (· < ·)) :
    xs.find? p = some i ↔ IsLeast {k | k ∈ xs ∧ p k = true} i := by
  induction xs with
  | nil => simp [IsLeast]
  | cons x xs ih =>
    obtain ⟨hx, hxs⟩ := List.pairwise_cons.1 h
    cases hp : p x with
    | true =>
      have hleast : IsLeast {k | k ∈ x :: xs ∧ p k = true} x := by
        refine ⟨⟨List.mem_cons_self, hp⟩, fun k hk => ?_⟩
        rcases List.mem_cons.1 hk.1 with rfl | hmem
        · exact Nat.le_refl k
        · exact Nat.le_of_lt (hx k hmem)
      rw [List.find?_cons_of_pos hp, Option.some_inj]
      exact ⟨fun hi => hi ▸ hleast, hleast.unique⟩
    | false =>
      have hset : {k | k ∈ x :: xs ∧ p k = true} = {k | k ∈ xs ∧ p k = true} := by
        ext k
        simp only [Set.mem_ofPred_eq, List.mem_cons]
        refine and_congr_left fun hk => or_iff_right ?_
        rintro rfl
        rw [hp] at hk
        cases hk
      rw [List.find?_cons_of_neg (by simp [hp]), ih hxs, hset]

/-! ### The search -/

section Search

variable {r : Rename} {tool : Tool} {claimed : List Nat}

theorem isPlace_iff (hname : IsWord r.name) :
    IsPlace text r tool claimed i ↔ i ∈ occurrences r.name text ∧
      (isIdentAt text i r.name && !claimed.contains i && hasRole tool r.isMethod (text.take i)) =
        true := by
  simp only [Bool.and_eq_true, Bool.not_eq_true', List.contains_eq_mem, decide_eq_false_iff_not]
  constructor
  · rintro ⟨hwhole, hfree, hrole⟩
    have hident := (isWhole_iff hname).1 hwhole
    have hi : i ≤ text.length := Nat.le_of_add_right_le (isIdentAt_iff.1 hident).1
    exact ⟨mem_occurrencesFrom hname List.drop_zero (Nat.zero_le i) hident, ⟨hident, hfree⟩,
      (hasRole_iff hi tool r.isMethod).2 hrole⟩
  · rintro ⟨-, ⟨hident, hfree⟩, hrole⟩
    have hi : i ≤ text.length := Nat.le_of_add_right_le (isIdentAt_iff.1 hident).1
    exact ⟨(isWhole_iff hname).2 hident, hfree, (hasRole_iff hi tool r.isMethod).1 hrole⟩

/-- **The leftmost place.**  The search for a name ends within one turn for each byte of the line
and one more, and it finds the least place, if there is one. -/
theorem find?_leftmost (hname : IsWord r.name) (text : Bytes) (tool : Tool) (claimed : List Nat) :
    Checked.searchFrom? text r tool claimed (Checked.turns text) 0 =
        some (find? text r tool claimed) ∧
      (∀ start, find? text r tool claimed = some start ↔
        IsLeast {i | IsPlace text r tool claimed i} start) ∧
      (find? text r tool claimed = none ↔ ∀ i, ¬ IsPlace text r tool claimed i) := by
  refine ⟨?_, fun start => ?_, ?_⟩
  · exact Checked.searchFrom?_eq hname.ne_nil (Nat.zero_le _) (Nat.lt_succ_self _)
  · have hsorted := (occurrencesFrom_sorted hname.ne_nil 0 text).2
    simp only [isPlace_iff hname]
    exact find?_eq_some_iff_isLeast hsorted
  · simp only [find?, List.find?_eq_none, isPlace_iff hname, not_and]

end Search

/-- A method call of a name that overlaps itself. -/
def overlapping : Rename := ⟨"get_get", ⟨"get", .maybe, .regular⟩, 1, -1, .file, true, false⟩

theorem find?_leftmost_overlapping :
    IsWord overlapping.name ∧
      IsLeast {i | IsPlace "get_get_get.get_get(x. get_get())" overlapping .calls [12] i} 23 := by
  have hname : IsWord overlapping.name := ⟨by decide +kernel, by decide +kernel⟩
  obtain ⟨-, hfound, -⟩ :=
    find?_leftmost hname "get_get_get.get_get(x. get_get())" .calls [12]
  exact ⟨hname, (hfound 23).1 (by decide +kernel)⟩

end GetterRename.Line
