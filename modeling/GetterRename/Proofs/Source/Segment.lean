import GetterRename.Proofs.Bounds.Reader
import GetterRename.Proofs.Source.Definition
import Mathlib.Order.Bounds.Basic

/-!
# Segments between separators

The depth of angle brackets at each position of a token list is a fold over the tokens in front of
it.  A list is split where a separator stands at depth zero: its parts are the longest stretches
without such a separator, from left to right, and no token is lost.  A list that starts with `<` is
cut behind the first token that brings the depth back to zero.

* `Angle.depthAt` — the depth at a position;
* `Angle.Segment`, `Angle.Segment.IsMaximal` — the stretches between separators;
* `Angle.splitFrom_partition` — one token after the other, the parts are the segments;
* `Angle.closes_reach` — the token that closes a `<`;
* `Angle.split_segments` — both.
-/

namespace GetterRename.Angle

open Checked (before)

variable {tokens rest : List Token} {sep : Char} {i j start : Nat}

/-! ### The depth at a position -/

/-- The depth behind the token at position `i`, from the depth in front of it. -/
def track (tokens : List Token) (depth i : Nat) : Nat :=
  tokens[i]?.elim depth fun t => step (before tokens i) t depth

/-- The depth in front of position `j`, counted from zero at `i`. -/
def depthAt (tokens : List Token) (i j : Nat) : Nat :=
  (List.range' i (j - i)).foldl (track tokens) 0

@[simp] theorem depthAt_self (tokens : List Token) (i : Nat) : depthAt tokens i i = 0 := by
  simp [depthAt]

theorem depthAt_succ {t : Token} (hij : i ≤ j) (h : tokens.drop j = t :: rest) :
    depthAt tokens i (j + 1) = step (before tokens j) t (depthAt tokens i j) := by
  have ht : tokens[j]? = some t := Checked.getElem?_of_drop h 0
  rw [depthAt, Nat.succ_sub hij, List.range'_1_concat, List.foldl_append,
    Nat.add_sub_cancel' hij]
  simp [track, ht, depthAt]

/-! ### Segments -/

/-- A separator outside of angle brackets stands at the position. -/
def IsSeparator (sep : Char) (tokens : List Token) (i : Nat) : Prop :=
  tokens[i]?.any (·.isPunct sep) = true ∧ depthAt tokens 0 i = 0

structure Segment where
  start : Nat
  stop : Nat

namespace Segment

def part (s : Segment) (tokens : List Token) : List Token := (tokens.take s.stop).drop s.start

def Has (s : Segment) (i : Nat) : Prop := s.start ≤ i ∧ i < s.stop

/-- Positions of the list, at least one, without a separator among them, that no longer segment
contains: a separator or an end of the list stands on either side. -/
structure IsMaximal (sep : Char) (tokens : List Token) (s : Segment) : Prop where
  nonempty : s.start < s.stop
  stop_le : s.stop ≤ tokens.length
  free : ∀ i, s.Has i → ¬ IsSeparator sep tokens i
  left : s.start = 0 ∨ IsSeparator sep tokens (s.start - 1)
  right : s.stop = tokens.length ∨ IsSeparator sep tokens s.stop

variable {s s' : Segment}

theorem IsMaximal.start_le (h : s.IsMaximal sep tokens) (h' : s'.IsMaximal sep tokens)
    (hs : s.Has i) (hs' : s'.Has i) : s'.start ≤ s.start := by
  obtain ⟨hle, hlt⟩ := hs
  obtain ⟨hle', hlt'⟩ := hs'
  rcases h'.left with hzero | hsep
  · omega
  · by_contra hgt
    exact h.free _ ⟨by omega, by omega⟩ hsep

theorem IsMaximal.le_stop (h : s.IsMaximal sep tokens) (h' : s'.IsMaximal sep tokens)
    (hs : s.Has i) (hs' : s'.Has i) : s.stop ≤ s'.stop := by
  obtain ⟨hle, hlt⟩ := hs
  obtain ⟨hle', hlt'⟩ := hs'
  rcases h'.right with hend | hsep
  · rw [hend]
    exact h.stop_le
  · by_contra hgt
    exact h.free _ ⟨by omega, by omega⟩ hsep

/-- Two maximal segments have no position in common. -/
theorem IsMaximal.eq_of_has (h : s.IsMaximal sep tokens) (h' : s'.IsMaximal sep tokens)
    (hs : s.Has i) (hs' : s'.Has i) : s = s' := by
  have hstart := Nat.le_antisymm (h'.start_le h hs' hs) (h.start_le h' hs hs')
  have hstop := Nat.le_antisymm (h.le_stop h' hs hs') (h'.le_stop h hs' hs)
  cases s
  cases s'
  simp only at hstart hstop
  rw [hstart, hstop]

end Segment

/-- The segments are the maximal ones from `start` on, from left to right, and every position
outside of them has a separator. -/
structure Partition (sep : Char) (tokens : List Token) (start : Nat) (ss : List Segment) :
    Prop where
  mem_iff : ∀ s, s ∈ ss ↔ s.IsMaximal sep tokens ∧ start ≤ s.start
  sorted : ss.Pairwise fun s s' => s.stop < s'.start
  cover : ∀ i, start ≤ i → i < tokens.length → IsSeparator sep tokens i ∨ ∃ s ∈ ss, s.Has i

namespace Partition

variable {ss : List Segment}

theorem nil (h : tokens.length ≤ start) : Partition sep tokens start [] where
  mem_iff s := by
    simp only [List.not_mem_nil, false_iff, not_and]
    intro hs
    have := hs.nonempty
    have := hs.stop_le
    omega
  sorted := .nil
  cover i hi hlt := by omega

theorem skip (hsep : IsSeparator sep tokens i) (h : Partition sep tokens (i + 1) ss) :
    Partition sep tokens i ss where
  mem_iff s := by
    rw [h.mem_iff]
    refine and_congr_right fun hs => ⟨Nat.le_of_succ_le, fun hle => ?_⟩
    refine Nat.lt_of_le_of_ne hle fun heq => ?_
    exact hs.free i ⟨Nat.le_of_eq heq.symm, heq ▸ hs.nonempty⟩ hsep
  sorted := h.sorted
  cover k hk hlt := by
    rcases Nat.eq_or_lt_of_le hk with rfl | hk
    · exact .inl hsep
    · exact h.cover k hk hlt

theorem cons {s : Segment} (hs : s.IsMaximal sep tokens)
    (h : Partition sep tokens (s.stop + 1) ss) : Partition sep tokens s.start (s :: ss) where
  mem_iff s' := by
    rw [List.mem_cons, h.mem_iff]
    constructor
    · rintro (rfl | ⟨hs', hle⟩)
      · exact ⟨hs, Nat.le_refl _⟩
      · have := hs.nonempty
        exact ⟨hs', by omega⟩
    · rintro ⟨hs', hle⟩
      rcases Nat.lt_trichotomy s'.start s.stop with hlt | heq | hgt
      · exact .inl (hs'.eq_of_has hs ⟨Nat.le_refl _, hs'.nonempty⟩ ⟨hle, hlt⟩)
      · -- behind the first segment stands a separator, or nothing
        rcases hs.right with hend | hsep
        · have := hs'.nonempty
          have := hs'.stop_le
          omega
        · exact absurd hsep (hs'.free _ ⟨Nat.le_of_eq heq, heq ▸ hs'.nonempty⟩)
      · exact .inr ⟨hs', hgt⟩
  sorted := List.pairwise_cons.2 ⟨fun s' hs' => ((h.mem_iff s').1 hs').2, h.sorted⟩
  cover k hk hlt := by
    rcases Nat.lt_trichotomy k s.stop with hlt' | rfl | hgt
    · exact .inr ⟨s, List.mem_cons_self, hk, hlt'⟩
    · rcases hs.right with hend | hsep
      · omega
      · exact .inl hsep
    · rcases h.cover k hgt hlt with hsep | ⟨s', hs', hhas⟩
      · exact .inl hsep
      · exact .inr ⟨s', List.mem_cons_of_mem s hs', hhas⟩

/-- Every position has a separator or is in exactly one segment. -/
theorem separator_or_existsUnique (h : Partition sep tokens 0 ss) (hi : i < tokens.length) :
    IsSeparator sep tokens i ∧ (∀ s ∈ ss, ¬ s.Has i) ∨
      ¬ IsSeparator sep tokens i ∧ ∃! s, s ∈ ss ∧ s.Has i := by
  have hmax (s : Segment) (hs : s ∈ ss) : s.IsMaximal sep tokens := ((h.mem_iff s).1 hs).1
  by_cases hsep : IsSeparator sep tokens i
  · exact .inl ⟨hsep, fun s hs hhas => (hmax s hs).free i hhas hsep⟩
  · obtain ⟨s, hs, hhas⟩ := (h.cover i (Nat.zero_le i) hi).resolve_left hsep
    exact .inr ⟨hsep, s, ⟨hs, hhas⟩, fun s' hs' => (hmax s' hs'.1).eq_of_has (hmax s hs) hs'.2 hhas⟩

end Partition

/-! ### Splitting -/

theorem step_separator {t : Token} (hsep : byte sep ≠ byte '<') (ht : t.isPunct sep = true)
    (last : Option Token) : step last t 0 = 0 := by
  have hlt : t.isPunct '<' = false := Token.isPunct_eq_false ht hsep
  simp [step, hlt]

/-- The part that starts at `start` goes on up to `i`. -/
structure IsOpen (sep : Char) (tokens : List Token) (start i : Nat) (part : List Token) : Prop where
  le : start ≤ i
  le_length : i ≤ tokens.length
  part : (tokens.take i).drop start = part.reverse
  free : ∀ k, start ≤ k → k < i → ¬ IsSeparator sep tokens k
  left : start = 0 ∨ IsSeparator sep tokens (start - 1)

namespace IsOpen

variable {part : List Token}

theorem isMaximal (h : IsOpen sep tokens start i part) (hne : part ≠ [])
    (hend : i = tokens.length ∨ IsSeparator sep tokens i) :
    Segment.IsMaximal sep tokens ⟨start, i⟩ where
  nonempty := by
    have := List.length_pos_iff.2 hne
    have := Checked.length_of_part h.le_length h.part
    show start < i
    omega
  stop_le := h.le_length
  free k hk := h.free k hk.1 hk.2
  left := h.left
  right := hend

theorem next (hi : i < tokens.length) (hsep : IsSeparator sep tokens i) :
    IsOpen sep tokens (i + 1) (i + 1) [] where
  le := Nat.le_refl _
  le_length := hi
  part := by simp
  free k hk hlt := by omega
  left := .inr hsep

theorem push {t : Token} (h : IsOpen sep tokens start i part) (ht : tokens.drop i = t :: rest)
    (hsep : ¬ IsSeparator sep tokens i) : IsOpen sep tokens start (i + 1) (t :: part) where
  le := Nat.le_succ_of_le h.le
  le_length := Checked.lt_length_of_drop ht
  part := Checked.part_succ ht h.le h.part
  free k hk hlt := by
    rcases Nat.eq_or_lt_of_le (Nat.le_of_lt_succ hlt) with rfl | hlt
    · exact hsep
    · exact h.free k hk hlt
  left := h.left

end IsOpen

/-- **The parts are the segments.**  The part at hand starts at `start`, and the tokens from `i` on
are still to be split. -/
theorem splitFrom_partition (hsep : byte sep ≠ byte '<') {part : List Token}
    (h : tokens.drop i = rest) (hopen : IsOpen sep tokens start i part) :
    ∃ ss, Partition sep tokens start ss ∧
      splitFrom sep (before tokens i) (depthAt tokens 0 i) part rest = ss.map (·.part tokens) := by
  induction rest generalizing start i part with
  | nil =>
    have hlen : tokens.length ≤ i := by simpa using h
    have hi : i = tokens.length := Nat.le_antisymm hopen.le_length hlen
    rw [splitFrom]
    by_cases hne : part = []
    · have hstart := Checked.length_of_part hopen.le_length hopen.part
      rw [hne, List.length_nil] at hstart
      exact ⟨[], .nil (by omega), by simp [hne]⟩
    · have hmax := hopen.isMaximal hne (.inl hi)
      refine ⟨[⟨start, i⟩], .cons hmax (.nil (Nat.le_succ_of_le hlen)), ?_⟩
      simp [hne, Segment.part, hopen.part]
  | cons t rest ih =>
    have ht : tokens[i]? = some t := Checked.getElem?_of_drop h 0
    have hlt := Checked.lt_length_of_drop h
    have hdepth := depthAt_succ (Nat.zero_le i) h
    have hlast := Checked.before_of_drop h
    rw [splitFrom]
    by_cases hend : IsSeparator sep tokens i
    · have hpunct : t.isPunct sep = true := by simpa [ht] using hend.1
      rw [hend.2, step_separator hsep hpunct] at hdepth
      obtain ⟨ss, hss, hsplit⟩ := ih (Checked.drop_succ h) (.next hlt hend)
      rw [hlast, hdepth] at hsplit
      rw [hend.2, if_pos (by simp [hpunct])]
      by_cases hne : part = []
      · have hstart := Checked.length_of_part hopen.le_length hopen.part
        have hle := hopen.le
        rw [hne, List.length_nil] at hstart
        obtain rfl : start = i := by omega
        exact ⟨ss, .skip hend hss, by simp [hne, hsplit]⟩
      · refine ⟨⟨start, i⟩ :: ss, .cons (hopen.isMaximal hne (.inr hend)) hss, ?_⟩
        simp [hne, hsplit, Segment.part, hopen.part]
    · have hno : ¬ (decide (depthAt tokens 0 i = 0) && t.isPunct sep) = true := by
        intro hyes
        rw [Bool.and_eq_true, decide_eq_true_eq] at hyes
        exact hend ⟨by simpa [ht] using hyes.2, hyes.1⟩
      rw [if_neg hno, ← hdepth, ← hlast]
      exact ih (Checked.drop_succ h) (hopen.push h hend)

/-! ### The token that closes a bracket -/

/-- The position behind the token that closes the `<` at `i`, the end of the list if none does. -/
inductive Closes (tokens : List Token) (i : Nat) : Nat → Prop
  | closed {j : Nat}
      (h : IsLeast {j | i < j ∧ j < tokens.length ∧ depthAt tokens i (j + 1) = 0} j) :
      Closes tokens i (j + 1)
  | never (h : ∀ j, i < j → j < tokens.length → depthAt tokens i (j + 1) ≠ 0) :
      Closes tokens i tokens.length

/-- The brackets are not closed in front of `j`, and the tokens from `j` on are still to be read. -/
theorem closes_reach_from (h : tokens.drop j = rest) (hij : i < j) (hj : j ≤ tokens.length)
    (hbefore : ∀ k, i < k → k < j → depthAt tokens i (k + 1) ≠ 0) :
    Closes tokens i (j + reach (before tokens j) (depthAt tokens i j) rest) := by
  induction rest generalizing j with
  | nil =>
    have hlen : tokens.length ≤ j := by simpa using h
    obtain rfl := Nat.le_antisymm hj hlen
    exact .never hbefore
  | cons t rest ih =>
    have hlt := Checked.lt_length_of_drop h
    have hdepth := depthAt_succ (Nat.le_of_lt hij) h
    rw [reach, ← hdepth]
    cases hnext : depthAt tokens i (j + 1) with
    | zero =>
      refine .closed ⟨⟨hij, hlt, hnext⟩, fun k hk => ?_⟩
      by_contra hkj
      exact hbefore k hk.1 (Nat.lt_of_not_le hkj) hk.2.2
    | succ depth =>
      have hrest : ∀ k, i < k → k < j + 1 → depthAt tokens i (k + 1) ≠ 0 := by
        intro k hik hkj
        rcases Nat.eq_or_lt_of_le (Nat.le_of_lt_succ hkj) with rfl | hkj
        · rw [hnext]
          exact Nat.succ_ne_zero depth
        · exact hbefore k hik hkj
      have hclose := ih (Checked.drop_succ h) (Nat.lt_succ_of_lt hij) hlt hrest
      rwa [Checked.before_of_drop h, hnext, Nat.add_assoc, Nat.add_comm 1] at hclose

theorem closes_reach {t : Token} (h : tokens.drop i = t :: rest) (ht : t.isPunct '<' = true) :
    Closes tokens i (i + reach none 0 (t :: rest)) := by
  have hdepth : depthAt tokens i (i + 1) = 1 := by
    rw [depthAt_succ (Nat.le_refl i) h, depthAt_self]
    simp [step, ht]
  have hclose := closes_reach_from (Checked.drop_succ h) (Nat.lt_succ_self i)
    (Checked.lt_length_of_drop h) (fun k hik hki => by omega)
  rw [Checked.before_of_drop h, hdepth, Nat.add_assoc, Nat.add_comm 1] at hclose
  simpa only [reach, step, ht, if_true] using hclose

/-- **Nothing is lost.**  The parts of a list are its maximal segments without a separator at depth
zero, from left to right; a token that is in no part is such a separator.  A list in angle brackets
ends behind the first token that brings the depth back to zero. -/
theorem split_segments (hsep : sep ∈ [',', ';', '+']) (tokens : List Token) :
    (∃ ss : List Segment, split sep tokens = ss.map (·.part tokens) ∧
        ss.Pairwise (fun s s' => s.stop < s'.start) ∧
        (∀ s, s ∈ ss ↔ s.IsMaximal sep tokens) ∧
        ∀ i < tokens.length,
          IsSeparator sep tokens i ∧ (∀ s ∈ ss, ¬ s.Has i) ∨
            ¬ IsSeparator sep tokens i ∧ ∃! s, s ∈ ss ∧ s.Has i) ∧
      (∀ part ∈ split sep tokens, part ≠ []) ∧
      ∀ i, tokens[i]?.any (·.isPunct '<') = true →
        ∃ stop, Closes tokens i stop ∧ Checked.skipAngles? tokens i = some stop ∧
          span (tokens.drop i) = ((tokens.take stop).drop i, tokens.drop stop) := by
  have hbyte : byte sep ≠ byte '<' := by
    simp only [List.mem_cons, List.not_mem_nil, or_false] at hsep
    rcases hsep with rfl | rfl | rfl <;> decide
  have hopen : IsOpen sep tokens 0 0 [] :=
    ⟨Nat.le_refl 0, Nat.zero_le _, rfl, fun k _ hk => by omega, .inl rfl⟩
  obtain ⟨ss, hss, hsplit⟩ := splitFrom_partition hbyte (List.drop_zero (l := tokens)) hopen
  refine ⟨⟨ss, hsplit, hss.sorted, ?_, fun i hi => hss.separator_or_existsUnique hi⟩, ?_, ?_⟩
  · intro s
    rw [hss.mem_iff]
    exact and_iff_left (Nat.zero_le _)
  · exact fun part hpart => Checked.ne_nil_of_mem_split hpart
  · intro i hi
    obtain ⟨t, ht, hlt⟩ := (Option.any_eq_true _ _).1 hi
    obtain ⟨hlen, rfl⟩ := List.getElem?_eq_some_iff.1 ht
    have hdrop := List.drop_eq_getElem_cons hlen
    obtain ⟨hskip, -⟩ := Checked.skipAngles?_spec hdrop hlt
    refine ⟨_, closes_reach hdrop hlt, hskip, ?_⟩
    rw [span, List.splitAt_eq, ← hdrop, List.drop_take, Nat.add_sub_cancel_left, List.drop_drop]

/-- The tokens `, f<A, ->B>>, g<,` with a `>` that closes nothing and a `<` that nothing closes. -/
def tangled : List Token :=
  let p : Pos := ⟨1, 0⟩
  let punct (c : Char) : Token := .punct (byte c) false p
  let name (c : Char) : Token := .ident [byte c] p
  [punct ',', name 'f', punct '<', name 'A', punct ',', .punct (byte '-') true p, punct '>',
    name 'B', punct '>', punct '>', punct ',', name 'g', punct '<', punct ',']

theorem split_segments_tangled :
    ',' ∈ [',', ';', '+'] ∧
      (∃ ss : List Segment, split ',' tangled = ss.map (·.part tangled) ∧
        ∀ s, s ∈ ss ↔ s.IsMaximal ',' tangled) ∧
      (tangled[2]?.any (·.isPunct '<') = true ∧ Closes tangled 2 9) ∧
      tangled[12]?.any (·.isPunct '<') = true ∧ Closes tangled 12 14 := by
  have hsep : ',' ∈ [',', ';', '+'] := by decide
  have hclosed : tangled[2]?.any (·.isPunct '<') = true := by decide
  have hnever : tangled[12]?.any (·.isPunct '<') = true := by decide
  obtain ⟨⟨ss, hsplit, -, hmem, -⟩, -, hangles⟩ := split_segments hsep tangled
  obtain ⟨stop, hcloses, hstop, -⟩ := hangles 2 hclosed
  obtain ⟨stop', hcloses', hstop', -⟩ := hangles 12 hnever
  have hnine : Checked.skipAngles? tangled 2 = some 9 := by decide
  have hend : Checked.skipAngles? tangled 12 = some 14 := by decide
  obtain rfl := Option.some.inj (hstop.symm.trans hnine)
  obtain rfl := Option.some.inj (hstop'.symm.trans hend)
  exact ⟨hsep, ⟨ss, hsplit, hmem⟩, ⟨hclosed, hcloses⟩, hnever, hcloses'⟩

end GetterRename.Angle
