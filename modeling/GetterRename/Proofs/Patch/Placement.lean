import GetterRename.Proofs.Patch.Attribute
import GetterRename.Proofs.Patch.Walk

/-!
# The places of a ledger

The renames of a ledger are put where they are found on their lines, and their attributes at the
heads of these lines.  So the new text is the text with the plan of these places, whatever the ledger
is, and the records are those of its spans.  Of definitions there is one rename on a line at most.

* `Patch.spansOn`, `Patch.placed`, `Patch.fronts` — the renames of a line, the plan and the attributes
  of a ledger;
* `Patch.output_eq_weave` — the new text along that plan;
* `Patch.exists_span_of_record` — the records by the spans;
* `Patch.FoundAt`, `Patch.placed_eq_some_iff` — the plan of definitions.
-/

namespace GetterRename

namespace Patch

open Rename

/-- The renames that have a place on the line with a number, counted from one. -/
def spansOn (tool : Tool) (pending : List Rename) (texts : List Bytes) : Nat → List Line.Span
  | 0 => []
  | i + 1 => (texts[i]?).elim [] fun text =>
      Line.spans text tool [] (onLine ((i + 1 : Nat) : Int) pending)

def placed (tool : Tool) (pending : List Rename) (texts : List Bytes) : Plan := fun p =>
  ((spansOn tool pending texts p.line).find? (·.start == p.col)).map (·.rename)

/-- The attributes in front of the lines. -/
def fronts (tool : Tool) (docAlias : DocAlias) (pending : List Rename) (texts : List Bytes)
    (p : Pos) : List Element :=
  if p.col = 0 then
    (((spansOn tool pending texts p.line).map (·.rename)).filter (writesAlias tool docAlias)).flatMap
      (aliasElements ·.name)
  else []

variable {tool : Tool} {docAlias : DocAlias} {pending : List Rename} {texts : List Bytes}

theorem spansOn_succ {i : Nat} {text : Bytes} (h : texts[i]? = some text) :
    spansOn tool pending texts (i + 1) =
      Line.spans text tool [] (onLine ((i + 1 : Nat) : Int) pending) := by
  rw [spansOn, h]
  rfl

theorem mem_spansOn_iff {k : Nat} {s : Line.Span} :
    s ∈ spansOn tool pending texts k ↔ ∃ i text, k = i + 1 ∧ texts[i]? = some text ∧
      s ∈ Line.spans text tool [] (onLine (k : Int) pending) := by
  constructor
  · intro h
    cases k with
    | zero => exact nomatch h
    | succ i =>
      cases htext : texts[i]? with
      | none =>
        rw [spansOn, htext] at h
        exact nomatch h
      | some text =>
        rw [spansOn_succ htext] at h
        exact ⟨i, text, rfl, htext, h⟩
  · rintro ⟨i, text, rfl, htext, h⟩
    rwa [spansOn_succ htext]

theorem placed_iff_mem {p : Pos} {r : Rename} :
    placed tool pending texts p = some r ↔ ⟨r, p.col⟩ ∈ spansOn tool pending texts p.line := by
  have hnodup : ((spansOn tool pending texts p.line).map (·.start)).Nodup := by
    cases hline : p.line with
    | zero => exact .nil
    | succ i =>
      cases htext : texts[i]? with
      | none =>
        rw [spansOn, htext]
        exact .nil
      | some text =>
        rw [spansOn_succ htext]
        exact Line.nodup_spans []
  rw [placed, Option.map_eq_some_iff]
  constructor
  · rintro ⟨s, hs, rfl⟩
    have hstart := List.find?_some hs
    rw [beq_iff_eq] at hstart
    rw [← hstart]
    exact List.mem_of_find?_eq_some hs
  · intro hmem
    cases hfind : (spansOn tool pending texts p.line).find? (·.start == p.col) with
    | none => simpa using List.find?_eq_none.1 hfind _ hmem
    | some s =>
      have hstart := List.find?_some hfind
      rw [beq_iff_eq] at hstart
      obtain rfl := List.inj_on_of_nodup_map hnodup (List.mem_of_find?_eq_some hfind) hmem hstart
      exact ⟨_, rfl, rfl⟩

theorem textL_fronts (rs : List Rename) :
    Element.textL (rs.flatMap (aliasElements ·.name)) = rs.flatMap (aliasAttribute ·.name) := by
  simp only [Element.textL, List.flatMap_assoc]
  exact List.flatMap_congr fun r _ => textL_aliasElements r.name

/-- **The new text along the plan of the ledger**, with the attributes in front of the lines. -/
theorem output_eq_weave {src out : Bytes} {ledger : Ledger} {docAlias : DocAlias}
    (hwords : ∀ r ∈ ledger.pending, Line.IsWord r.name)
    (hout : (apply src ledger docAlias).output = some out) :
    let front p := Element.textL (fronts ledger.tool docAlias ledger.pending (lines src) p)
    out = front ⟨1, 0⟩ ++ (placed ledger.tool ledger.pending (lines src)).weave front ⟨1, 0⟩ 0
      ((lines src).flatMap (· ++ [byte '\n'])) := by
  intro front
  have hadd : ∀ i, 1 + i = i + 1 := fun i => Nat.add_comm 1 i
  rw [← (output_eq_some_iff.1 hout).2]
  refine woven_changes (isLines_lines src).line hwords (fun i text htext c r => ?_)
    (fun i c hc => ?_) ?_ fun p hp => ?_
  · rw [placed_iff_mem, hadd, spansOn_succ htext]
  · obtain ⟨text, htext, rfl⟩ := getElem?_changes hc
    simp only [front, fronts, if_true, textL_fronts, hadd, spansOn_succ htext]
    rfl
  · have hnone : (lines src)[(lines src).length]? = none := List.getElem?_eq_none (Nat.le_refl _)
    simp only [front, fronts, hadd, spansOn, hnone]
    rfl
  · simp only [front, fronts, if_neg hp, Element.textL_nil]

theorem exists_span_of_record {src : Bytes} {ledger : Ledger} {record : Record}
    (h : record ∈ (apply src ledger docAlias).records) :
    ∃ k, ∃ s ∈ spansOn ledger.tool ledger.pending (lines src) k,
      record = Record.ofRename s.rename (writesAlias ledger.tool docAlias s.rename) := by
  rw [apply_eq] at h
  obtain ⟨c, hc, hrecord⟩ := List.mem_flatMap.1 h
  obtain ⟨i, hi⟩ := List.mem_iff_getElem?.1 hc
  obtain ⟨text, htext, rfl⟩ := getElem?_changes hi
  obtain ⟨r, hr, rfl⟩ := List.mem_map.1 hrecord
  obtain ⟨s, hs, rfl⟩ := List.mem_map.1 hr
  rw [Nat.add_comm] at hs
  exact ⟨i + 1, s, by rwa [spansOn_succ htext], rfl⟩

/-! ### Definitions -/

/-- The definition is found at the place. -/
def FoundAt (texts : List Bytes) (r : Rename) (p : Pos) : Prop :=
  ∃ i text, p.line = i + 1 ∧ r.line = p.line ∧ texts[i]? = some text ∧
    Line.place? text r .definitions [] = some p.col

theorem FoundAt.unique {texts : List Bytes} {r : Rename} {p q : Pos} (hp : FoundAt texts r p)
    (hq : FoundAt texts r q) : p = q := by
  obtain ⟨i, text, hi, hl, ht, hplace⟩ := hp
  obtain ⟨j, text', hj, hl', ht', hplace'⟩ := hq
  obtain rfl : i = j := by omega
  obtain rfl := Option.some.inj (ht.symm.trans ht')
  obtain ⟨l, c⟩ := p
  obtain ⟨l', c'⟩ := q
  simp only at hi hj hplace hplace'
  rw [hi, hj, Option.some.inj (hplace.symm.trans hplace')]

theorem onLine_eq_singleton {r : Rename} (h : pending.Pairwise fun a b => a.line ≠ b.line)
    (hr : r ∈ pending) : onLine r.line pending = [r] := by
  induction pending with
  | nil => exact nomatch hr
  | cons a pending ih =>
    obtain ⟨ha, hrest⟩ := List.pairwise_cons.1 h
    rcases List.mem_cons.1 hr with rfl | hr
    · have hnone : onLine r.line pending = [] :=
        List.filter_eq_nil_iff.2 fun b hb => by simpa using (ha b hb).symm
      rw [onLine, List.filter_cons_of_pos (by simp)]
      exact congrArg (r :: ·) hnone
    · rw [onLine, List.filter_cons_of_neg (by simpa using ha r hr)]
      exact ih hrest hr

/-- Where each definition has a line of its own, the spans are the definitions that are found. -/
theorem mem_spansOn_definitions (hlines : pending.Pairwise fun a b => a.line ≠ b.line) {k : Nat}
    {s : Line.Span} :
    s ∈ spansOn .definitions pending texts k ↔
      s.rename ∈ pending ∧ FoundAt texts s.rename ⟨k, s.start⟩ := by
  rw [mem_spansOn_iff]
  constructor
  · rintro ⟨i, text, hk, htext, hs⟩
    have hr := (Line.sublist_spans []).subset (List.mem_map_of_mem hs)
    have hline := line_of_mem_onLine hr
    have hpending := List.mem_of_mem_filter hr
    rw [← hline, onLine_eq_singleton hlines hpending] at hs
    cases hplace : Line.place? text s.rename .definitions [] with
    | none =>
      rw [Line.spans_cons_of_none hplace] at hs
      exact nomatch hs
    | some c =>
      rw [Line.spans_cons_of_some hplace] at hs
      obtain hs := List.mem_singleton.1 hs
      exact ⟨hpending, i, text, hk, hline, htext, by rw [hplace, hs]⟩
  · rintro ⟨hpending, i, text, hk, hline, htext, hplace⟩
    refine ⟨i, text, hk, htext, ?_⟩
    rw [← hline, onLine_eq_singleton hlines hpending, Line.spans_cons_of_some hplace]
    exact List.mem_cons_self

theorem placed_eq_some_iff (hlines : pending.Pairwise fun a b => a.line ≠ b.line) {p : Pos}
    {r : Rename} :
    placed .definitions pending texts p = some r ↔ r ∈ pending ∧ FoundAt texts r p := by
  rw [placed_iff_mem, mem_spansOn_definitions hlines]

/-- The attribute of a definition that is found. -/
theorem fronts_of_found (hlines : pending.Pairwise fun a b => a.line ≠ b.line) {p : Pos}
    {r : Rename} (hr : r ∈ pending) (hfound : FoundAt texts r p)
    (halias : writesAlias .definitions docAlias r = true) :
    fronts .definitions docAlias pending texts ⟨p.line, 0⟩ = aliasElements r.name := by
  obtain ⟨i, text, hi, hline, htext, hplace⟩ := hfound
  have hspans : spansOn .definitions pending texts p.line = [⟨r, p.col⟩] := by
    rw [hi, spansOn_succ htext, ← hi, ← hline, onLine_eq_singleton hlines hr,
      Line.spans_cons_of_some hplace]
    rfl
  simp only [fronts, if_true, hspans]
  simp [halias]

theorem exists_found_of_fronts (hlines : pending.Pairwise fun a b => a.line ≠ b.line) {p : Pos}
    (h : fronts .definitions docAlias pending texts p ≠ []) :
    p.col = 0 ∧ ∃ r ∈ pending, ∃ c, FoundAt texts r ⟨p.line, c⟩ ∧
      writesAlias .definitions docAlias r = true ∧
        fronts .definitions docAlias pending texts p = aliasElements r.name := by
  by_cases hp : p.col = 0
  · obtain ⟨l, c⟩ := p
    obtain rfl : c = 0 := hp
    simp only [fronts, if_true, ne_eq, List.flatMap_eq_nil_iff, not_forall] at h
    obtain ⟨r, hr, -⟩ := h
    obtain ⟨hr, halias⟩ := List.mem_filter.1 hr
    obtain ⟨s, hs, rfl⟩ := List.mem_map.1 hr
    obtain ⟨hpending, hfound⟩ := (mem_spansOn_definitions hlines).1 hs
    exact ⟨rfl, s.rename, hpending, s.start, hfound, halias,
      fronts_of_found hlines hpending hfound halias⟩
  · rw [fronts, if_neg hp] at h
    exact absurd rfl h

end Patch

end GetterRename
