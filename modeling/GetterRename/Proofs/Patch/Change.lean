import GetterRename.Patch.Apply
import GetterRename.Proofs.Getter.Store
import GetterRename.Proofs.Patch.Spans
import GetterRename.Proofs.Text.Split

/-!
# The changes of a text

Applying a ledger changes a text line by line.  The renames of a line are those of its number, as
the ledger has them from the start: taking the renames of one line leaves those of the others.  So
the new text, the records and the notes can all be read off the changes of the lines, and what is
left of the ledger are the renames outside of them.

* `Patch.IsLines`, `Patch.isLines_lines` — the lines of a text;
* `Change` — a line before and after, with the renames applied and the renames without a place;
* `Patch.taken` — the ledger without the renames of some lines;
* `Patch.linesFrom_eq`, `Patch.apply_eq` — the outcome in terms of the changes;
* `Patch.apply_rewrites` — only whole identifiers are changed.
-/

namespace GetterRename

/-! ### Lines -/

namespace Patch

/-- The parts are the lines of the text: a newline stands behind each of them, only the last one
can do without, if there is something on it. -/
structure IsLines (text : Bytes) (parts : List Bytes) : Prop where
  line : ∀ part ∈ parts, byte '\n' ∉ part
  joined : text = parts.flatMap (· ++ [byte '\n']) ∨
    ∃ above last, parts = above ++ [last] ∧ last ≠ [] ∧
      text = above.flatMap (· ++ [byte '\n']) ++ last

theorem isLines_lines (text : Bytes) : IsLines text (lines text) := by
  obtain ⟨above, last, hsplit, htext, hsep⟩ := Bytes.splitOn_spec (byte '\n') text
  by_cases hlast : last = []
  · have hlines : lines text = above := by simp [lines, hsplit, hlast]
    rw [hlines]
    refine ⟨fun part hpart => hsep part (List.mem_append_left _ hpart), .inl ?_⟩
    simpa [hlast] using htext
  · have hlines : lines text = above ++ [last] := by simp [lines, hsplit, hlast]
    rw [hlines]
    exact ⟨hsep, .inr ⟨above, last, rfl, hlast, htext⟩⟩

theorem IsLines.exists_tail {text : Bytes} {parts : List Bytes} (h : IsLines text parts) :
    ∃ tail, (tail = [] ∨ tail = [byte '\n']) ∧
      parts.flatMap (· ++ [byte '\n']) = text ++ tail := by
  rcases h.joined with htext | ⟨above, last, hparts, -, htext⟩
  · exact ⟨[], .inl rfl, by rw [htext, List.append_nil]⟩
  · exact ⟨[byte '\n'], .inr rfl, by simp [hparts, htext]⟩

/-! ### Aliases -/

/-- No rename is applied with an alias. -/
def NoAlias (tool : Tool) (docAlias : DocAlias) : Prop := ∀ r, writesAlias tool docAlias r = false

theorem noAlias_of_calls (docAlias : DocAlias) : NoAlias .calls docAlias := fun _ => rfl

theorem noAlias_of_discard (tool : Tool) : NoAlias tool .discard := by
  intro r
  simp [writesAlias, DocAlias.mustGenerate]

end Patch

/-! ### The change of a line -/

/-- A line before and after its renames. -/
structure Change where
  before : Bytes
  after : Bytes
  /-- The renames that have a place on the line. -/
  applied : List Rename
  /-- The renames that have none. -/
  lost : List Rename

namespace Change

/-- The change of a line by renames. -/
def ofLine (tool : Tool) (text : Bytes) (rs : List Rename) : Change where
  before := text
  after := Line.patch text ((Line.spans text tool [] rs).map Line.Span.edit)
  applied := (Line.spans text tool [] rs).map (·.rename)
  lost := Line.lost text tool [] rs

/-- The attributes in front of the line, one for each rename that is applied with an alias. -/
def attributes (c : Change) (tool : Tool) (docAlias : DocAlias) : Bytes :=
  (c.applied.filter (Patch.writesAlias tool docAlias)).flatMap (Patch.aliasAttribute ·.name)

def text (c : Change) (tool : Tool) (docAlias : DocAlias) : Bytes :=
  c.attributes tool docAlias ++ c.after ++ [byte '\n']

def records (c : Change) (tool : Tool) (docAlias : DocAlias) : List Record :=
  c.applied.map fun r => Record.ofRename r (Patch.writesAlias tool docAlias r)

/-- What is written and noted of the change. -/
def patched (c : Change) (path : Bytes) (tool : Tool) (docAlias : DocAlias) : Patch.Patched where
  text := c.text tool docAlias
  records := c.records tool docAlias
  logs := c.lost.map (Patch.notLocated path)

theorem ofLine_nil (tool : Tool) (text : Bytes) : ofLine tool text [] = ⟨text, text, [], []⟩ := by
  have hspans : Line.spans text tool [] [] = [] := rfl
  simp [ofLine, hspans, Line.lost, Line.locate, Line.patch]

theorem after_eq_splice {tool : Tool} {text : Bytes} {rs : List Rename} {asc : List Line.Edit}
    (hperm : ((Line.spans text tool [] rs).map Line.Span.edit).Perm asc)
    (h : Line.Ascending 0 asc) (hlen : ∀ e ∈ asc, e.stop ≤ text.length) :
    (ofLine tool text rs).after = Line.splice 0 text asc :=
  Line.patch_eq_splice hperm h hlen

theorem applied_sublist (tool : Tool) (text : Bytes) (rs : List Rename) :
    (ofLine tool text rs).applied.Sublist rs := Line.sublist_spans []

theorem perm_applied_lost (tool : Tool) (text : Bytes) (rs : List Rename) :
    ((ofLine tool text rs).applied ++ (ofLine tool text rs).lost).Perm rs :=
  Line.perm_spans_lost []

theorem attributes_of_noAlias {tool : Tool} {docAlias : DocAlias}
    (h : Patch.NoAlias tool docAlias) (c : Change) : c.attributes tool docAlias = [] := by
  have hnone : c.applied.filter (Patch.writesAlias tool docAlias) = [] :=
    List.filter_eq_nil_iff.2 fun r _ => by simp [h r]
  rw [attributes, hnone, List.flatMap_nil]

theorem attributes_of_applied {c : Change} (h : c.applied = []) (tool : Tool)
    (docAlias : DocAlias) : c.attributes tool docAlias = [] := by
  simp [attributes, h]

end Change

/-! ### The changes of all lines -/

namespace Patch

open Rename

/-- The notes of a line are those of its lost renames. -/
theorem filterMap_locate_note (path : Bytes) (text : Bytes) (tool : Tool) (rs : List Rename) :
    ((Line.locate text tool [] rs).filterMap fun (r, edit) =>
      if edit.isNone then some (notLocated path r) else none) =
      (Line.lost text tool [] rs).map (notLocated path) := by
  rw [Line.lost, List.map_filterMap]
  refine List.filterMap_congr ?_
  rintro ⟨r, edit⟩ -
  cases edit <;> rfl

theorem line_eq (path : Bytes) (tool : Tool) (docAlias : DocAlias) (text : Bytes)
    (rs : List Rename) :
    line path tool docAlias text rs =
      (Change.ofLine tool text rs).patched path tool docAlias := by
  simp only [line, Line.filterMap_locate_rename, Line.filterMap_locate_edit,
    filterMap_locate_note]
  rfl

def changes (tool : Tool) (k : Nat) (pending : List Rename) (texts : List Bytes) : List Change :=
  texts.mapIdx fun i text => Change.ofLine tool text (onLine ((k + i : Nat) : Int) pending)

theorem changes_cons (tool : Tool) (k : Nat) (pending : List Rename) (text : Bytes)
    (texts : List Bytes) :
    changes tool k pending (text :: texts) =
      Change.ofLine tool text (onLine k pending) :: changes tool (k + 1) pending texts := by
  simp [changes, List.mapIdx_cons, Nat.add_left_comm, Nat.add_comm]

/-- Only the renames of the lines matter. -/
theorem changes_congr {tool : Tool} {k : Nat} {l m : List Rename} (texts : List Bytes)
    (h : ∀ i, onLine ((k + i : Nat) : Int) l = onLine ((k + i : Nat) : Int) m) :
    changes tool k l texts = changes tool k m texts := by
  simp only [changes, h]

/-- The rename is not on one of the `n` lines from `k` on. -/
def outside (k n : Nat) (r : Rename) : Bool := r.line < k || k + n ≤ r.line

/-- The renames of the later lines stay behind when those of a line are taken. -/
theorem changes_filter_ne (tool : Tool) (k : Nat) (pending : List Rename) (texts : List Bytes) :
    changes tool (k + 1) (pending.filter (·.line != (k : Int))) texts =
      changes tool (k + 1) pending texts := by
  refine changes_congr texts fun i => ?_
  rw [onLine, onLine, List.filter_filter]
  refine List.filter_congr fun r _ => ?_
  rw [Bool.and_eq_left_iff_imp]
  simp only [beq_iff_eq, bne_iff_ne]
  omega

theorem filter_outside_zero (k : Nat) (pending : List Rename) :
    pending.filter (outside k 0) = pending := by
  rw [List.filter_eq_self]
  intro r _
  simp only [outside, Bool.or_eq_true, decide_eq_true_eq]
  omega

theorem filter_outside_succ (k n : Nat) (pending : List Rename) :
    (pending.filter (·.line != (k : Int))).filter (outside (k + 1) n) =
      pending.filter (outside k (n + 1)) := by
  rw [List.filter_filter]
  refine List.filter_congr fun r _ => Bool.eq_iff_iff.2 ?_
  simp only [outside, Bool.and_eq_true, Bool.or_eq_true, decide_eq_true_eq, bne_iff_ne]
  omega

/-- The ledger without the renames of `n` lines from number `k` on. -/
def taken (ledger : Ledger) (k : Nat) : Nat → Ledger
  | 0 => ledger
  | n + 1 => taken (ledger.take k).2 (k + 1) n

theorem path_taken (ledger : Ledger) (k n : Nat) : (taken ledger k n).path = ledger.path := by
  induction n generalizing k ledger with
  | zero => rfl
  | succ n ih => exact ih _ _

theorem tool_taken (ledger : Ledger) (k n : Nat) : (taken ledger k n).tool = ledger.tool := by
  induction n generalizing k ledger with
  | zero => rfl
  | succ n ih => exact ih _ _

theorem pending_taken (ledger : Ledger) (k n : Nat) :
    (taken ledger k n).pending = ledger.pending.filter (outside k n) := by
  induction n generalizing k ledger with
  | zero => exact (filter_outside_zero ..).symm
  | succ n ih => rw [taken, ih, Ledger.pending_take, filter_outside_succ]

theorem taken_of_empty {ledger : Ledger} (h : ledger.pending = []) (k n : Nat) :
    taken ledger k n = ledger := by
  induction n generalizing k with
  | zero => rfl
  | succ n ih => rw [taken, Ledger.take_of_free (by simp [h]), ih]

theorem linesFrom_eq (docAlias : DocAlias) (k : Nat) (ledger : Ledger) (texts : List Bytes) :
    linesFrom docAlias k ledger texts =
      ((changes ledger.tool k ledger.pending texts).map
          (·.patched ledger.path ledger.tool docAlias), taken ledger k texts.length) := by
  induction texts generalizing k ledger with
  | nil => rfl
  | cons text texts ih =>
    rw [linesFrom]
    simp only [ih, Ledger.take_fst, Ledger.take_path, Ledger.take_tool, Ledger.pending_take,
      path_taken, tool_taken, changes_filter_ne, line_eq, changes_cons, List.map_cons,
      List.length_cons]
    rfl

/-- The outcome in terms of the changes, for an empty ledger too. -/
theorem apply_eq (src : Bytes) (ledger : Ledger) (docAlias : DocAlias) :
    let cs := changes ledger.tool 1 ledger.pending (lines src)
    let left := ledger.pending.filter (outside 1 (lines src).length)
    apply src ledger docAlias =
      { output := if cs.flatMap (·.applied) = [] then none
          else some (cs.flatMap (·.text ledger.tool docAlias))
        records := cs.flatMap (·.records ledger.tool docAlias)
        ledger := taken ledger 1 (lines src).length
        logs := (cs.flatMap (·.lost)).map (notLocated ledger.path) ++
          left.map (beyondEnd ledger.path) } := by
  intro cs left
  have hrecords : cs.flatMap (·.records ledger.tool docAlias) = (cs.flatMap (·.applied)).map
      fun r => Record.ofRename r (writesAlias ledger.tool docAlias r) := List.map_flatMap.symm
  by_cases hempty : ledger.pending = []
  · have hnone : ∀ c ∈ cs, c.applied = [] ∧ c.lost = [] := by
      intro c hc
      obtain ⟨i, hi, rfl⟩ := List.mem_mapIdx.1 hc
      simp [hempty, onLine, Change.ofLine_nil]
    have happlied : cs.flatMap (·.applied) = [] :=
      List.flatMap_eq_nil_iff.2 fun c hc => (hnone c hc).1
    have hlost : cs.flatMap (·.lost) = [] := List.flatMap_eq_nil_iff.2 fun c hc => (hnone c hc).2
    have hnotes : left.map (beyondEnd ledger.path) = [] := by simp [left, hempty]
    have happly : apply src ledger docAlias = ⟨none, [], ledger, []⟩ := by
      simp [apply, Ledger.isEmpty_eq, hempty]
    rw [hrecords, happlied, hlost, hnotes, taken_of_empty hempty, happly]
    rfl
  · have hisEmpty : ledger.isEmpty = false := by simpa [Ledger.isEmpty_eq] using hempty
    have hnil : (cs.flatMap (·.records ledger.tool docAlias)).isEmpty = true ↔
        cs.flatMap (·.applied) = [] := by
      rw [hrecords, List.isEmpty_iff, List.map_eq_nil_iff]
    simp only [apply, hisEmpty, Bool.false_eq_true, if_false, linesFrom_eq, List.flatMap_map,
      List.map_flatMap, Change.patched, ← hnil, path_taken, pending_taken]
    rfl

theorem output_eq_some_iff {src out : Bytes} {ledger : Ledger} {docAlias : DocAlias} :
    (apply src ledger docAlias).output = some out ↔
      (changes ledger.tool 1 ledger.pending (lines src)).flatMap (·.applied) ≠ [] ∧
        (changes ledger.tool 1 ledger.pending (lines src)).flatMap
          (·.text ledger.tool docAlias) = out := by
  rw [apply_eq]
  simp

theorem output_of_line {src text : Bytes} {ledger : Ledger} {docAlias : DocAlias}
    {asc : List Line.Edit} (hlines : lines src = [text]) (hnoAlias : NoAlias ledger.tool docAlias)
    (hperm : ((Line.spans text ledger.tool [] (onLine (1 : Nat) ledger.pending)).map
      Line.Span.edit).Perm asc)
    (h : Line.Ascending 0 asc) (hlen : ∀ e ∈ asc, e.stop ≤ text.length) (hne : asc ≠ []) :
    (apply src ledger docAlias).output = some (Line.splice 0 text asc ++ [byte '\n']) := by
  have hchanges : changes ledger.tool 1 ledger.pending (lines src) =
      [Change.ofLine ledger.tool text (onLine (1 : Nat) ledger.pending)] := by
    rw [hlines]
    rfl
  rw [output_eq_some_iff, hchanges]
  constructor
  · have hspans : Line.spans text ledger.tool [] (onLine (1 : Nat) ledger.pending) ≠ [] := by
      intro hnil
      rw [hnil] at hperm
      exact hne hperm.symm.eq_nil
    simpa [Change.ofLine] using hspans
  · rw [List.flatMap_singleton, Change.text, Change.attributes_of_noAlias hnoAlias,
      Change.after_eq_splice hperm h hlen, List.nil_append]

theorem length_changes (tool : Tool) (k : Nat) (pending : List Rename) (texts : List Bytes) :
    (changes tool k pending texts).length = texts.length := List.length_mapIdx

theorem getElem?_changes {tool : Tool} {k i : Nat} {pending : List Rename} {texts : List Bytes}
    {c : Change} (h : (changes tool k pending texts)[i]? = some c) :
    ∃ text, texts[i]? = some text ∧
      c = Change.ofLine tool text (onLine ((k + i : Nat) : Int) pending) := by
  rw [changes, List.getElem?_mapIdx, Option.map_eq_some_iff] at h
  obtain ⟨text, htext, rfl⟩ := h
  exact ⟨text, htext, rfl⟩

theorem map_before_changes (tool : Tool) (k : Nat) (pending : List Rename) (texts : List Bytes) :
    (changes tool k pending texts).map (·.before) = texts := by
  induction texts generalizing k with
  | nil => rfl
  | cons text texts ih =>
    rw [changes_cons, List.map_cons, ih]
    rfl

/-- **Applying a ledger changes whole identifiers** and nothing else.  The new text has the lines of the
text in order, each with its attributes in front of it, and on each line the renames applied have
stretches of their own. -/
theorem apply_rewrites (src : Bytes) (ledger : Ledger) (docAlias : DocAlias)
    (hnames : ∀ r ∈ ledger.pending, Line.IsWord r.name) :
    let p := apply src ledger docAlias
    IsLines src (lines src) ∧ (p.output = none ↔ p.records = []) ∧
      ∀ out, p.output = some out → ∃ cs : List Change,
        cs.map (·.before) = lines src ∧
        out = cs.flatMap (fun c => c.attributes ledger.tool docAlias ++ c.after ++ [byte '\n']) ∧
        p.records = cs.flatMap (·.records ledger.tool docAlias) ∧
        (∀ (i : Nat) (c : Change), cs[i]? = some c →
          c.applied.Sublist (onLine ((1 + i : Nat) : Int) ledger.pending)) ∧
        ∀ c ∈ cs, Line.Rewrites c.before c.applied c.after ∧
          (c.applied = [] → c.after = c.before ∧ c.attributes ledger.tool docAlias = []) := by
  intro p
  let cs := changes ledger.tool 1 ledger.pending (lines src)
  have happly : p = _ := apply_eq src ledger docAlias
  have hrecords : p.records = cs.flatMap (·.records ledger.tool docAlias) := by rw [happly]
  have hnil : p.records = [] ↔ cs.flatMap (·.applied) = [] := by
    rw [hrecords]
    simp [List.flatMap_eq_nil_iff, Change.records]
  refine ⟨isLines_lines src, ?_, fun out hout => ?_⟩
  · rw [hnil, happly]
    simp [cs]
  refine ⟨cs, map_before_changes .., ?_, hrecords, fun i c hc => ?_, fun c hc => ?_⟩
  · exact (output_eq_some_iff.1 hout).2.symm
  · obtain ⟨text, -, rfl⟩ := getElem?_changes hc
    exact Change.applied_sublist ..
  · obtain ⟨i, hi⟩ := List.mem_iff_getElem?.1 hc
    obtain ⟨text, -, rfl⟩ := getElem?_changes hi
    have hrewrites := @Line.rewrites_patch text (onLine ((1 + i : Nat) : Int) ledger.pending)
      (fun r hr => hnames r (List.mem_of_mem_filter hr)) ledger.tool
    refine ⟨hrewrites, fun happlied => ⟨?_, Change.attributes_of_applied happlied ..⟩⟩
    exact Line.Rewrites.eq_of_nil (happlied ▸ hrewrites)

/-- The calls `get_x(y.get_x())`, of which the second was found first and without its column. -/
def twinCalls : Ledger :=
  ((Ledger.start "src/lib.rs" .calls).push
    ⟨"get_x", ⟨"x", .maybe, .regular⟩, 1, -1, .file, true, false⟩).push
      ⟨"get_x", ⟨"x", .maybe, .regular⟩, 1, 0, .file, false, false⟩

theorem lines_twinCalls :
    lines "get_x(y.get_x())\n// done" = ["get_x(y.get_x())", "// done"] := by decide +kernel

theorem output_twinCalls : (apply "get_x(y.get_x())\n// done" twinCalls .generate).output =
    some "x(y.x())\n// done\n" := by
  have hafter : (Change.ofLine .calls "get_x(y.get_x())" twinCalls.pending).after = "x(y.x())" := by
    rw [@Change.after_eq_splice _ _ _ [⟨0, 5, "x"⟩, ⟨8, 13, "x"⟩] (by decide +kernel)
      (by simp [Line.Ascending]) (by decide +kernel)]
    decide +kernel
  have hfirst : onLine (1 : Nat) twinCalls.pending = twinCalls.pending := by decide +kernel
  have hsecond : onLine (2 : Nat) twinCalls.pending = [] := by decide +kernel
  have happlied : (Change.ofLine .calls "get_x(y.get_x())" twinCalls.pending).applied ≠ [] := by
    decide +kernel
  have hchanges : changes twinCalls.tool 1 twinCalls.pending (lines "get_x(y.get_x())\n// done") =
      [Change.ofLine .calls "get_x(y.get_x())" twinCalls.pending,
        ⟨"// done", "// done", [], []⟩] := by
    rw [lines_twinCalls, ← Change.ofLine_nil .calls, ← hsecond, ← hfirst]
    rfl
  refine output_eq_some_iff.2 ⟨?_, ?_⟩
  · simp [hchanges, happlied]
  · have hnoAlias : NoAlias twinCalls.tool .generate := noAlias_of_calls .generate
    simp only [hchanges, List.flatMap_cons, Change.text, hafter,
      Change.attributes_of_noAlias hnoAlias]
    rfl

theorem apply_rewrites_twinCalls :
    (∀ r ∈ twinCalls.pending, Line.IsWord r.name) ∧ ∃ cs : List Change,
      cs.map (·.before) = ["get_x(y.get_x())", "// done"] ∧
      cs.flatMap (fun c => c.attributes .calls .generate ++ c.after ++ [byte '\n']) =
        "x(y.x())\n// done\n" ∧
      ∀ c ∈ cs, Line.Rewrites c.before c.applied c.after := by
  have hnames : ∀ r ∈ twinCalls.pending, Line.IsWord r.name := by
    intro r hr
    have hword : r.name ≠ [] ∧ ∀ b ∈ r.name, Line.isIdentByte b = true := by
      revert r
      decide +kernel
    exact ⟨hword.1, hword.2⟩
  obtain ⟨-, -, hchanges⟩ := apply_rewrites "get_x(y.get_x())\n// done" twinCalls .generate hnames
  obtain ⟨cs, hbefore, htext, -, -, hrewrites⟩ := hchanges _ output_twinCalls
  exact ⟨hnames, cs, hbefore.trans lines_twinCalls, htext.symm, fun c hc => (hrewrites c hc).1⟩

end Patch

end GetterRename
