import GetterRename.Proofs.Bounds.Access
import GetterRename.Proofs.Patch.Change

/-!
# Patching, with positions

The column of a rename may point anywhere, so an identifier is looked for with a check of the bounds
first.  The search for another place goes on behind the place found last; as a name is not empty, it
comes closer to the end of the line with every turn.  The spans found are replaced from right to
left, so a replacement does not move what is still to be replaced.

* `Checked.isIdentAt?_eq`, `Checked.hasRole?_eq` — what stands around a place;
* `Checked.searchFrom?_eq` — the search for a place;
* `Checked.patch?_eq` — replacing the spans of a line;
* `Line.stop_le_of_mem_locate` — every span lies in its line;
* `Checked.patchText?_eq` — applying a ledger.
-/

namespace GetterRename

namespace Checked

open Line (Edit isIdentByte)

/-! ### Places of a name -/

/-- The place of the first occurrence of `part` in a text. -/
def indexOf? (part : Bytes) : Bytes → Option Nat
  | [] => if part.isEmpty then some 0 else none
  | b :: rest =>
    if part.isPrefixOf (b :: rest) then some 0 else (indexOf? part rest).map (· + 1)

def isIdentByteAt? (text : Bytes) (i : Int) : Option Bool := (get? text i).map isIdentByte

def isIdentBefore? (text : Bytes) (i : Int) : Option Bool :=
  if 0 < i then isIdentByteAt? text (i - 1) else some false

/-- Whether a byte of an identifier stands at a position that may be the end of the text. -/
def isIdentBehind? (text : Bytes) (i : Int) : Option Bool :=
  if i = text.length then some false else isIdentByteAt? text i

/-- Whether the whole identifier `name` starts at `start`. -/
def isIdentAt? (text : Bytes) (start : Int) (name : Bytes) : Option Bool :=
  let stop := start + name.length
  if start < 0 ∨ text.length < stop then some false
  else do
    let part ← slice? text start stop
    if part != name then some false
    else
      let joined ← isIdentBefore? text start
      if joined then some false else (isIdentBehind? text stop).map not

/-- Whether the identifier that ends at the end of the text starts at `start`. -/
def isIdentEnd? (text : Bytes) (start : Int) : Option Bool :=
  if start = 0 then some true else (isIdentByteAt? text (start - 1)).map not

def isAtColumn? (text : Bytes) (r : Rename) : Option Bool :=
  if r.column < 0 then some false else isIdentAt? text r.column r.name

/-- Whether the text in front of `start` gives a name the role of the rename. -/
def hasRole? (text : Bytes) (tool : Tool) (isMethod : Bool) (start : Nat) : Option Bool := do
  let head ← slice? text 0 start
  let before := Bytes.dropEndWhile Line.isBlank head
  match tool with
  | .definitions =>
    if start = before.length ∨ Bytes.endsWith before "fn" = false then some false
    else isIdentEnd? before ((before.length : Int) - 2)
  | .calls => some (Bytes.endsWith before "." == isMethod)

section Search

variable (text : Bytes) (r : Rename) (tool : Tool) (claimed : List Nat)

def isPlace? (start : Nat) : Option Bool := do
  let fits ← isIdentAt? text start r.name
  if !fits || claimed.contains start then some false else hasRole? text tool r.isMethod start

/-- The first free place of the rename from position `i` on. -/
def searchFrom? : Nat → Nat → Option (Option Nat)
  | 0, _ => none
  | n + 1, i => do
    let rest ← slice? text i text.length
    match indexOf? r.name rest with
    | none => some none
    | some k =>
      let found ← isPlace? text r tool claimed (i + k)
      if found then some (some (i + k)) else searchFrom? n (i + k + r.name.length)

def place? : Option (Option Nat) := do
  let fits ← isAtColumn? text r
  if fits && !claimed.contains r.column.toNat then some (some r.column.toNat)
  else searchFrom? text r tool claimed (turns text) 0

end Search

/-! ### Edits -/

/-- The edits of the renames of a line in order, none for a rename that has no place. -/
def locate? (text : Bytes) (tool : Tool) (claimed : List Nat) :
    List Rename → Option (List (Rename × Option Edit))
  | [] => some []
  | r :: rest => do
    match ← place? text r tool claimed with
    | some start =>
      let located ← locate? text tool (start :: claimed) rest
      return (r, some ⟨start, start + r.name.length, r.newName.text⟩) :: located
    | none =>
      let located ← locate? text tool claimed rest
      return (r, none) :: located

def replace? (text : Bytes) (e : Edit) : Option Bytes := do
  let head ← slice? text 0 e.start
  let tail ← slice? text e.stop text.length
  return head ++ e.text ++ tail

def patch? (text : Bytes) (edits : List Edit) : Option Bytes :=
  (edits.mergeSort fun a b => b.start ≤ a.start).foldlM replace? text

/-! ### Applying a ledger -/

def lines? (text : Bytes) : Option (List Bytes) :=
  let parts := Bytes.splitOn (byte '\n') text
  if 0 < parts.length then do
    let last ← top? parts
    if last.length = 0 then pop? parts else some parts
  else some parts

section Apply

variable (docAlias : DocAlias)

def line? (path : Bytes) (tool : Tool) (text : Bytes) (renames : List Rename) :
    Option Patch.Patched := do
  let located ← locate? text tool [] renames
  let patched ← patch? text (located.filterMap (·.2))
  let applied := located.filterMap fun (r, edit) => edit.map fun _ => r
  let attributes := (applied.filter (Patch.writesAlias tool docAlias)).flatMap
    (Patch.aliasAttribute ·.name)
  return {
    text := attributes ++ patched ++ [byte '\n']
    records := applied.map fun r => Record.ofRename r (Patch.writesAlias tool docAlias r)
    logs := located.filterMap fun (r, edit) =>
      if edit.isNone then some (Patch.notLocated path r) else none }

def linesFrom? (number : Nat) (ledger : Ledger) :
    List Bytes → Option (List Patch.Patched × Ledger)
  | [] => some ([], ledger)
  | text :: rest => do
    let (renames, ledger) := ledger.take number
    let patched ← line? docAlias ledger.path ledger.tool text renames
    let (more, ledger) ← linesFrom? (number + 1) ledger rest
    return (patched :: more, ledger)

def patchText? (src : Bytes) (ledger : Ledger) : Option Patch :=
  if ledger.isEmpty then some ⟨none, [], ledger, []⟩
  else do
    let lines ← lines? src
    let (patched, left) ← linesFrom? docAlias 1 ledger lines
    let records := patched.flatMap (·.records)
    let logs := patched.flatMap (·.logs) ++ left.pending.map (Patch.beyondEnd left.path)
    let output := if records.isEmpty then none else some (patched.flatMap (·.text))
    return ⟨output, records, left, logs⟩

end Apply

/-! ### What stands around a place -/

theorem isIdentBefore?_eq (text : Bytes) {i : Nat} (h : i ≤ text.length) :
    isIdentBefore? text i = some (i != 0 && text[i - 1]?.any isIdentByte) := by
  unfold isIdentBefore? isIdentByteAt?
  cases i with
  | zero => rfl
  | succ i =>
    have hlt : i < text.length := h
    rw [if_pos (by omega), get?_pred _ (by omega : 0 < i + 1), Nat.add_sub_cancel,
      List.getElem?_eq_getElem hlt]
    rfl

theorem isIdentBehind?_eq (text : Bytes) {i : Nat} (h : i ≤ text.length) :
    isIdentBehind? text i = some (text[i]?.any isIdentByte) := by
  unfold isIdentBehind? isIdentByteAt?
  by_cases hend : i = text.length
  · rw [if_pos (by omega), hend, List.getElem?_eq_none (Nat.le_refl _)]
    rfl
  · have hlt : i < text.length := Nat.lt_of_le_of_ne h hend
    rw [if_neg (by omega), get?_natCast, List.getElem?_eq_getElem hlt]
    rfl

theorem isIdentAt?_eq (text : Bytes) (start : Nat) (name : Bytes) :
    isIdentAt? text start name = some (Line.isIdentAt text start name) := by
  unfold isIdentAt? Line.isIdentAt
  by_cases hlen : start + name.length ≤ text.length
  · have hstop : (start : Int) + name.length = (start + name.length : Nat) := by omega
    have hstart : start ≤ text.length := by omega
    have hpart : (text.take (start + name.length)).drop start =
        (text.drop start).take name.length := by
      rw [List.drop_take, Nat.add_sub_cancel_left]
    rw [if_neg (by omega), hstop, slice?_natCast text (by omega) hlen, hpart]
    simp only [isIdentBefore?_eq text hstart, isIdentBehind?_eq text hlen, Option.bind_eq_bind,
      Option.bind_some, Option.map_some, hlen, decide_true, Bool.true_and, bne]
    cases (text.drop start).take name.length == name with
    | false => rfl
    | true =>
      cases start == 0 <;> cases text[start - 1]?.any isIdentByte <;> rfl
  · rw [if_pos (by omega), decide_eq_false hlen]
    rfl

theorem isIdentEnd?_eq {text : Bytes} (h : 2 ≤ text.length) :
    isIdentEnd? text ((text.length : Int) - 2) =
      some (!(text.take (text.length - 2)).getLast?.any isIdentByte) := by
  obtain ⟨k, hk⟩ : ∃ k, text.length = k + 2 := ⟨text.length - 2, by omega⟩
  have hstart : (text.length : Int) - 2 = k := by omega
  unfold isIdentEnd? isIdentByteAt?
  rw [hstart, show text.length - 2 = k by omega]
  cases k with
  | zero => rfl
  | succ k =>
    have hlt : k < text.length := by omega
    rw [if_neg (by omega), get?_pred _ (by omega : 0 < k + 1), List.getLast?_take, if_neg (by omega),
      Nat.add_sub_cancel, List.getElem?_eq_getElem hlt]
    rfl

/-- The text in front of a name may be looked at where it ends with `fn`. -/
theorem hasRole?_eq {text : Bytes} (tool : Tool) (isMethod : Bool) {start : Nat}
    (h : start ≤ text.length) :
    hasRole? text tool isMethod start = some (Line.hasRole tool isMethod (text.take start)) := by
  have hlength : (text.take start).length = start := by
    rw [List.length_take]
    omega
  unfold hasRole? Line.hasRole
  rw [show (0 : Int) = (0 : Nat) from rfl, slice?_natCast text (Nat.zero_le _) h, List.drop_zero,
    Option.bind_eq_bind, Option.bind_some, hlength]
  generalize Bytes.dropEndWhile Line.isBlank (text.take start) = before
  cases tool with
  | calls => rfl
  | definitions =>
    simp only [Line.endsWithFn]
    cases hfn : Bytes.endsWith before "fn" with
    | false => simp
    | true =>
      have htwo : 2 ≤ before.length := (List.isSuffixOf_iff_suffix.1 hfn).length_le
      rw [isIdentEnd?_eq htwo]
      by_cases hall : start = before.length
      · simp [hall]
      · simp [hall, Ne.symm hall]

/-! ### The search for a place -/

section Occurrences

variable {name : Bytes}

theorem indexOf?_le {rest : Bytes} {k : Nat} (h : indexOf? name rest = some k) :
    k + name.length ≤ rest.length := by
  induction rest generalizing k with
  | nil =>
    unfold indexOf? at h
    split at h
    · rename_i hempty
      obtain rfl := Option.some.inj h
      rw [List.isEmpty_iff.1 hempty]
      exact Nat.le_refl 0
    · cases h
  | cons b rest ih =>
    unfold indexOf? at h
    split at h
    · rename_i hprefix
      obtain rfl := Option.some.inj h
      have := (List.isPrefixOf_iff_prefix.1 hprefix).length_le
      omega
    · obtain ⟨k, hk, rfl⟩ := Option.map_eq_some_iff.1 h
      have := ih hk
      rw [List.length_cons]
      omega

theorem occurrencesFrom_of_none (hname : name ≠ []) {rest : Bytes} (h : indexOf? name rest = none)
    (start : Nat) : Line.occurrencesFrom name start rest = [] := by
  induction rest generalizing start with
  | nil => simp [Line.occurrencesFrom, hname]
  | cons b rest ih =>
    unfold indexOf? at h
    split at h
    · cases h
    · rename_i hprefix
      rw [Line.occurrencesFrom, if_neg hprefix]
      exact ih (Option.map_eq_none_iff.1 h) (start + 1)

theorem occurrencesFrom_of_some (hname : name ≠ []) {rest : Bytes} {k : Nat}
    (h : indexOf? name rest = some k) (start : Nat) :
    Line.occurrencesFrom name start rest =
      (start + k) :: Line.occurrencesFrom name (start + k + name.length)
        (rest.drop (k + name.length)) := by
  induction rest generalizing start k with
  | nil => simp [indexOf?, hname] at h
  | cons b rest ih =>
    unfold indexOf? at h
    split at h
    · rename_i hprefix
      obtain rfl := Option.some.inj h
      obtain ⟨n, hn⟩ : ∃ n, name.length = n + 1 :=
        Nat.exists_eq_succ_of_ne_zero (by simpa using hname)
      have hmax : max 1 name.length = name.length := by omega
      rw [Line.occurrencesFrom, if_pos hprefix, hmax, hn, Nat.zero_add, List.drop_succ_cons,
        Nat.add_sub_cancel]
      rfl
    · rename_i hprefix
      obtain ⟨k, hk, rfl⟩ := Option.map_eq_some_iff.1 h
      rw [Line.occurrencesFrom, if_neg hprefix, ih hk (start + 1), Nat.add_right_comm k 1,
        List.drop_succ_cons, Nat.add_right_comm start 1, Nat.add_assoc start k 1]

end Occurrences

section Search

variable {text : Bytes} {r : Rename} {tool : Tool} {claimed : List Nat}

theorem isPlace?_eq {start : Nat} (h : start ≤ text.length) :
    isPlace? text r tool claimed start = some (Line.isIdentAt text start r.name &&
      !claimed.contains start && Line.hasRole tool r.isMethod (text.take start)) := by
  unfold isPlace?
  rw [isIdentAt?_eq, Option.bind_eq_bind, Option.bind_some, hasRole?_eq tool r.isMethod h]
  cases Line.isIdentAt text start r.name <;> cases claimed.contains start <;> rfl

/-- Every turn of the search starts behind the place that the turn before found. -/
theorem searchFrom?_eq (hname : r.name ≠ []) {n i : Nat} (hi : i ≤ text.length)
    (hn : text.length - i < n) :
    searchFrom? text r tool claimed n i =
      some ((Line.occurrencesFrom r.name i (text.drop i)).find? fun start =>
        Line.isIdentAt text start r.name && !claimed.contains start &&
          Line.hasRole tool r.isMethod (text.take start)) := by
  induction n generalizing i with
  | zero => omega
  | succ n ih =>
    unfold searchFrom?
    rw [slice?_rest text hi, Option.bind_eq_bind, Option.bind_some]
    cases hindex : indexOf? r.name (text.drop i) with
    | none =>
      rw [occurrencesFrom_of_none hname hindex]
      rfl
    | some k =>
      have hpos := List.length_pos_iff.2 hname
      have hle := indexOf?_le hindex
      rw [List.length_drop] at hle
      have hnext : i + k + r.name.length ≤ text.length := by omega
      have hplace := @isPlace?_eq text r tool claimed (i + k) (by omega)
      simp only [hplace, ih hnext (by omega), occurrencesFrom_of_some hname hindex,
        List.drop_drop, List.find?_cons, ← Nat.add_assoc]
      split
      · rename_i htrue
        rw [htrue]
        rfl
      · rename_i hfalse
        rw [hfalse]
        rfl

theorem place?_eq (hname : r.name ≠ []) :
    place? text r tool claimed = some (Line.place? text r tool claimed) := by
  have hfind : searchFrom? text r tool claimed (turns text) 0 =
      some (Line.find? text r tool claimed) :=
    searchFrom?_eq hname (Nat.zero_le _) (Nat.lt_succ_self _)
  have hcolumn : isAtColumn? text r =
      some (decide (0 ≤ r.column) && Line.isIdentAt text r.column.toNat r.name) := by
    unfold isAtColumn?
    by_cases hneg : r.column < 0
    · rw [if_pos hneg, decide_eq_false (by omega)]
      rfl
    · have hcast : (r.column.toNat : Int) = r.column := by omega
      rw [if_neg hneg, ← hcast, isIdentAt?_eq, decide_eq_true (by omega)]
      rfl
  unfold place? Line.place?
  simp only [hcolumn, hfind, Option.bind_eq_bind, Option.bind_some]
  split <;> rfl

end Search

/-! ### The spans of a line -/

section Spans

variable {text : Bytes} {tool : Tool} {rs : List Rename}

theorem locate?_eq (h : ∀ r ∈ rs, r.name ≠ []) (claimed : List Nat) :
    locate? text tool claimed rs = some (Line.locate text tool claimed rs) := by
  induction rs generalizing claimed with
  | nil => rfl
  | cons r rs ih =>
    obtain ⟨hr, hrs⟩ := List.forall_mem_cons.1 h
    simp only [locate?, Line.locate, place?_eq hr, Option.bind_eq_bind, Option.bind_some]
    cases Line.place? text r tool claimed with
    | none =>
      simp only [ih hrs, Option.bind_some]
      rfl
    | some start =>
      simp only [ih hrs, Option.bind_some]
      rfl

theorem replace?_eq {e : Edit} (hspan : e.start ≤ e.stop) (hstop : e.stop ≤ text.length) :
    replace? text e = some (Line.replace text e) := by
  unfold replace? Line.replace
  rw [show (0 : Int) = (0 : Nat) from rfl, slice?_natCast text (Nat.zero_le _) (by omega),
    slice?_rest text hstop]
  rfl

/-- Spans that follow each other from right to left can be replaced one after the other. -/
theorem foldlM_replace? {es : List Edit} (hspan : ∀ e ∈ es, e.start ≤ e.stop ∧ e.stop ≤ text.length)
    (hapart : es.Pairwise fun a b => b.stop ≤ a.start) :
    es.foldlM replace? text = some (es.foldl Line.replace text) := by
  induction es generalizing text with
  | nil => rfl
  | cons e es ih =>
    obtain ⟨⟨hstart, hstop⟩, hspan⟩ := List.forall_mem_cons.1 hspan
    obtain ⟨hleft, hapart⟩ := List.pairwise_cons.1 hapart
    rw [List.foldlM_cons, replace?_eq hstart hstop, List.foldl_cons, Option.bind_eq_bind,
      Option.bind_some]
    -- what is in front of the span is still there
    have hlength : e.start ≤ (Line.replace text e).length := by
      rw [Line.replace, List.length_append, List.length_append, List.length_take]
      omega
    apply ih _ hapart
    intro f hf
    exact ⟨(hspan f hf).1, Nat.le_trans (hleft f hf) hlength⟩

end Spans

end Checked

namespace Line

variable {text : Bytes} {tool : Tool} {claimed : List Nat} {rs : List Rename} {e : Edit}

/-- **Every span lies in its line.** -/
theorem stop_le_of_mem_locate (h : e ∈ (locate text tool claimed rs).filterMap (·.2)) :
    e.start ≤ e.stop ∧ e.stop ≤ text.length := by
  rw [filterMap_locate_edit] at h
  obtain ⟨s, hs, rfl⟩ := List.mem_map.1 h
  obtain ⟨hident, -⟩ := isIdentAt_of_mem_spans hs
  constructor
  · exact Nat.le_add_right _ _
  · exact (isIdentAt_iff.1 hident).1

/-- From right to left, the spans stand apart from each other. -/
theorem apart_of_locate (h : ∀ r ∈ rs, IsWord r.name) :
    (((locate text tool claimed rs).filterMap (·.2)).mergeSort
      fun a b => b.start ≤ a.start).Pairwise fun a b => b.stop ≤ a.start := by
  rw [filterMap_locate_edit]
  generalize hsorted : (List.mergeSort ((spans text tool claimed rs).map Span.edit)
    fun a b => b.start ≤ a.start) = sorted
  have hperm : sorted.Perm ((spans text tool claimed rs).map Span.edit) := by
    rw [← hsorted]
    exact List.mergeSort_perm _ _
  have horder : sorted.Pairwise fun a b => decide (b.start ≤ a.start) = true := by
    rw [← hsorted]
    exact List.pairwise_mergeSort (by simp; omega) (by simp; omega) _
  have hdistinct : sorted.Pairwise fun a b => a.start ≠ b.start := by
    rw [← List.pairwise_map]
    refine (hperm.map Edit.start).nodup_iff.2 ?_
    rw [List.map_map]
    exact nodup_spans claimed
  refine (horder.and hdistinct).imp_of_mem fun {a b} ha hb hab => ?_
  obtain ⟨s, hs, rfl⟩ := List.mem_map.1 (hperm.mem_iff.1 ha)
  obtain ⟨t, ht, rfl⟩ := List.mem_map.1 (hperm.mem_iff.1 hb)
  have hword := h t.rename ((sublist_spans claimed).subset (List.mem_map_of_mem ht))
  have hle : t.start ≤ s.start := of_decide_eq_true hab.1
  have hlt : t.start < s.start := Nat.lt_of_le_of_ne hle (Ne.symm hab.2)
  exact apart hword (isIdentAt_of_mem_spans ht).1 (isIdentAt_of_mem_spans hs).1 hlt

end Line

namespace Checked

variable {text : Bytes} {tool : Tool} {rs : List Rename}

theorem patch?_eq (h : ∀ r ∈ rs, Line.IsWord r.name) (claimed : List Nat) :
    patch? text ((Line.locate text tool claimed rs).filterMap (·.2)) =
      some (Line.patch text ((Line.locate text tool claimed rs).filterMap (·.2))) := by
  apply foldlM_replace?
  · intro e he
    exact Line.stop_le_of_mem_locate (List.mem_mergeSort.1 he)
  · exact Line.apart_of_locate h

/-! ### All lines -/

theorem lines?_eq (text : Bytes) : lines? text = some (Patch.lines text) := by
  unfold lines? Patch.lines
  generalize Bytes.splitOn (byte '\n') text = parts
  rcases List.eq_nil_or_concat parts with rfl | ⟨parts, last, rfl⟩
  · rfl
  · have hpos : 0 < (parts ++ [last]).length := by simp
    simp only [List.concat_eq_append, if_pos hpos, top?_append, pop?_append, List.getLast?_concat,
      List.dropLast_concat]
    cases last <;> rfl

theorem line?_eq (docAlias : DocAlias) (path : Bytes) (h : ∀ r ∈ rs, Line.IsWord r.name) :
    line? docAlias path tool text rs = some (Patch.line path tool docAlias text rs) := by
  unfold line? Patch.line
  rw [locate?_eq (fun r hr => (h r hr).ne_nil), Option.bind_eq_bind, Option.bind_some,
    patch?_eq h]
  rfl

theorem linesFrom?_eq (docAlias : DocAlias) {ledger : Ledger}
    (h : ∀ r ∈ ledger.pending, Line.IsWord r.name) (number : Nat) (lines : List Bytes) :
    linesFrom? docAlias number ledger lines =
      some (Patch.linesFrom docAlias number ledger lines) := by
  induction lines generalizing number ledger with
  | nil => rfl
  | cons text lines ih =>
    have htaken : ∀ r ∈ (ledger.take number).1, Line.IsWord r.name :=
      fun r hr => h r (List.mem_filter.1 (Ledger.take_fst ledger number ▸ hr)).1
    have hleft : ∀ r ∈ (ledger.take number).2.pending, Line.IsWord r.name :=
      fun r hr => h r (List.mem_filter.1 (Ledger.pending_take ledger number ▸ hr)).1
    -- the path and the tool of a ledger stay
    simp only [linesFrom?, line?_eq docAlias _ htaken, ih hleft, Option.bind_eq_bind,
      Option.bind_some, Patch.linesFrom, Patch.linesFrom_eq, Patch.path_taken, Patch.tool_taken]
    rfl

/-- **Applying a ledger.**  No position looked at in a line is out of range and every span that is
replaced lies in its line, if the names of the renames are words. -/
theorem patchText?_eq (docAlias : DocAlias) (src : Bytes) {ledger : Ledger}
    (h : ∀ r ∈ ledger.pending, Line.IsWord r.name) :
    patchText? docAlias src ledger = some (Patch.apply src ledger docAlias) := by
  unfold patchText? Patch.apply
  rw [lines?_eq]
  simp only [Option.bind_eq_bind, Option.bind_some, linesFrom?_eq docAlias h]
  split <;> rfl

end Checked

end GetterRename
