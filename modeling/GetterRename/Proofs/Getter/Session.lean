import GetterRename.Getter.Session
import GetterRename.Proofs.Getter.Store
import Mathlib.Algebra.Ring.Int.Defs

/-!
# What a session answers

The calls of a session with their answers tell which renames were added and not taken since, and how
each view was made.  Nothing else is needed to know the next answer: the ledger holds those renames by
line and counts them, and a view stands where the offsets on its way add up to.

* `History` — what the calls and answers of a session tell;
* `Session.Keeps` — a session that holds what its history tells;
* `Session.Keeps.call`, `Session.Keeps.after` — one call, and all of them;
* `Session.Answers`, `Session.answers_of_history` — the answers of a session.
-/

namespace GetterRename

/-! ### Histories -/

/-- What the calls and answers of a session tell. -/
structure History where
  /-- The offsets on the way to each view, the last one at the end. -/
  ways : List (List Int) := [[]]
  /-- The renames added and not yet taken, in the order of their addition. -/
  added : List Rename := []

namespace History

/-- A rename as it is added on a way: behind an offset it needs no alias. -/
def recorded (way : List Int) (r : Rename) : Rename :=
  if way = [] then r else { r with needsDocAlias := false }

def note (h : History) : Call × Option Answer → History
  | (⟨i, .add r⟩, some .added) => { h with added := h.added ++ [recorded (h.ways[i]?.getD []) r] }
  | (⟨i, .relocate offset⟩, some _) => { h with ways := h.ways ++ [h.ways[i]?.getD [] ++ [offset]] }
  | (⟨_, .take line⟩, some _) => { h with added := h.added.filter (·.line != line) }
  | _ => h

def ofTranscript (transcript : List (Call × Option Answer)) : History := transcript.foldl note {}

end History

/-- The view behind the offsets of a way. -/
def View.along (way : List Int) : View := ⟨way.sum, way ≠ []⟩

namespace View

theorem relocate_along (way : List Int) (offset : Int) :
    (along way).relocate offset = along (way ++ [offset]) := by
  simp [along, relocate]

/-- Each offset is added as machine words are. -/
theorem offset_relocate (v : View) (offset : Int) :
    (v.relocate offset).offset = (v.offset + offset).bmod Numeral.wordLimit :=
  (Int.bmod_add_bmod ..).symm

theorem adopt_along (way : List Int) (r : Rename) : (along way).adopt r = History.recorded way r := by
  by_cases h : way = [] <;> simp [along, adopt, History.recorded, h]

end View

namespace History

theorem line_recorded (way : List Int) (r : Rename) : (recorded way r).line = r.line := by
  unfold recorded
  split <;> rfl

theorem name_recorded (way : List Int) (r : Rename) : (recorded way r).name = r.name := by
  unfold recorded
  split <;> rfl

end History

/-! ### What a session holds -/

namespace Session

open Rename

/-- The session holds what its history tells. -/
structure Keeps (path : Bytes) (tool : Tool) (s : Session) (h : History) : Prop where
  single : tool = .definitions → (h.added.map (·.line)).Nodup
  pending : s.ledger.pending = sortByLine h.added
  views : s.views = h.ways.map View.along
  tool : s.ledger.tool = tool
  path : s.ledger.path = path

variable {path : Bytes} {tool : Tool} {s : Session} {h : History}

theorem keeps_start (path : Bytes) (tool : Tool) : (start path tool).Keeps path tool {} where
  single := fun _ => .nil
  pending := List.mergeSort_nil.symm
  views := rfl
  tool := rfl
  path := rfl

namespace Keeps

/-- A call goes through the view behind the offsets of its way. -/
theorem call_eq (hs : s.Keeps path tool h) {i : Nat} {way : List Int}
    (hway : h.ways[i]? = some way) (request : Request) :
    s.call ⟨i, request⟩ =
      ((s.answer (View.along way) request).1, some (s.answer (View.along way) request).2) := by
  have hview : s.views[i]? = some (View.along way) := by
    rw [hs.views, List.getElem?_map, hway]
    rfl
  simp only [Session.call, hview]

/-- A call through a view that was never made is not answered. -/
theorem call_eq_none (hs : s.Keeps path tool h) {i : Nat} (hway : h.ways[i]? = none)
    (request : Request) : s.call ⟨i, request⟩ = (s, none) := by
  have hview : s.views[i]? = none := by
    rw [hs.views, List.getElem?_map, hway]
    rfl
  simp only [Session.call, hview]

theorem mem_pending (hs : s.Keeps path tool h) {x : Rename} :
    x ∈ s.ledger.pending ↔ x ∈ h.added := by
  rw [hs.pending, (perm_sortByLine h.added).mem_iff]

theorem nodup_pending (hs : s.Keeps path tool h) (ht : tool = .definitions) :
    (s.ledger.pending.map (·.line)).Nodup := by
  rw [hs.pending, ((perm_sortByLine h.added).map _).nodup_iff]
  exact hs.single ht

theorem add (hs : s.Keeps path tool h) (way : List Int) {r : Rename}
    (hfree : tool = .definitions → ∀ x ∈ h.added, x.line ≠ r.line) :
    Keeps path tool
      { s with ledger := s.ledger.push (History.recorded way r) }
      { h with added := h.added ++ [History.recorded way r] } where
  single ht := by
    rw [List.map_append, List.nodup_append]
    refine ⟨hs.single ht, by simp, ?_⟩
    simp only [List.mem_map, List.map_cons, List.map_nil, List.mem_singleton,
      History.line_recorded]
    rintro _ ⟨x, hx, rfl⟩ _ rfl
    exact hfree ht x hx
  pending := by rw [Ledger.pending_push, hs.pending, sortByLine_append]
  views := hs.views
  tool := hs.tool
  path := hs.path

theorem take (hs : s.Keeps path tool h) (line : Int) :
    Keeps path tool { s with ledger := (s.ledger.take line).2 }
      { h with added := h.added.filter (·.line != line) } where
  single ht := (hs.single ht).sublist (List.filter_sublist.map _)
  pending := by rw [Ledger.pending_take, hs.pending, filter_ne_sortByLine]
  views := hs.views
  tool := hs.tool
  path := hs.path

theorem relocate (hs : s.Keeps path tool h) (way : List Int) (offset : Int) :
    Keeps path tool { s with views := s.views ++ [(View.along way).relocate offset] }
      { h with ways := h.ways ++ [way ++ [offset]] } where
  single := hs.single
  pending := hs.pending
  views := by rw [hs.views, View.relocate_along, List.map_append, List.map_singleton]
  tool := hs.tool
  path := hs.path

theorem add_eq_ok_iff (hs : s.Keeps path tool h) {way : List Int} {r : Rename} {l : Ledger} :
    s.ledger.add ((View.along way).adopt r) = .ok l ↔
      (tool = .definitions → ∀ x ∈ h.added, x.line ≠ r.line) ∧
        l = s.ledger.push (History.recorded way r) := by
  simp only [Ledger.add_eq_ok_iff, View.adopt_along, hs.tool, History.line_recorded, hs.mem_pending]

theorem call (hs : s.Keeps path tool h) (c : Call) :
    (s.call c).1.Keeps path tool (h.note (c, (s.call c).2)) := by
  obtain ⟨i, request⟩ := c
  cases hway : h.ways[i]? with
  | none =>
    rw [hs.call_eq_none hway]
    cases request <;> exact hs
  | some way =>
    rw [hs.call_eq hway]
    cases request with
    | add r =>
      cases hadd : s.ledger.add ((View.along way).adopt r) with
      | error e =>
        simp only [answer, hadd]
        exact hs
      | ok ledger =>
        obtain ⟨hfree, rfl⟩ := hs.add_eq_ok_iff.1 hadd
        simp only [answer, hadd, History.note, hway]
        exact hs.add way hfree
    | relocate offset =>
      simp only [answer, History.note, hway]
      exact hs.relocate way offset
    | take line => exact hs.take line
    | _ => exact hs

/-- All calls of a session keep to its history. -/
theorem after (hs : s.Keeps path tool h) (calls : List Call) :
    (s.after calls).Keeps path tool ((s.transcript calls).foldl History.note h) := by
  induction calls generalizing s h with
  | nil => exact hs
  | cons c calls ih => exact ih (hs.call c)

end Keeps

/-! ### Answers -/

/-- What a session with this history answers through the view `i`, which was made on `way`. -/
structure Answers (path : Bytes) (tool : Tool) (h : History) (s : Session) (i : Nat)
    (way : List Int) : Prop where
  renames : s.call ⟨i, .renames⟩ = (s, some (.renames (sortByLine h.added)))
  size : s.call ⟨i, .size⟩ = (s, some (.size h.added.length))
  isEmpty : s.call ⟨i, .isEmpty⟩ = (s, some (.isEmpty h.added.isEmpty))
  /-- The offsets on the way are added as machine words are, exactly where their sum is one. -/
  offset : s.call ⟨i, .offset⟩ = (s, some (.offset (way.sum.bmod Numeral.wordLimit)))
  offset_of_fits : -Numeral.limit ≤ way.sum → way.sum < Numeral.limit →
    s.call ⟨i, .offset⟩ = (s, some (.offset way.sum))
  relocate : ∀ offset, (s.call ⟨i, .relocate offset⟩).2 = some (.view h.ways.length)
  take : ∀ line, (s.call ⟨i, .take line⟩).2 = some (.renames (onLine line h.added))
  /-- Calls are always added, a definition where no other is on its line. -/
  add : ∀ r, (tool = .definitions → ∀ x ∈ h.added, x.line ≠ r.line) →
    (s.call ⟨i, .add r⟩).2 = some .added
  /-- A definition is refused where another one is on its line, and changes nothing. -/
  refuse : tool = .definitions → ∀ r, ∀ x ∈ h.added, x.line = r.line →
    s.call ⟨i, .add r⟩ = (s, some (.refused ⟨path, r.line, x.name, r.name⟩))

theorem Keeps.answers (hs : s.Keeps path tool h) {i : Nat} {way : List Int}
    (hway : h.ways[i]? = some way) : s.Answers path tool h i way where
  renames := by
    rw [hs.call_eq hway, ← hs.pending]
    rfl
  size := by
    rw [hs.call_eq hway, ← (perm_sortByLine h.added).length_eq, ← hs.pending, ← Ledger.size_eq]
    rfl
  isEmpty := by
    rw [hs.call_eq hway, ← (perm_sortByLine h.added).isEmpty_eq, ← hs.pending,
      ← Ledger.isEmpty_eq]
    rfl
  offset := hs.call_eq hway _
  offset_of_fits hlow hhigh := by
    have hword : way.sum.bmod Numeral.wordLimit = way.sum := Int.bmod_eq_of_le
      (by simpa [Numeral.wordLimit] using hlow) (by simp only [Numeral.wordLimit]; omega)
    rw [hs.call_eq hway]
    exact congrArg (fun n => (s, some (Answer.offset n))) hword
  relocate offset := by
    rw [hs.call_eq hway]
    simp [answer, hs.views]
  take line := by
    rw [hs.call_eq hway, ← onLine_sortByLine, ← hs.pending, ← Ledger.take_fst]
    rfl
  add r hfree := by
    rw [hs.call_eq hway]
    simp only [answer, hs.add_eq_ok_iff.2 ⟨hfree, rfl⟩]
  refuse ht r x hx hline := by
    have hadd : s.ledger.add ((View.along way).adopt r) =
        .error ⟨s.ledger.path, r.line, x.name, r.name⟩ := by
      rw [View.adopt_along, Ledger.add_of_occupied (hs.tool.trans ht) (hs.nodup_pending ht)
        (hs.mem_pending.2 hx) (hline.trans (History.line_recorded way r).symm),
        History.line_recorded, History.name_recorded]
    rw [hs.call_eq hway, ← hs.path]
    simp only [answer, hadd]

/-- **A session answers by its history.**  Whatever the calls so far and the views they went through,
the next answer is known from them and their answers. -/
theorem answers_of_history (path : Bytes) (tool : Tool) (calls : List Call) :
    let s := (start path tool).after calls
    let h := History.ofTranscript ((start path tool).transcript calls)
    (tool = .definitions → (h.added.map (·.line)).Nodup) ∧
      (∀ i way, h.ways[i]? = some way → s.Answers path tool h i way) ∧
      ∀ i request, h.ways[i]? = none → s.call ⟨i, request⟩ = (s, none) := by
  have hs : ((start path tool).after calls).Keeps path tool
      (History.ofTranscript ((start path tool).transcript calls)) :=
    (keeps_start path tool).after calls
  exact ⟨hs.single, fun i way hway => hs.answers hway,
    fun i request hway => hs.call_eq_none hway request⟩

end Session

end GetterRename
