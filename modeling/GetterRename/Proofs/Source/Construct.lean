import GetterRename.Proofs.Source.Outline

/-!
# The constructs of a source

A construct that is read from tokens has inside it what was read from the tokens inside, and of a
call the step that recognises it tells whether there are any.

* `Step.IsFaithful` — what a step tells about the tokens it leaves inside;
* `Outline.isFaithful_step` — one step;
* `Outline.construct_of_mem_read` — a whole outline.
-/

namespace GetterRename

/-- What is recognised without anything inside is no construct, and of a call the step tells whether
it has arguments. -/
def Step.IsFaithful : Step → Prop
  | .leaves nodes => ∀ head inner, Node.construct head inner ∉ nodes
  | .construct (.methodCall c) args | .construct (.call c) args => c.hasArgs = !args.isEmpty
  | _ => True

namespace Outline

theorem isFaithful_attributeAt (rest : List Token) : (attributeAt rest).1.IsFaithful := by
  unfold attributeAt
  simp only
  split
  · rename_i content _ _ _
    intro head inner h
    unfold attributeDocs at h
    split at h
    · split at h
      · obtain ⟨i, hi, hdoc⟩ := List.mem_mapIdx.1 h
        exact nomatch hdoc
      · exact nomatch h
    · exact nomatch h
  · trivial

theorem isFaithful_dotAt (joint : Bool) (rest : List Token) : (dotAt joint rest).1.IsFaithful := by
  unfold dotAt
  split
  · trivial
  split
  · simp only
    split
    · rfl
    · trivial
  · trivial

theorem isFaithful_fnAt (name : Ident) (rest : List Token) : (fnAt name rest).1.IsFaithful := by
  unfold fnAt
  simp only
  repeat' split
  all_goals trivial

theorem isFaithful_implAt (rest : List Token) : (implAt rest).1.IsFaithful := by
  unfold implAt implHead
  simp only
  repeat' split
  all_goals trivial

theorem isFaithful_item? {t : Token} {rest : List Token} {found : Step × List Token}
    (h : item? t rest = some found) : found.1.IsFaithful := by
  rcases item?_cases h with ⟨name, p, after, rfl, hnamed⟩ | rfl | ⟨name, isStatic, after, -, rfl⟩ |
    ⟨after, -, rfl⟩
  · rcases hnamed with rfl | rfl | rfl
    · exact isFaithful_fnAt _ after
    · unfold traitAt
      split <;> trivial
    · unfold moduleAt
      split <;> trivial
  · exact isFaithful_implAt rest
  · trivial
  · trivial

theorem isFaithful_macroUse? {name : Ident} {rest : List Token} {found : Step × List Token}
    (h : macroUse? name rest = some found) : found.1.IsFaithful := by
  have hleaf : ∀ use : MacroUse, (Step.leaves [.macroUse use]).IsFaithful := by
    intro use head inner hmem
    exact nomatch List.mem_singleton.1 hmem
  unfold macroUse? at h
  split at h
  · split at h
    · obtain rfl := Option.some.inj h
      exact hleaf _
    · exact nomatch h
  · split at h
    · obtain rfl := Option.some.inj h
      exact hleaf _
    · exact nomatch h
  · exact nomatch h

theorem isFaithful_word (name : Ident) (rest : List Token) : (word name rest).1.IsFaithful := by
  unfold word
  split
  · rename_i found hmacro
    exact isFaithful_macroUse? hmacro
  simp only
  split
  · rename_i found hitem
    obtain ⟨t, -, hitem⟩ := Option.bind_eq_some_iff.1 hitem
    exact isFaithful_item? hitem
  split
  · trivial
  split
  · trivial
  · unfold pathCall
    simp only
    split
    · rfl
    · trivial

theorem isFaithful_step (t : Token) (rest : List Token) : (step t rest).1.IsFaithful := by
  unfold step
  split
  · intro head inner h
    exact nomatch List.mem_singleton.1 h
  · trivial
  · split
    · exact isFaithful_attributeAt rest
    split
    · exact isFaithful_dotAt _ rest
    · trivial
  · exact isFaithful_word _ rest
  · trivial

/-- What stands inside a construct was read from tokens, and a call tells whether there are any. -/
theorem construct_of_mem_read {head : Construct} {inner : List Node} (tokens : List Token)
    (h : .construct head inner ∈ read tokens) :
    ∃ inside, inner = read inside ∧ (Step.construct head inside).IsFaithful := by
  induction tokens using read.induct with
  | case1 => simp [read] at h
  | case2 t rest found ihInside ihRest =>
    rw [read, List.mem_append] at h
    rcases h with h | h
    · have hfaithful := isFaithful_step t rest
      cases hstep : (step t rest).1 with
      | nothing => simp [hstep, Step.nodes] at h
      | leaves nodes =>
        rw [hstep] at h hfaithful
        exact absurd h (hfaithful head inner)
      | transparent tokens =>
        rw [hstep] at h
        exact ihInside (by simpa [hstep, found, Step.nodes] using h)
      | construct head' tokens =>
        rw [hstep] at h hfaithful
        obtain ⟨rfl, rfl⟩ : head = head' ∧ inner = read tokens := by
          simpa [Step.nodes, Step.inside] using h
        exact ⟨tokens, rfl, hfaithful⟩
    · exact ihRest h

end Outline

end GetterRename
