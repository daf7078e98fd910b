import Mathlib.Data.List.Induction

/-! What happens one thing after the other, where each may be possible or not. -/

namespace StageTree

/-- What holds at first, and after a move if it held before, holds after any moves. It may tell of the moves. -/
theorem foldlM_induction {σ μ : Type} {step : σ → μ → Option σ} {s t : σ} {P : List μ → σ → Prop} (nil : P [] s)
    (concat : ∀ before move q q', before.foldlM step s = some q → P before q → step q move = some q' →
      P (before ++ [move]) q')
    {moves : List μ} (h : moves.foldlM step s = some t) : P moves t := by
  induction moves using List.reverseRecOn generalizing t with
  | nil => exact Option.some.inj h ▸ nil
  | append_singleton before move ih =>
    rw [List.foldlM_append] at h
    obtain ⟨q, hq, hmove⟩ := Option.bind_eq_some_iff.1 h
    exact concat before move q t hq (ih hq) (by simpa using hmove)

/-- One move among others is the last one, or one before. -/
theorem eq_concat_cases {μ : Type} {moves before after : List μ} {last move : μ}
    (h : moves ++ [last] = before ++ move :: after) :
    before = moves ∧ move = last ∧ after = [] ∨ ∃ rest, after = rest ++ [last] ∧ moves = before ++ move :: rest := by
  rcases List.eq_nil_or_concat after with rfl | ⟨rest, last', rfl⟩
  · obtain ⟨rfl, e⟩ := List.append_inj' h rfl
    exact .inl ⟨rfl, (List.singleton_inj.1 e).symm, rfl⟩
  · rw [List.concat_eq_append, ← List.cons_append, ← List.append_assoc] at h
    obtain ⟨e, e'⟩ := List.append_inj' h rfl
    rw [List.concat_eq_append, List.singleton_inj.1 e']
    exact .inr ⟨rest, rfl, e⟩

/-- That each member of a list comes after what it needs. -/
def Heralded {α : Type} (Q : List α → α → Prop) (l : List α) : Prop :=
  ∀ before a after, l = before ++ a :: after → Q before a

theorem heralded_append {α : Type} {Q : List α → α → Prop} {l more : List α} (h : Heralded Q l)
    (hmore : ∀ front a rest, more = front ++ a :: rest → Q (l ++ front) a) : Heralded Q (l ++ more) := by
  intro before a after heq
  rcases List.append_eq_append_iff.1 heq with ⟨front, rfl, hrest⟩ | ⟨back, rfl, hrest⟩
  · exact hmore front a after hrest
  · cases back with
    | nil => simpa using hmore [] a after hrest.symm
    | cons a' back =>
      obtain ⟨rfl, _⟩ := List.cons.inj hrest
      exact h before a back rfl

theorem Heralded.of_append {α : Type} {Q : List α → α → Prop} {l more : List α} (h : Heralded Q (l ++ more)) :
    Heralded Q l :=
  fun before a after heq => h before a (after ++ more) (by simp [heq])

end StageTree
