import Mathlib.Data.List.Basic
import Mathlib.Data.List.Count

/-! Sequences of turns: what holds at every turn, given the turns before it. -/

namespace OsLab

variable {α : Type*}

/-- `P` holds of every element and of the elements before it. -/
def EachTurn (P : List α → α → Prop) (l : List α) : Prop :=
  ∀ pre x post, l = pre ++ x :: post → P pre x

theorem eachTurn_nil {P : List α → α → Prop} : EachTurn P [] := fun _ _ _ h => by simp at h

theorem eachTurn_concat {P : List α → α → Prop} {l : List α} {x : α} :
    EachTurn P (l ++ [x]) ↔ EachTurn P l ∧ P l x := by
  constructor
  · intro h
    refine ⟨fun pre y post hsplit => h pre y (post ++ [x]) ?_, h l x [] rfl⟩
    rw [hsplit, List.append_assoc, List.cons_append]
  · rintro ⟨h, hx⟩ pre y post hsplit
    rcases List.eq_nil_or_concat post with rfl | ⟨post', z, rfl⟩
    · obtain ⟨rfl, hlast⟩ := List.append_inj' hsplit rfl
      exact (List.cons.inj hlast).1 ▸ hx
    · rw [List.concat_eq_append, ← List.cons_append, ← List.append_assoc] at hsplit
      exact h pre y post' (List.append_inj' hsplit rfl).1

end OsLab
