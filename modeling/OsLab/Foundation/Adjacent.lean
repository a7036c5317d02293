import Mathlib.Data.List.Basic

/-! Pairs of neighbours in a list, and counting them up to a bound. -/

namespace OsLab

variable {α β : Type*}

def adjacent (l : List α) : List (α × α) := l.zip l.tail

theorem adjacent_take (l : List α) (k : Nat) : adjacent (l.take (k + 1)) = (adjacent l).take k := by
  cases l with
  | nil => simp [adjacent]
  | cons a l =>
    rw [adjacent, adjacent, List.take_succ_cons, List.tail_cons, List.tail_cons]
    induction k generalizing a l with
    | zero => simp
    | succ k ih =>
      cases l with
      | nil => simp
      | cons b l => simp [ih b l]

theorem adjacent_map (f : α → β) (l : List α) :
    adjacent (l.map f) = (adjacent l).map (Prod.map f f) := by
  rw [adjacent, adjacent, ← List.map_tail, List.zip_map]

theorem countP_take_le {p q : α → Bool} (himp : ∀ a, p a = true → q a = true) (k : Nat)
    (l : List α) : (l.take k).countP p ≤ l.countP q :=
  Nat.le_trans (List.countP_mono_left fun a _ => himp a) (List.take_sublist k l).countP_le

theorem forall_getElem?_cons {P : Nat → α → Prop} {a : α} {l : List α} :
    (∀ i b, (a :: l)[i]? = some b → P i b) ↔ P 0 a ∧ ∀ i b, l[i]? = some b → P (i + 1) b := by
  constructor
  · exact fun h => ⟨h 0 a rfl, fun i b hb => h (i + 1) b hb⟩
  · rintro ⟨hhead, htail⟩ (_ | i) b hb
    · obtain rfl := Option.some.inj hb
      exact hhead
    · exact htail i b hb

/-- A stronger test counts as many among the first `k` as the weaker one does in all exactly if all
that passes the weaker one is among them and passes the stronger one. -/
theorem countP_take_eq_iff {p q : α → Bool} (himp : ∀ a, p a = true → q a = true) (k : Nat)
    (l : List α) :
    (l.take k).countP p = l.countP q ↔ ∀ i a, l[i]? = some a → q a = true → i < k ∧ p a = true := by
  induction l generalizing k with
  | nil => simp
  | cons a l ih =>
    rw [forall_getElem?_cons]
    cases k with
    | zero =>
      rw [List.take_zero, List.countP_nil, eq_comm, List.countP_eq_zero, List.forall_mem_cons]
      simp only [Nat.not_lt_zero, false_and, imp_false]
      refine and_congr_right fun _ => ⟨fun h i b hb => h b (List.mem_of_getElem? hb), ?_⟩
      intro h b hb
      obtain ⟨i, hi⟩ := List.mem_iff_getElem?.mp hb
      exact h i b hi
    | succ k =>
      simp only [Nat.succ_pos, true_and, Nat.add_lt_add_iff_right]
      rw [← ih k, List.take_succ_cons]
      cases hq : q a with
      | false =>
        have hp : ¬ p a = true := fun hp => absurd (himp a hp) (by simp [hq])
        rw [List.countP_cons_of_neg hp, List.countP_cons_of_neg (by simp [hq])]
        simp
      | true =>
        rw [List.countP_cons_of_pos hq]
        cases hp : p a with
        | true =>
          rw [List.countP_cons_of_pos hp]
          simp
        | false =>
          have hle := countP_take_le himp k l
          rw [List.countP_cons_of_neg (by simp [hp])]
          simp
          omega

end OsLab
