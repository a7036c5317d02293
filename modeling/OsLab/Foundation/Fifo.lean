import Mathlib.Data.List.Basic
import Mathlib.Order.Basic
import Mathlib.Order.Nat

/-! A queue observed over time. If members only ever join at its end, its order at any moment is the
order in which the members entered it. -/

namespace OsLab

variable {α : Type*} {Q : ℕ → List α} {k : ℕ} {p q : α}

/-- At moment `k`, `p` has been in the queue since a moment at which `q` was not. -/
def EnteredBefore (Q : ℕ → List α) (k : ℕ) (p q : α) : Prop :=
  ∃ j ≤ k, (∀ m, j ≤ m → m ≤ k → p ∈ Q m) ∧ q ∉ Q j

def Joins (before after : List α) : Prop :=
  ∃ new : List α, new.length ≤ 1 ∧ (∀ x ∈ new, x ∉ before) ∧ after.Sublist (before ++ new)

theorem Joins.of_sublist {l l' : List α} (h : l'.Sublist l) : Joins l l' :=
  ⟨[], Nat.zero_le 1, fun _ hx => absurd hx List.not_mem_nil, (List.append_nil l).symm ▸ h⟩

theorem Joins.concat {l : List α} {x : α} (h : x ∉ l) : Joins l (l ++ [x]) := by
  refine ⟨[x], le_rfl, ?_, List.Sublist.refl _⟩
  intro y hy
  rwa [List.mem_singleton.mp hy]

theorem Joins.sublist {l l' l'' : List α} (h : Joins l l') (hsub : l''.Sublist l') : Joins l l'' := by
  obtain ⟨new, hlength, hnew, hl⟩ := h
  exact ⟨new, hlength, hnew, hsub.trans hl⟩

theorem Joins.pair_cases {l l' : List α} (h : Joins l l') (hpq : [p, q].Sublist l') :
    [p, q].Sublist l ∨ (p ∈ l ∧ q ∉ l) := by
  obtain ⟨new, hlength, hnew, hl⟩ := h
  obtain ⟨l₁, l₂, hsplit, h₁, h₂⟩ := List.sublist_append_iff.mp (hpq.trans hl)
  have hshort : l₂.length ≤ 1 := h₂.length_le.trans hlength
  cases l₁ with
  | nil =>
    rw [List.nil_append] at hsplit
    rw [← hsplit] at hshort
    exact absurd hshort (by simp)
  | cons a l₁ =>
    obtain ⟨rfl, hrest⟩ := List.cons.inj hsplit
    cases l₁ with
    | nil =>
      have hlast : [q] = l₂ := hrest
      have hmem : q ∈ new := h₂.subset (hlast ▸ List.mem_cons_self)
      exact .inr ⟨h₁.subset List.mem_cons_self, hnew q hmem⟩
    | cons b l₁ =>
      obtain ⟨rfl, hnil⟩ := List.cons.inj hrest
      rw [(List.append_eq_nil_iff.mp hnil.symm).1] at h₁
      exact .inl h₁

theorem enteredBefore_of_joins {l : List α} (h : Joins (Q k) l)
    (horder : [p, q].Sublist (Q k) → EnteredBefore Q k p q) (hpq : [p, q].Sublist l) :
    EnteredBefore Q k p q := by
  rcases h.pair_cases hpq with hold | ⟨hp, hq⟩
  · exact horder hold
  · exact ⟨k, le_rfl, fun m hkm hmk => le_antisymm hkm hmk ▸ hp, hq⟩

theorem enteredBefore_of_sublist (hstart : Q 0 = []) (hstep : ∀ k, Joins (Q k) (Q (k + 1)))
    (hpq : [p, q].Sublist (Q k)) : EnteredBefore Q k p q := by
  induction k with
  | zero =>
    rw [hstart] at hpq
    exact absurd hpq.length_le (by simp)
  | succ k ih =>
    obtain ⟨j, hj, hstay, hq⟩ := enteredBefore_of_joins (hstep k) ih hpq
    refine ⟨j, hj.trans (Nat.le_succ k), fun m hjm hmk => ?_, hq⟩
    rcases hmk.eq_or_lt with rfl | hlt
    · exact hpq.subset List.mem_cons_self
    · exact hstay m hjm (Nat.le_of_lt_succ hlt)

end OsLab
