import Mathlib.Data.List.Basic
import Mathlib.Data.List.Perm.Basic

/-! Removal from an array whose order does not matter: the last entry takes the place of the one
that goes. -/

namespace OsLab

variable {α : Type*}

def swapRemove (l : List α) (i : Nat) : List α :=
  match l.getLast? with
  | none => []
  | some last => (l.set i last).dropLast

theorem swapRemove_cases {l : List α} {i : Nat} (h : i < l.length) :
    ∃ init last, l = init ++ [last] ∧
      (i < init.length ∧ swapRemove l i = init.set i last ∨
        i = init.length ∧ swapRemove l i = init) := by
  have hne : l ≠ [] := List.ne_nil_of_length_pos (Nat.zero_lt_of_lt h)
  obtain ⟨init, last, rfl⟩ := (List.eq_nil_or_concat' l).resolve_left hne
  rw [List.length_append, List.length_singleton] at h
  refine ⟨init, last, rfl, ?_⟩
  simp only [swapRemove, List.getLast?_concat]
  rcases Nat.lt_succ_iff_lt_or_eq.mp h with hlt | rfl
  · rw [List.set_append_left _ _ hlt, List.dropLast_concat]
    exact .inl ⟨hlt, rfl⟩
  · rw [List.set_append_right _ _ (Nat.le_refl _), List.dropLast_append_of_ne_nil (by simp)]
    exact .inr ⟨rfl, by simp⟩

theorem perm_swapRemove {l : List α} {i : Nat} {x : α} (h : l[i]? = some x) :
    l.Perm (x :: swapRemove l i) := by
  obtain ⟨hi, rfl⟩ := List.getElem?_eq_some_iff.mp h
  obtain ⟨init, last, rfl, ⟨hlt, hswap⟩ | ⟨rfl, hswap⟩⟩ := swapRemove_cases hi
  · rw [hswap, List.getElem_append_left hlt]
    have hsplit : init = init.take i ++ init[i] :: init.drop (i + 1) := by simp
    have hrest : (last :: init).Perm (last :: init[i] :: (init.take i ++ init.drop (i + 1))) := by
      conv_lhs => rw [hsplit]
      exact List.perm_middle.cons _
    have hset : (last :: (init.take i ++ init.drop (i + 1))).Perm (init.set i last) := by
      rw [List.set_eq_take_append_cons_drop, if_pos hlt]
      exact List.perm_middle.symm
    calc (init ++ [last]).Perm (last :: init) := List.perm_append_singleton _ _
      _ |>.Perm (last :: init[i] :: (init.take i ++ init.drop (i + 1))) := hrest
      _ |>.Perm (init[i] :: last :: (init.take i ++ init.drop (i + 1))) := .swap _ _ _
      _ |>.Perm (init[i] :: init.set i last) := hset.cons _
  · rw [hswap, List.getElem_concat_length rfl]
    exact List.perm_append_singleton _ _

theorem take_swapRemove {l : List α} {i : Nat} (h : i < l.length) :
    (swapRemove l i).take i = l.take i := by
  obtain ⟨init, last, rfl, ⟨hlt, hswap⟩ | ⟨rfl, hswap⟩⟩ := swapRemove_cases h
  · rw [hswap, List.take_set_of_le (Nat.le_refl _), List.take_append_of_le_length (Nat.le_of_lt hlt)]
  · rw [hswap, List.take_length, List.take_left]

theorem drop_swapRemove {l : List α} {i : Nat} {x : α} (h : l[i]? = some x) :
    (l.drop i).Perm (x :: (swapRemove l i).drop i) := by
  have hperm := perm_swapRemove h
  rw [← List.take_append_drop i l] at hperm
  have hsplit : swapRemove (l.take i ++ l.drop i) i = l.take i ++ (swapRemove l i).drop i := by
    rw [List.take_append_drop, ← take_swapRemove (List.getElem?_eq_some_iff.mp h).1,
      List.take_append_drop]
  rw [hsplit] at hperm
  exact (List.perm_append_left_iff _).mp (hperm.trans List.perm_middle.symm)

section Sweep

variable {β : Type*} {select : α → Bool} {put : β → α → β}

/-- Goes through the array from `i` on and removes each selected entry; the one that takes its place
is the next to be looked at. -/
def sweepFrom (select : α → Bool) (put : β → α → β) : (fuel : Nat) → (i : Nat) → List α → β →
    List α × β
  | 0, _, l, b => (l, b)
  | fuel + 1, i, l, b =>
    match l[i]? with
    | none => (l, b)
    | some x =>
      if select x then sweepFrom select put fuel i (swapRemove l i) (put b x)
      else sweepFrom select put fuel (i + 1) l b

def sweep (select : α → Bool) (put : β → α → β) (l : List α) (b : β) : List α × β :=
  sweepFrom select put l.length 0 l b

def swept (select : α → Bool) (l : List α) : List α × List α :=
  sweep select (fun taken x => taken ++ [x]) l []

theorem sweepFrom_foldl (fuel i : Nat) (l taken : List α) (b : β) :
    sweepFrom select put fuel i l (taken.foldl put b) =
      ((sweepFrom select (fun taken x => taken ++ [x]) fuel i l taken).1,
        (sweepFrom select (fun taken x => taken ++ [x]) fuel i l taken).2.foldl put b) := by
  induction fuel generalizing i l taken with
  | zero => rfl
  | succ fuel ih =>
    simp only [sweepFrom]
    split
    · rfl
    · split_ifs
      · rw [← ih, List.foldl_append, List.foldl_cons, List.foldl_nil]
      · exact ih ..

theorem sweep_eq (l : List α) (b : β) :
    sweep select put l b = ((swept select l).1, (swept select l).2.foldl put b) :=
  sweepFrom_foldl l.length 0 l [] b

structure Sweeping (select : α → Bool) (l : List α) (i : Nat) (left taken : List α) : Prop where
  perm : (taken ++ left).Perm l
  passed : ∀ x ∈ left.take i, select x = false
  taken : ∀ x ∈ taken, select x = true

theorem Sweeping.sweepFrom {l left taken : List α} {fuel i : Nat}
    (h : Sweeping select l i left taken) (hfuel : left.length - i ≤ fuel) :
    ∃ i' left' taken',
      sweepFrom select (fun taken x => taken ++ [x]) fuel i left taken = (left', taken') ∧
        left'.length ≤ i' ∧ Sweeping select l i' left' taken' := by
  induction fuel generalizing i left taken with
  | zero => exact ⟨i, left, taken, rfl, Nat.sub_eq_zero_iff_le.mp (Nat.le_zero.mp hfuel), h⟩
  | succ fuel ih =>
    cases hx : left[i]? with
    | none =>
      refine ⟨i, left, taken, by simp only [OsLab.sweepFrom, hx], ?_, h⟩
      exact List.getElem?_eq_none_iff.mp hx
    | some x =>
      have hlt := (List.getElem?_eq_some_iff.mp hx).1
      have hperm := perm_swapRemove hx
      simp only [OsLab.sweepFrom, hx]
      split_ifs with hselect
      · have hlen := hperm.length_eq
        rw [List.length_cons] at hlen
        refine ih ⟨?_, ?_, ?_⟩ (by omega)
        · rw [List.append_assoc]
          exact (hperm.symm.append_left taken).trans h.perm
        · rw [take_swapRemove hlt]
          exact h.passed
        · exact List.forall_mem_append.mpr ⟨h.taken, List.forall_mem_singleton.mpr hselect⟩
      · refine ih ⟨h.perm, ?_, h.taken⟩ (by omega)
        rw [List.take_add_one, hx]
        refine List.forall_mem_append.mpr ⟨h.passed, ?_⟩
        simpa using hselect

theorem swept_spec (select : α → Bool) (l : List α) :
    ((swept select l).2 ++ (swept select l).1).Perm l ∧
      (∀ x ∈ (swept select l).1, select x = false) ∧
      ∀ x ∈ (swept select l).2, select x = true := by
  have hstart : Sweeping select l 0 l [] := ⟨.refl l, by simp, by simp⟩
  obtain ⟨i, left, taken, heq, hle, hsweeping⟩ := hstart.sweepFrom (Nat.sub_le l.length 0)
  have hpassed := hsweeping.passed
  rw [List.take_of_length_le hle] at hpassed
  rw [swept, sweep, heq]
  exact ⟨hsweeping.perm, hpassed, hsweeping.taken⟩

theorem swept_perm (select : α → Bool) (l : List α) :
    ((swept select l).2 ++ (swept select l).1).Perm l := (swept_spec select l).1

theorem mem_swept_left {l : List α} {x : α} :
    x ∈ (swept select l).1 ↔ x ∈ l ∧ select x = false := by
  have hperm := (swept_perm select l).mem_iff (a := x)
  rw [List.mem_append] at hperm
  constructor
  · exact fun hx => ⟨hperm.mp (.inr hx), (swept_spec select l).2.1 x hx⟩
  · rintro ⟨hx, hselect⟩
    refine (hperm.mpr hx).resolve_left fun htaken => ?_
    exact Bool.false_ne_true (hselect.symm.trans ((swept_spec select l).2.2 x htaken))

theorem mem_swept_taken {l : List α} {x : α} :
    x ∈ (swept select l).2 ↔ x ∈ l ∧ select x = true := by
  have hperm := (swept_perm select l).mem_iff (a := x)
  rw [List.mem_append] at hperm
  constructor
  · exact fun hx => ⟨hperm.mp (.inl hx), (swept_spec select l).2.2 x hx⟩
  · rintro ⟨hx, hselect⟩
    refine (hperm.mpr hx).resolve_right fun hleft => ?_
    exact Bool.false_ne_true ((mem_swept_left.mp hleft).2.symm.trans hselect)

end Sweep

end OsLab
