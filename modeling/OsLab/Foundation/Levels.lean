import Mathlib.Data.List.Basic
import Mathlib.Data.List.GetD
import Mathlib.Data.List.Perm.Basic

/-! A fixed number of FIFO levels with one `size` counter for all of them. -/

namespace OsLab

universe u
variable {α : Type u}

theorem flatten_modify_push (ls : List (List α)) (i : Nat) (x : α) (h : i < ls.length) :
    (ls.modify i (· ++ [x])).flatten.Perm (x :: ls.flatten) := by
  induction ls generalizing i with
  | nil => simp at h
  | cons l ls ih =>
    cases i with
    | zero =>
      simp only [List.modify_zero_cons, List.flatten_cons, List.append_assoc, List.singleton_append]
      exact List.perm_middle
    | succ i =>
      simp only [List.modify_succ_cons, List.flatten_cons]
      exact ((ih i (by simpa using h)).append_left l).trans List.perm_middle

theorem flatten_modify_erase [DecidableEq α] (ls : List (List α)) (i : Nat) (x : α)
    (h : x ∈ ls.getD i []) : ls.flatten.Perm (x :: (ls.modify i (·.erase x)).flatten) := by
  induction ls generalizing i with
  | nil => simp at h
  | cons l ls ih =>
    cases i with
    | zero =>
      simp only [List.modify_zero_cons, List.flatten_cons]
      exact (List.perm_cons_erase (by simpa using h)).append_right _
    | succ i =>
      simp only [List.modify_succ_cons, List.flatten_cons]
      exact ((ih i (by simpa using h)).append_left l).trans List.perm_middle

theorem modify_erase_of_notMem [DecidableEq α] (ls : List (List α)) (i : Nat) (x : α)
    (h : x ∉ ls.getD i []) : ls.modify i (·.erase x) = ls := by
  induction ls generalizing i with
  | nil => simp
  | cons l ls ih =>
    cases i with
    | zero => rw [List.modify_zero_cons, List.erase_of_not_mem (by simpa using h)]
    | succ i => rw [List.modify_succ_cons, ih i (by simpa using h)]

def popFirst : List (List α) → Option (α × List (List α))
  | [] => none
  | [] :: ls => (popFirst ls).map fun r => (r.1, [] :: r.2)
  | (x :: xs) :: ls => some (x, xs :: ls)

theorem popFirst_length {ls ls' : List (List α)} {x : α} (h : popFirst ls = some (x, ls')) :
    ls'.length = ls.length := by
  induction ls generalizing ls' with
  | nil => simp [popFirst] at h
  | cons l ls ih =>
    cases l with
    | nil =>
      simp only [popFirst, Option.map_eq_some_iff, Prod.exists, Prod.mk.injEq] at h
      obtain ⟨y, r, hr, rfl, rfl⟩ := h
      simp [ih hr]
    | cons y ys =>
      simp only [popFirst, Option.some.injEq, Prod.mk.injEq] at h
      simp [← h.2]

theorem popFirst_flatten {ls ls' : List (List α)} {x : α} (h : popFirst ls = some (x, ls')) :
    ls.flatten = x :: ls'.flatten := by
  induction ls generalizing ls' with
  | nil => simp [popFirst] at h
  | cons l ls ih =>
    cases l with
    | nil =>
      simp only [popFirst, Option.map_eq_some_iff, Prod.exists, Prod.mk.injEq] at h
      obtain ⟨y, r, hr, rfl, rfl⟩ := h
      simpa using ih hr
    | cons y ys =>
      simp only [popFirst, Option.some.injEq, Prod.mk.injEq] at h
      simp [← h.1, ← h.2]

theorem popFirst_eq_none {ls : List (List α)} : popFirst ls = none ↔ ls.flatten = [] := by
  induction ls with
  | nil => simp [popFirst]
  | cons l ls ih => cases l <;> simp_all [popFirst]

theorem popFirst_getD {ls ls' : List (List α)} {x : α} (h : popFirst ls = some (x, ls')) :
    ∃ i, ls.getD i [] = x :: ls'.getD i [] ∧ (∀ j < i, ls.getD j [] = []) ∧
      ∀ j, j ≠ i → ls'.getD j [] = ls.getD j [] := by
  induction ls generalizing ls' with
  | nil => simp [popFirst] at h
  | cons l ls ih =>
    cases l with
    | nil =>
      simp only [popFirst, Option.map_eq_some_iff, Prod.exists, Prod.mk.injEq] at h
      obtain ⟨y, r, hr, rfl, rfl⟩ := h
      obtain ⟨i, hi, hbefore, hrest⟩ := ih hr
      refine ⟨i + 1, hi, fun j hj => ?_, fun j hj => ?_⟩
      · cases j with
        | zero => rfl
        | succ j => exact hbefore j (Nat.lt_of_succ_lt_succ hj)
      · cases j with
        | zero => rfl
        | succ j => exact hrest j fun heq => hj (congrArg Nat.succ heq)
    | cons y ys =>
      simp only [popFirst, Option.some.injEq, Prod.mk.injEq] at h
      obtain ⟨rfl, rfl⟩ := h
      refine ⟨0, rfl, fun j hj => absurd hj (Nat.not_lt_zero j), fun j hj => ?_⟩
      cases j with
      | zero => exact absurd rfl hj
      | succ j => rfl

theorem popFirst_tail_sublist {ls ls' : List (List α)} {x : α} (h : popFirst ls = some (x, ls')) :
    ls'.tail.flatten.Sublist ls.tail.flatten := by
  cases ls with
  | nil => simp [popFirst] at h
  | cons l ls =>
    cases l with
    | nil =>
      simp only [popFirst, Option.map_eq_some_iff, Prod.exists, Prod.mk.injEq] at h
      obtain ⟨y, r, hr, rfl, rfl⟩ := h
      rw [List.tail_cons, List.tail_cons, popFirst_flatten hr]
      exact List.sublist_cons_self y r.flatten
    | cons y ys =>
      simp only [popFirst, Option.some.injEq, Prod.mk.injEq] at h
      rw [← h.2]
      exact List.Sublist.refl _

structure Levels (α : Type u) (count : Nat) where
  queues : List (List α)
  length_eq : queues.length = count
  size : Nat
  size_eq : size = queues.flatten.length

namespace Levels

variable {count : Nat}

def members (q : Levels α count) : List α := q.queues.flatten

def empty (count : Nat) : Levels α count :=
  ⟨List.replicate count [], by simp, 0, by simp⟩

def push (q : Levels α count) (i : Nat) (h : i < count) (x : α) : Levels α count where
  queues := q.queues.modify i (· ++ [x])
  length_eq := by rw [List.length_modify, q.length_eq]
  size := q.size + 1
  size_eq := by
    rw [(flatten_modify_push q.queues i x (Nat.lt_of_lt_of_eq h q.length_eq.symm)).length_eq, q.size_eq]
    rfl

def pop (q : Levels α count) : Option (α × Levels α count) :=
  match h : popFirst q.queues with
  | none => none
  | some (x, queues) =>
    some (x, {
      queues := queues
      length_eq := (popFirst_length h).trans q.length_eq
      size := q.size - 1
      size_eq := by rw [q.size_eq, popFirst_flatten h, List.length_cons, Nat.add_sub_cancel] })

/-- Removes `x` from level `i` if it is there. -/
def remove [DecidableEq α] (q : Levels α count) (i : Nat) (x : α) : Levels α count where
  queues := q.queues.modify i (·.erase x)
  length_eq := by rw [List.length_modify, q.length_eq]
  size := if x ∈ q.queues.getD i [] then q.size - 1 else q.size
  size_eq := by
    split
    · rename_i h
      rw [q.size_eq, (flatten_modify_erase q.queues i x h).length_eq, List.length_cons,
        Nat.add_sub_cancel]
    · rename_i h
      rw [modify_erase_of_notMem q.queues i x h, q.size_eq]

def collapse (q : Levels α count) (h : 0 < count) : Levels α count where
  queues := q.members :: List.replicate (count - 1) []
  length_eq := by simp only [List.length_cons, List.length_replicate]; omega
  size := q.size
  size_eq := by simp [q.size_eq, members]

@[simp] theorem members_empty : (empty count : Levels α count).members = [] := by
  simp [members, empty]

theorem members_push (q : Levels α count) (i : Nat) (h : i < count) (x : α) :
    (q.push i h x).members.Perm (x :: q.members) :=
  flatten_modify_push q.queues i x (Nat.lt_of_lt_of_eq h q.length_eq.symm)

theorem members_push_zero {q : Levels α count} (h : 0 < count) (x : α)
    (hq : q.queues.tail.flatten = []) : (q.push 0 h x).members = q.members ++ [x] := by
  have hlength := q.length_eq
  show (q.queues.modify 0 (· ++ [x])).flatten = q.queues.flatten ++ [x]
  cases hqueues : q.queues with
  | nil =>
    rw [hqueues, List.length_nil] at hlength
    omega
  | cons l ls =>
    rw [hqueues, List.tail_cons] at hq
    simp only [List.modify_zero_cons, List.flatten_cons, hq, List.append_nil]

theorem tail_push_zero (q : Levels α count) (h : 0 < count) (x : α) :
    (q.push 0 h x).queues.tail = q.queues.tail := by
  show (q.queues.modify 0 (· ++ [x])).tail = q.queues.tail
  cases q.queues <;> rfl

theorem members_remove_of_notMem [DecidableEq α] (q : Levels α count) (i : Nat) {x : α}
    (h : x ∉ q.members) : (q.remove i x).members = q.members := by
  have hi : x ∉ q.queues.getD i [] := by
    intro hx
    rw [List.getD_eq_getElem?_getD] at hx
    cases hg : q.queues[i]? with
    | none => simp [hg] at hx
    | some l =>
      simp only [hg, Option.getD_some] at hx
      exact h (List.mem_flatten_of_mem (List.mem_of_getElem? hg) hx)
  exact congrArg List.flatten (modify_erase_of_notMem q.queues i x hi)

theorem members_remove [DecidableEq α] (q : Levels α count) (i : Nat) (x : α) :
    (q.remove i x).members = q.members ∨ q.members.Perm (x :: (q.remove i x).members) := by
  by_cases h : x ∈ q.queues.getD i []
  · exact .inr (flatten_modify_erase q.queues i x h)
  · exact .inl (congrArg List.flatten (modify_erase_of_notMem q.queues i x h))

theorem length_members_remove [DecidableEq α] (q : Levels α count) (i : Nat) (x : α) :
    (q.remove i x).members.length ≤ q.members.length := by
  rcases q.members_remove i x with h | h
  · exact Nat.le_of_eq (congrArg List.length h)
  · rw [h.length_eq, List.length_cons]
    exact Nat.le_succ _

theorem mem_remove_of_ne [DecidableEq α] {q : Levels α count} {i : Nat} {x y : α} (hne : y ≠ x)
    (hy : y ∈ q.members) : y ∈ (q.remove i x).members := by
  rcases q.members_remove i x with h | h
  · exact h ▸ hy
  · exact (List.mem_cons.mp (h.mem_iff.mp hy)).resolve_left hne

@[simp] theorem members_collapse (q : Levels α count) (h : 0 < count) :
    (q.collapse h).members = q.members := by simp [members, collapse]

theorem pop_queues {q q' : Levels α count} {x : α} (h : q.pop = some (x, q')) :
    popFirst q.queues = some (x, q'.queues) := by
  unfold pop at h
  split at h
  · simp at h
  · rename_i y queues hp
    simp only [Option.some.injEq, Prod.mk.injEq] at h
    obtain ⟨rfl, rfl⟩ := h
    exact hp

theorem pop_members {q q' : Levels α count} {x : α} (h : q.pop = some (x, q')) :
    q.members = x :: q'.members := popFirst_flatten (pop_queues h)

def level (q : Levels α count) (i : Nat) : List α := q.queues.getD i []

theorem mem_members {q : Levels α count} {x : α} : x ∈ q.members ↔ ∃ i, x ∈ q.level i := by
  rw [members, List.mem_flatten]
  constructor
  · rintro ⟨l, hl, hx⟩
    obtain ⟨i, hi, rfl⟩ := List.getElem_of_mem hl
    refine ⟨i, ?_⟩
    rwa [level, List.getD_eq_getElem _ _ hi]
  · rintro ⟨i, hx⟩
    have hi : i < q.queues.length := by
      by_contra hle
      rw [level, List.getD_eq_default _ _ (Nat.le_of_not_lt hle)] at hx
      exact List.not_mem_nil hx
    rw [level, List.getD_eq_getElem _ _ hi] at hx
    exact ⟨_, List.getElem_mem hi, hx⟩

theorem mem_members_of_level {q : Levels α count} {i : Nat} {x : α} (h : x ∈ q.level i) :
    x ∈ q.members := mem_members.mpr ⟨i, h⟩

@[simp] theorem level_empty (i : Nat) : (empty count : Levels α count).level i = [] := by
  unfold level empty
  rcases Nat.lt_or_ge i count with hi | hi
  · rw [List.getD_eq_getElem _ _ (by simpa using hi), List.getElem_replicate]
  · rw [List.getD_eq_default _ _ (by simpa using hi)]

theorem level_outside (q : Levels α count) {i : Nat} (hi : count ≤ i) : q.level i = [] :=
  List.getD_eq_default _ _ (Nat.le_trans (Nat.le_of_eq q.length_eq) hi)

theorem members_eq_flatMap (q : Levels α count) : q.members = (List.range count).flatMap q.level := by
  have hqueues : q.queues = (List.range count).map q.level := by
    refine List.ext_getElem (by simp [q.length_eq]) fun i hi _ => ?_
    rw [List.getElem_map, List.getElem_range, level, List.getD_eq_getElem _ _ hi]
  rw [members, List.flatMap_def, ← hqueues]

theorem level_modify (q : Levels α count) (f : List α → List α) {i : Nat} (hi : i < count) (j : Nat) :
    (q.queues.modify i f).getD j [] = if j = i then f (q.level i) else q.level j := by
  rw [List.getD_eq_getElem?_getD, List.getElem?_modify, level, level, List.getD_eq_getElem?_getD,
    List.getD_eq_getElem?_getD]
  rcases eq_or_ne j i with rfl | hne
  · have hj : j < q.queues.length := q.length_eq.symm ▸ hi
    rw [List.getElem?_eq_getElem hj]
    simp
  · simp [hne, Ne.symm hne]

theorem level_push (q : Levels α count) {i : Nat} (hi : i < count) (x : α) (j : Nat) :
    (q.push i hi x).level j = if j = i then q.level i ++ [x] else q.level j :=
  q.level_modify (· ++ [x]) hi j

theorem level_push_eq_update (q : Levels α count) {i : Nat} (hi : i < count) (x : α) :
    (q.push i hi x).level = Function.update q.level i (q.level i ++ [x]) := by
  funext j
  rw [q.level_push hi, Function.update_apply]

theorem level_remove_eq_update [DecidableEq α] (q : Levels α count) {i : Nat} (hi : i < count)
    (x : α) : (q.remove i x).level = Function.update q.level i ((q.level i).erase x) := by
  funext j
  rw [Function.update_apply]
  exact q.level_modify (·.erase x) hi j

theorem level_remove_of_notMem [DecidableEq α] (q : Levels α count) (i : Nat) {x : α}
    (h : x ∉ q.members) (j : Nat) : (q.remove i x).level j = q.level j := by
  have hi : x ∉ q.queues.getD i [] := fun hx => h (mem_members_of_level hx)
  exact congrArg (List.getD · j []) (modify_erase_of_notMem q.queues i x hi)

theorem level_collapse (q : Levels α count) (h : 0 < count) (i : Nat) :
    (q.collapse h).level i = if i = 0 then q.members else [] := by
  cases i with
  | zero => rfl
  | succ i =>
    show (List.replicate (count - 1) []).getD i [] = []
    rcases Nat.lt_or_ge i (count - 1) with hi | hi
    · rw [List.getD_eq_getElem _ _ (by simpa using hi), List.getElem_replicate]
    · rw [List.getD_eq_default _ _ (by simpa using hi)]

theorem pop_level {q q' : Levels α count} {x : α} (h : q.pop = some (x, q')) :
    ∃ i, q.level i = x :: q'.level i ∧ (∀ j < i, q.level j = []) ∧
      ∀ j, j ≠ i → q'.level j = q.level j := popFirst_getD (pop_queues h)

theorem pop_eq_none {q : Levels α count} : q.pop = none ↔ q.members = [] := by
  rw [members, ← popFirst_eq_none]
  unfold pop
  split
  · simp_all
  · simp_all

end Levels
end OsLab
