import Mathlib.Data.List.Sort
import Mathlib.Data.Multiset.Basic

/-! Singly linked lists with a `size` counter kept by hand. The counter is part of the
structure together with the proof that it is the length, so no operation can miss an update. -/

namespace OsLab

universe u
variable {α : Type u}

/-- The insertion walk of a sorted list: `x` goes in front of the first element at which
the walk stops, or to the end. -/
def insertBefore (stop : α → Bool) (x : α) : List α → List α
  | [] => [x]
  | y :: ys => if stop y then x :: y :: ys else y :: insertBefore stop x ys

theorem insertBefore_perm (stop : α → Bool) (x : α) (l : List α) :
    (insertBefore stop x l).Perm (x :: l) := by
  induction l with
  | nil => exact .refl _
  | cons y ys ih =>
    rw [insertBefore]
    split
    · exact .refl _
    · exact (ih.cons y).trans (.swap x y ys)

@[simp] theorem insertBefore_length (stop : α → Bool) (x : α) (l : List α) :
    (insertBefore stop x l).length = l.length + 1 := (insertBefore_perm stop x l).length_eq

@[simp] theorem mem_insertBefore {stop : α → Bool} {x y : α} {l : List α} :
    y ∈ insertBefore stop x l ↔ y = x ∨ y ∈ l := by
  rw [(insertBefore_perm stop x l).mem_iff, List.mem_cons]

theorem insertBefore_append {stop : α → Bool} {x : α} {before after : List α}
    (hpass : ∀ y ∈ before, stop y = false) :
    insertBefore stop x (before ++ after) = before ++ insertBefore stop x after := by
  induction before with
  | nil => rfl
  | cons y before ih =>
    rw [List.cons_append, insertBefore, hpass y List.mem_cons_self, if_neg Bool.false_ne_true,
      ih fun z hz => hpass z (List.mem_cons_of_mem y hz), List.cons_append]

theorem insertBefore_eq_concat {stop : α → Bool} {x : α} {l : List α}
    (hpass : ∀ y ∈ l, stop y = false) : insertBefore stop x l = l ++ [x] := by
  have happend : insertBefore stop x (l ++ []) = l ++ [x] := insertBefore_append hpass
  rwa [List.append_nil] at happend

theorem insertBefore_eq_takeWhile (stop : α → Bool) (x : α) (l : List α) :
    insertBefore stop x l = l.takeWhile (!stop ·) ++ x :: l.dropWhile (!stop ·) := by
  induction l with
  | nil => rfl
  | cons y l ih =>
    rw [insertBefore, List.takeWhile_cons, List.dropWhile_cons]
    cases hy : stop y with
    | true => rfl
    | false => exact congrArg (y :: ·) ih

/-- The walk keeps any order that it is compatible with: what it passes may precede `x`,
and what it stops at may follow `x`. -/
theorem pairwise_insertBefore {R : α → α → Prop} [IsTrans α R] {stop : α → Bool} {x : α}
    {l : List α} (hpass : ∀ y ∈ l, stop y = false → R y x) (hstop : ∀ y ∈ l, stop y = true → R x y)
    (h : l.Pairwise R) : (insertBefore stop x l).Pairwise R := by
  induction l with
  | nil => simp [insertBefore]
  | cons y ys ih =>
    rw [insertBefore]
    split
    · rename_i hy
      have hxy : R x y := hstop y (List.mem_cons_self ..) hy
      refine List.pairwise_cons.mpr ⟨fun z hz => ?_, h⟩
      rcases List.mem_cons.mp hz with rfl | hz
      · exact hxy
      · exact IsTrans.trans _ _ _ hxy (List.rel_of_pairwise_cons h hz)
    · -- `x` goes somewhere behind `y`, which it passes
      rename_i hy
      have hys : (insertBefore stop x ys).Pairwise R :=
        ih (fun z hz => hpass z (List.mem_cons_of_mem _ hz))
          (fun z hz => hstop z (List.mem_cons_of_mem _ hz)) h.of_cons
      refine List.pairwise_cons.mpr ⟨fun z hz => ?_, hys⟩
      rcases mem_insertBefore.mp hz with rfl | hz
      · exact hpass y (List.mem_cons_self ..) (by simpa using hy)
      · exact List.rel_of_pairwise_cons h hz

structure CountedList (α : Type u) where
  items : List α
  size : Nat
  size_eq : size = items.length

namespace CountedList

@[ext] theorem ext {a b : CountedList α} (h : a.items = b.items) : a = b := by
  obtain ⟨l, n, hn⟩ := a
  obtain ⟨l', n', hn'⟩ := b
  obtain rfl : l = l' := h
  obtain rfl : n = n' := hn.trans hn'.symm
  rfl

def empty : CountedList α := ⟨[], 0, rfl⟩

def pushBack (q : CountedList α) (x : α) : CountedList α :=
  ⟨q.items ++ [x], q.size + 1, by simp [q.size_eq]⟩

def insert (stop : α → Bool) (q : CountedList α) (x : α) : CountedList α :=
  ⟨insertBefore stop x q.items, q.size + 1, by simp [q.size_eq]⟩

def popFront (q : CountedList α) : Option (α × CountedList α) :=
  match h : q.items with
  | [] => none
  | x :: xs => some (x, ⟨xs, q.size - 1, by simp [q.size_eq, h]⟩)

/-- Unlinks the first element that satisfies `p`, if there is one. -/
def removeFirst (p : α → Bool) (q : CountedList α) : CountedList α :=
  ⟨q.items.eraseP p, if q.items.any p then q.size - 1 else q.size, by
    rw [List.length_eraseP, q.size_eq]⟩

@[simp] theorem items_empty : (empty : CountedList α).items = [] := rfl
@[simp] theorem items_pushBack (q : CountedList α) (x : α) :
    (q.pushBack x).items = q.items ++ [x] := rfl
@[simp] theorem items_insert (stop : α → Bool) (q : CountedList α) (x : α) :
    (q.insert stop x).items = insertBefore stop x q.items := rfl
@[simp] theorem items_removeFirst (p : α → Bool) (q : CountedList α) :
    (q.removeFirst p).items = q.items.eraseP p := rfl

theorem popFront_eq_none {q : CountedList α} : q.popFront = none ↔ q.items = [] := by
  unfold popFront
  split <;> simp_all

theorem popFront_eq_some {q q' : CountedList α} {x : α} :
    q.popFront = some (x, q') ↔ q.items = x :: q'.items := by
  unfold popFront
  split
  · rename_i h
    simp [h]
  · rename_i y ys h
    constructor
    · intro he
      simp only [Option.some.injEq, Prod.mk.injEq] at he
      rw [h, ← he.1, ← he.2]
    · intro he
      obtain ⟨rfl, hys⟩ := List.cons.inj (h.symm.trans he)
      simp only [Option.some.injEq, Prod.mk.injEq, true_and]
      exact CountedList.ext hys

theorem size_pos_iff {q : CountedList α} : 0 < q.size ↔ q.items ≠ [] := by
  rw [q.size_eq, List.length_pos_iff]

end CountedList
end OsLab
