import Mathlib.Order.Nat

/-! Tables of file descriptors. `open` takes the lowest number that is free, and a descriptor is
moved to another number by `dup2` and `close`. -/

namespace OsLab

/-- `file fd` is what the descriptor `fd` stands for, if it is open. -/
@[ext]
structure Descriptors (α : Type*) where
  file : ℕ → Option α
  finite : ∃ n, ∀ fd, n ≤ fd → file fd = none

namespace Descriptors

variable {α : Type*} {t : Descriptors α} {fd fd' : ℕ} {x y : α}

def ofList (files : List α) : Descriptors α where
  file fd := files[fd]?
  finite := ⟨files.length, fun _ hfd => List.getElem?_eq_none hfd⟩

def IsOpen (t : Descriptors α) (fd : ℕ) : Prop := (t.file fd).isSome

def update (t : Descriptors α) (fd : ℕ) (x : Option α) : Descriptors α where
  file := Function.update t.file fd x
  finite := by
    obtain ⟨n, hn⟩ := t.finite
    refine ⟨max n (fd + 1), fun k hk => ?_⟩
    have hne : k ≠ fd := (Nat.lt_of_lt_of_le (Nat.lt_succ_self fd) ((Nat.le_max_right ..).trans hk)).ne'
    rw [Function.update_of_ne hne]
    exact hn k ((Nat.le_max_left ..).trans hk)

theorem exists_free (t : Descriptors α) : ∃ fd, (t.file fd).isNone := by
  obtain ⟨n, hn⟩ := t.finite
  exact ⟨n, Option.isNone_iff_eq_none.mpr (hn n le_rfl)⟩

def lowestFree (t : Descriptors α) : ℕ := Nat.find t.exists_free

def allocate (t : Descriptors α) (x : α) : ℕ × Descriptors α :=
  (t.lowestFree, t.update t.lowestFree (some x))

def dup2 (t : Descriptors α) (fd target : ℕ) : Descriptors α := t.update target (t.file fd)

def close (t : Descriptors α) (fd : ℕ) : Descriptors α := t.update fd none

/-- A newly opened file is moved to `target`. -/
def redirect (t : Descriptors α) (target : ℕ) (x : α) : Descriptors α :=
  let (fd, t) := t.allocate x
  (t.dup2 fd target).close fd

@[simp] theorem file_update_self (t : Descriptors α) (fd : ℕ) (x : Option α) :
    (t.update fd x).file fd = x := Function.update_self ..

theorem file_update_of_ne (x : Option α) (h : fd' ≠ fd) :
    (t.update fd x).file fd' = t.file fd' := Function.update_of_ne h ..

theorem update_comm (t : Descriptors α) (x y : Option α) (h : fd ≠ fd') :
    (t.update fd x).update fd' y = (t.update fd' y).update fd x := by
  ext1
  exact Function.update_comm h x y t.file

theorem IsOpen.update (h : t.IsOpen fd) (x : α) : (t.update fd' (some x)).IsOpen fd := by
  rcases eq_or_ne fd fd' with rfl | hne
  · rw [IsOpen, file_update_self]
    rfl
  · rw [IsOpen, file_update_of_ne _ hne]
    exact h

theorem file_lowestFree (t : Descriptors α) : t.file t.lowestFree = none :=
  Option.isNone_iff_eq_none.mp (Nat.find_spec t.exists_free)

theorem IsOpen.ne_lowestFree (h : t.IsOpen fd) : fd ≠ t.lowestFree := by
  rintro rfl
  rw [IsOpen, file_lowestFree] at h
  cases h

theorem redirect_eq (h : t.IsOpen fd) (x : α) : t.redirect fd x = t.update fd (some x) := by
  ext1
  funext k
  have hne := h.ne_lowestFree
  simp only [redirect, allocate, dup2, close, file_update_self]
  rcases eq_or_ne k t.lowestFree with rfl | hk
  · rw [file_update_self, file_update_of_ne _ hne.symm, file_lowestFree]
  · rw [file_update_of_ne _ hk]
    rcases eq_or_ne k fd with rfl | hkfd
    · rw [file_update_self, file_update_self]
    · rw [file_update_of_ne _ hkfd, file_update_of_ne _ hk, file_update_of_ne _ hkfd]

end Descriptors

end OsLab
