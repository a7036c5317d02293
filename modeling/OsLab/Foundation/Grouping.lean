import Mathlib.Data.List.Induction
import Mathlib.Data.List.Nodup
import Mathlib.Data.List.Perm.Subperm

/-! A list cut into groups by a key, in the order in which the keys first appear. -/

namespace OsLab.Grouping

variable {α κ : Type*} [DecidableEq κ] {key : α → κ} {l : List α} {a : α} {k : κ}

def keys (key : α → κ) (l : List α) : List κ := (l.map key).eraseDups

def members (key : α → κ) (k : κ) (l : List α) : List α := l.filter fun a => key a = k

theorem mem_keys : k ∈ keys key l ↔ ∃ a ∈ l, key a = k := by simp [keys]

theorem keys_concat_of_mem (h : key a ∈ keys key l) : keys key (l ++ [a]) = keys key l := by
  have hmem := mem_keys.mp h
  simp [keys, List.eraseDups_append, List.removeAll, hmem]

theorem keys_concat_of_notMem (h : key a ∉ keys key l) :
    keys key (l ++ [a]) = keys key l ++ [key a] := by
  have hmem := mt mem_keys.mpr h
  simp [keys, List.eraseDups_append, List.removeAll, hmem, List.eraseDups_cons]

theorem nodup_keys (key : α → κ) (l : List α) : (keys key l).Nodup := by
  induction l using List.reverseRecOn with
  | nil => exact List.nodup_nil
  | append_singleton l a ih =>
    by_cases h : key a ∈ keys key l
    · rwa [keys_concat_of_mem h]
    · rw [keys_concat_of_notMem h]
      exact ih.append (List.nodup_singleton _) (List.disjoint_singleton.mpr h)

theorem members_concat_self (key : α → κ) (l : List α) (a : α) :
    members key (key a) (l ++ [a]) = members key (key a) l ++ [a] := by simp [members]

theorem members_concat_of_ne (h : key a ≠ k) : members key k (l ++ [a]) = members key k l := by
  simp [members, h]

theorem members_eq_nil (h : k ∉ keys key l) : members key k l = [] := by
  refine List.filter_eq_nil_iff.mpr fun a ha heq => h ?_
  exact mem_keys.mpr ⟨a, ha, of_decide_eq_true heq⟩

theorem members_ne_nil (h : k ∈ keys key l) : members key k l ≠ [] := by
  obtain ⟨a, ha, rfl⟩ := mem_keys.mp h
  exact List.ne_nil_of_mem (List.mem_filter.mpr ⟨ha, decide_eq_true rfl⟩)

theorem length_keys_le (l l' : List α) : (keys key l).length ≤ (keys key (l ++ l')).length := by
  rw [keys, keys, List.map_append, List.eraseDups_append, List.length_append]
  exact Nat.le_add_right _ _

theorem length_members_le (l l' : List α) :
    (members key k l).length ≤ (members key k (l ++ l')).length := by
  rw [members, members, List.filter_append, List.length_append]
  exact Nat.le_add_right _ _

theorem keys_getElem?_inj {i j : Nat} (hi : (keys key l)[i]? = some k)
    (hj : (keys key l)[j]? = some k) : i = j := by
  obtain ⟨hlt, _⟩ := List.getElem?_eq_some_iff.mp hi
  exact (List.getElem?_inj hlt (nodup_keys key l)).mp (hi.trans hj.symm)

end OsLab.Grouping
