import Mathlib.Data.List.MinMax
import OsLab.Foundation.CountedList

/-! Lists kept in the order of a key, where equal keys stay in the order in which they came. -/

namespace OsLab

universe u
variable {α : Type u} {κ : Type*} [LinearOrder κ] {key : α → κ} {sorted source rest : List α}
  {stop : α → Bool} {x : α}

/-- `sorted` is `source` in the order of the key, and equal keys keep their order. -/
structure IsStableSort (key : α → κ) (sorted source : List α) : Prop where
  ordered : sorted.Pairwise fun a b => key a ≤ key b
  ties : ∀ k, sorted.filter (key · = k) = source.filter (key · = k)

def takeMin [DecidableEq α] (key : α → κ) (source : List α) : Option (α × List α) :=
  (source.argmin key).map fun x => (x, source.erase x)

theorem takeMin_perm [DecidableEq α] {r : α × List α} (h : takeMin key source = some r) :
    source.Perm (r.1 :: r.2) := by
  obtain ⟨x, hmin, rfl⟩ := Option.map_eq_some_iff.mp h
  exact List.perm_cons_erase (List.argmin_mem hmin)

theorem filter_insertBefore (hsorted : sorted.Pairwise fun a b => key a ≤ key b)
    (hstop : ∀ y ∈ sorted, stop y = true → key x < key y) (k : κ) :
    (insertBefore stop x sorted).filter (key · = k) = (sorted ++ [x]).filter (key · = k) := by
  induction sorted with
  | nil => rfl
  | cons y sorted ih =>
    rw [insertBefore]
    cases hy : stop y with
    | true =>
      have hlt : ∀ z ∈ y :: sorted, key x < key z := fun z hz => by
        have hxy := hstop y List.mem_cons_self hy
        rcases List.mem_cons.mp hz with rfl | hz
        · exact hxy
        · exact hxy.trans_le (List.rel_of_pairwise_cons hsorted hz)
      rw [if_pos rfl, List.filter_append]
      rcases eq_or_ne (key x) k with rfl | hne
      · have hnone : (y :: sorted).filter (key · = key x) = [] :=
          List.filter_eq_nil_iff.mpr fun z hz => by simpa using (hlt z hz).ne'
        rw [List.filter_cons_of_pos (by simp), hnone, List.filter_cons_of_pos (by simp)]
        rfl
      · rw [List.filter_cons_of_neg (by simpa using hne), List.filter_singleton]
        simp [hne]
    | false =>
      rw [if_neg Bool.false_ne_true, List.cons_append, List.filter_cons, List.filter_cons,
        ih hsorted.of_cons fun z hz => hstop z (List.mem_cons_of_mem y hz)]

namespace IsStableSort

theorem nil (key : α → κ) : IsStableSort key [] [] := ⟨.nil, fun _ => rfl⟩

theorem perm (h : IsStableSort key sorted source) : sorted.Perm source := by
  classical
  refine List.perm_iff_count.mpr fun a => ?_
  have hcount : ∀ l : List α, l.count a = (l.filter (key · = key a)).count a := fun l =>
    (List.count_filter (by simp)).symm
  rw [hcount sorted, hcount source, h.ties]

theorem insert (h : IsStableSort key sorted source)
    (hpass : ∀ y ∈ sorted, stop y = false → key y ≤ key x)
    (hstop : ∀ y ∈ sorted, stop y = true → key x < key y) :
    IsStableSort key (insertBefore stop x sorted) (source ++ [x]) where
  ordered := by
    have : IsTrans α fun a b => key a ≤ key b := ⟨fun _ _ _ => le_trans⟩
    exact pairwise_insertBefore hpass (fun y hy hstopped => (hstop y hy hstopped).le) h.ordered
  ties k := by
    rw [filter_insertBefore h.ordered hstop, List.filter_append, List.filter_append, h.ties]

theorem congr {key' : α → κ} (h : IsStableSort key sorted source)
    (hkey : ∀ a ∈ source, key' a = key a) : IsStableSort key' sorted source where
  ordered := by
    have hmem : ∀ a ∈ sorted, key' a = key a := fun a ha => hkey a (h.perm.subset ha)
    refine h.ordered.imp_of_mem fun ha hb hle => ?_
    rwa [hmem _ ha, hmem _ hb]
  ties k := by
    have hfilter : ∀ l : List α, (∀ a ∈ l, key' a = key a) →
        l.filter (key' · = k) = l.filter (key · = k) := fun l hl =>
      List.filter_congr fun a ha => by rw [hl a ha]
    rw [hfilter source hkey, hfilter sorted fun a ha => hkey a (h.perm.subset ha), h.ties]

theorem exists_split (h : IsStableSort key (x :: rest) source) : ∃ before after,
    source = before ++ x :: after ∧ (∀ a ∈ before, key x < key a) ∧
      (∀ a ∈ after, key x ≤ key a) ∧ IsStableSort key rest (before ++ after) := by
  have hleast : ∀ a ∈ source, key x ≤ key a := fun a ha => by
    rcases List.mem_cons.mp (h.perm.mem_iff.mpr ha) with rfl | ha
    · exact le_rfl
    · exact List.rel_of_pairwise_cons h.ordered ha
  have hties := h.ties (key x)
  rw [List.filter_cons_of_pos (by simp)] at hties
  obtain ⟨before, after, rfl, hbefore, _, hafter⟩ := List.filter_eq_cons_iff.mp hties.symm
  have hne : ∀ a ∈ before, key a ≠ key x := fun a ha => by simpa using hbefore a ha
  refine ⟨before, after, rfl, fun a ha => ?_, fun a ha => ?_, h.ordered.of_cons, fun k => ?_⟩
  · exact (hleast a (List.mem_append_left _ ha)).lt_of_ne' (hne a ha)
  · exact hleast a (List.mem_append_right _ (List.mem_cons_of_mem x ha))
  · rw [List.filter_append]
    rcases eq_or_ne (key x) k with rfl | hk
    · have hnone : before.filter (key · = key x) = [] :=
        List.filter_eq_nil_iff.mpr fun a ha => by simpa using hne a ha
      rw [hnone, List.nil_append, hafter]
    · have hrest := h.ties k
      rwa [List.filter_cons_of_neg (by simpa using hk), List.filter_append,
        List.filter_cons_of_neg (by simpa using hk)] at hrest

theorem takeMin_eq_some [DecidableEq α] (h : IsStableSort key (x :: rest) source) :
    takeMin key source = some (x, source.erase x) ∧ IsStableSort key rest (source.erase x) := by
  obtain ⟨before, after, rfl, hbefore, hafter, hrest⟩ := h.exists_split
  have hnew : x ∉ before := fun hmem => lt_irrefl _ (hbefore x hmem)
  have hmin : (before ++ x :: after).argmin key = some x := by
    refine List.argmin_eq_some_iff.mpr ⟨by simp, fun a ha => ?_, fun a ha hle => ?_⟩
    · rcases List.mem_append.mp ha with ha | ha
      · exact (hbefore a ha).le
      · rcases List.mem_cons.mp ha with rfl | ha
        · exact le_rfl
        · exact hafter a ha
    · have hlate : a ∉ before := fun hmem => (hbefore a hmem).not_ge hle
      rw [List.idxOf_append_of_notMem hnew, List.idxOf_append_of_notMem hlate, List.idxOf_cons_self]
      exact Nat.le_add_right ..
  rw [takeMin, hmin, Option.map_some, List.erase_append_right _ hnew, List.erase_cons_head]
  exact ⟨rfl, hrest⟩

theorem takeMin_eq_none [DecidableEq α] (h : IsStableSort key [] source) :
    takeMin key source = none := by
  rw [List.nil_perm.mp h.perm]
  rfl

end IsStableSort

end OsLab
