import Mathlib.Logic.Equiv.Basic
import Mathlib.Order.Nat
import OsLab.Foundation.SwapRemove

/-! A binary heap in an array. The two sifts keep the order of every parent and child off the entry
that is moving. -/

namespace OsLab.MinHeap

variable {α : Type*}

def parent (i : Nat) : Nat := (i - 1) / 2

def swap (l : List α) (i j : Nat) : List α :=
  match l[i]?, l[j]? with
  | some x, some y => (l.set i y).set j x
  | _, _ => l

def heapifyUp (le : α → α → Bool) : (fuel : Nat) → (index : Nat) → List α → List α
  | 0, _, l => l
  | fuel + 1, index, l =>
    if index = 0 then l
    else
      match l[parent index]?, l[index]? with
      | some p1, some p2 =>
        if le p1 p2 then l
        else heapifyUp le fuel (parent index) (swap l (parent index) index)
      | _, _ => l

/-- `j`, if there is an entry that is less than the one at `i`, else `i`. -/
def lesser (less : α → α → Bool) (l : List α) (i j : Nat) : Nat :=
  match l[j]?, l[i]? with
  | some p1, some p2 => if less p1 p2 then j else i
  | _, _ => i

def smallest (less : α → α → Bool) (l : List α) (index : Nat) : Nat :=
  lesser less l (lesser less l index (2 * index + 1)) (2 * index + 2)

def heapifyDown (less : α → α → Bool) : (fuel : Nat) → (index : Nat) → List α → List α
  | 0, _, l => l
  | fuel + 1, index, l =>
    if smallest less l index = index then l
    else heapifyDown less fuel (smallest less l index) (swap l index (smallest less l index))

def heapInsert (le : α → α → Bool) (l : List α) (x : α) : List α :=
  heapifyUp le l.length l.length (l ++ [x])

def heapExtractMin (less : α → α → Bool) (l : List α) : Option (α × List α) :=
  l.head?.map fun x => (x, heapifyDown less l.length 0 (swapRemove l 0))

section Entries

variable {l : List α} {i j : Nat}

theorem parent_lt (h : 0 < i) : parent i < i := by
  unfold parent
  omega

theorem parent_eq_iff (h : 0 < i) : parent i = j ↔ i = 2 * j + 1 ∨ i = 2 * j + 2 := by
  unfold parent
  omega

theorem swap_eq (hi : i < l.length) (hj : j < l.length) :
    swap l i j = (l.set i l[j]).set j l[i] := by
  simp only [swap, List.getElem?_eq_getElem hi, List.getElem?_eq_getElem hj]

theorem swap_perm (l : List α) (i j : Nat) : (swap l i j).Perm l := by
  by_cases h : i < l.length ∧ j < l.length
  · rw [swap_eq h.1 h.2]
    exact List.set_set_perm h.1 h.2
  · unfold swap
    split
    · rename_i hx hy
      exact absurd ⟨(List.getElem?_eq_some_iff.mp hx).1, (List.getElem?_eq_some_iff.mp hy).1⟩ h
    · exact .refl l

theorem length_swap (l : List α) (i j : Nat) : (swap l i j).length = l.length :=
  (swap_perm l i j).length_eq

theorem getElem?_swap (hi : i < l.length) (hj : j < l.length) (k : Nat) :
    (swap l i j)[k]? = l[Equiv.swap i j k]? := by
  rw [swap_eq hi hj, List.getElem?_set, Equiv.swap_apply_def, List.length_set]
  by_cases hkj : j = k
  · subst hkj
    by_cases hki : j = i
    · subst hki
      simp [hi]
    · simp [hj, hki, List.getElem?_eq_getElem hi]
  · by_cases hki : i = k
    · subst hki
      simp [hkj, hi, List.getElem?_eq_getElem hj]
    · simp [hkj, hki, Ne.symm hkj, Ne.symm hki]

end Entries

structure KeyOrder (le less : α → α → Bool) : Prop where
  total : ∀ a b, le a b = true ∨ le b a = true
  trans : ∀ a b c, le a b = true → le b c = true → le a c = true
  less_iff : ∀ a b, less a b = true ↔ ¬ le b a = true

/-- The entry at `i`, if there is one, is before that at `j`. -/
def Before (le : α → α → Bool) (l : List α) (i j : Nat) : Prop :=
  ∀ x ∈ l[i]?, ∀ y ∈ l[j]?, le x y = true

def IsHeap (le : α → α → Bool) (l : List α) : Prop := ∀ c, 0 < c → Before le l (parent c) c

section Order

variable {le less : α → α → Bool} {l : List α} {i j k : Nat}

theorem KeyOrder.refl (ho : KeyOrder le less) (a : α) : le a a = true := (ho.total a a).elim id id

theorem KeyOrder.before_refl (ho : KeyOrder le less) (l : List α) (i : Nat) : Before le l i i := by
  intro x hx y hy
  obtain rfl := Option.some.inj (hx.symm.trans hy)
  exact ho.refl x

theorem Before.trans (ho : KeyOrder le less) (h : Before le l i j) (h' : Before le l j k)
    (hj : j < l.length) : Before le l i k := fun x hx y hy =>
  have hmid : l[j] ∈ l[j]? := List.getElem?_eq_getElem hj
  ho.trans x l[j] y (h x hx _ hmid) (h' _ hmid y hy)

theorem before_of_le_length (hj : l.length ≤ j) : Before le l i j := fun _ _ y hy => by
  rw [List.getElem?_eq_none hj] at hy
  cases hy

theorem before_swap {a b : Nat} (ha : a < l.length) (hb : b < l.length) :
    Before le (swap l a b) i j ↔ Before le l (Equiv.swap a b i) (Equiv.swap a b j) := by
  rw [Before, Before, getElem?_swap ha hb, getElem?_swap ha hb]

theorem IsHeap.root (ho : KeyOrder le less) (h : IsHeap le l) (c : Nat) (hc : c < l.length) :
    Before le l 0 c := by
  induction c using Nat.strongRecOn with
  | ind c ih =>
    rcases Nat.eq_zero_or_pos c with rfl | hpos
    · exact ho.before_refl l 0
    · have hlt := parent_lt hpos
      exact (ih _ hlt (hlt.trans hc)).trans ho (h c hpos) (hlt.trans hc)

end Order

/-- All are in order but the entry at `i` and its parent. -/
structure UpOrder (le : α → α → Bool) (l : List α) (i : Nat) : Prop where
  except : ∀ c, 0 < c → c ≠ i → Before le l (parent c) c
  grand : 0 < i → ∀ c, 0 < c → parent c = i → Before le l (parent i) c

section Up

variable {le less : α → α → Bool} {l : List α} {i : Nat}

theorem UpOrder.swap (ho : KeyOrder le less) (h : UpOrder le l i) (h0 : 0 < i) (hi : i < l.length)
    (hout : Before le l i (parent i)) : UpOrder le (swap l (parent i) i) (parent i) := by
  have hlt := parent_lt h0
  have hp : parent i < l.length := hlt.trans hi
  have hsib : ∀ c, 0 < c → c ≠ i → parent c = parent i → Before le l i c := fun c hc hne hpar =>
    hout.trans ho (hpar ▸ h.except c hc hne) hp
  refine ⟨fun c hc hne => ?_, fun hpos c hc hpar => ?_⟩
  · rw [before_swap hp hi]
    rcases eq_or_ne c i with rfl | hci
    · rwa [Equiv.swap_apply_left, Equiv.swap_apply_right]
    · rw [Equiv.swap_apply_of_ne_of_ne hne hci]
      rcases eq_or_ne (parent c) (parent i) with hpar | hpar
      · rw [hpar, Equiv.swap_apply_left]
        exact hsib c hc hci hpar
      · rcases eq_or_ne (parent c) i with hpar' | hpar'
        · rw [hpar', Equiv.swap_apply_right]
          exact h.grand h0 c hc hpar'
        · rw [Equiv.swap_apply_of_ne_of_ne hpar hpar']
          exact h.except c hc hci
  · have hgrand := h.except (parent i) hpos hlt.ne
    have hlt' := parent_lt hpos
    rw [before_swap hp hi, Equiv.swap_apply_of_ne_of_ne hlt'.ne (hlt'.trans hlt).ne]
    rcases eq_or_ne c i with rfl | hci
    · rwa [Equiv.swap_apply_right]
    · have hcp : c ≠ parent i := fun heq => (parent_lt hc).ne (hpar.trans heq.symm)
      rw [Equiv.swap_apply_of_ne_of_ne hcp hci]
      exact hgrand.trans ho (hpar ▸ h.except c hc hci) hp

theorem UpOrder.heapifyUp (ho : KeyOrder le less) {fuel : Nat} (h : UpOrder le l i)
    (hi : i < l.length) (hfuel : i ≤ fuel) : IsHeap le (heapifyUp le fuel i l) := by
  induction fuel generalizing l i with
  | zero =>
    obtain rfl := Nat.le_zero.mp hfuel
    exact fun c hc => h.except c hc hc.ne'
  | succ fuel ih =>
    rw [MinHeap.heapifyUp]
    split_ifs with h0
    · exact fun c hc => h.except c hc (h0 ▸ hc.ne')
    · have hpos := Nat.pos_of_ne_zero h0
      have hlt := parent_lt hpos
      have hp : parent i < l.length := hlt.trans hi
      simp only [List.getElem?_eq_getElem hi, List.getElem?_eq_getElem hp]
      split_ifs with hle
      · intro c hc
        rcases eq_or_ne c i with rfl | hci
        · intro x hx y hy
          rw [List.getElem?_eq_getElem hp] at hx
          rw [List.getElem?_eq_getElem hi] at hy
          exact Option.some.inj hx ▸ Option.some.inj hy ▸ hle
        · exact h.except c hc hci
      · have hout : Before le l i (parent i) := fun x hx y hy => by
          rw [List.getElem?_eq_getElem hi] at hx
          rw [List.getElem?_eq_getElem hp] at hy
          exact Option.some.inj hx ▸ Option.some.inj hy ▸ (ho.total _ _).resolve_right hle
        refine ih (h.swap ho hpos hi hout) ?_ (by omega)
        rwa [length_swap]

theorem heapifyUp_perm (fuel i : Nat) (l : List α) : (heapifyUp le fuel i l).Perm l := by
  induction fuel generalizing i l with
  | zero => exact .refl l
  | succ fuel ih =>
    rw [heapifyUp]
    split_ifs
    · exact .refl l
    · split
      · split_ifs
        · exact .refl l
        · exact (ih ..).trans (swap_perm ..)
      · exact .refl l

theorem heapInsert_perm (l : List α) (x : α) : (heapInsert le l x).Perm (x :: l) :=
  (heapifyUp_perm ..).trans (List.perm_append_singleton x l)

theorem IsHeap.heapInsert (ho : KeyOrder le less) (h : IsHeap le l) (x : α) :
    IsHeap le (heapInsert le l x) := by
  have hbefore : ∀ c, 0 < c → c < l.length → Before le (l ++ [x]) (parent c) c := by
    intro c hc hlt
    have hp := (parent_lt hc).trans hlt
    rw [Before, List.getElem?_append_left hlt, List.getElem?_append_left hp]
    exact h c hc
  have hlen : (l ++ [x]).length = l.length + 1 := List.length_append
  refine UpOrder.heapifyUp ho ⟨fun c hc hne => ?_, fun _ c hc hpar => ?_⟩ (by omega) le_rfl
  · rcases Nat.lt_or_ge c l.length with hlt | hge
    · exact hbefore c hc hlt
    · exact before_of_le_length (by omega)
  · have hlt := parent_lt hc
    exact before_of_le_length (by omega)

end Up

/-- All are in order but the entry at `i` and its children. -/
structure DownOrder (le : α → α → Bool) (l : List α) (i : Nat) : Prop where
  except : ∀ c, 0 < c → parent c ≠ i → Before le l (parent c) c
  grand : 0 < i → ∀ c, 0 < c → parent c = i → Before le l (parent i) c

section Down

variable {le less : α → α → Bool} {l : List α} {i j : Nat}

theorem lesser_spec (ho : KeyOrder le less) (hi : i < l.length) :
    (lesser less l i j = i ∨ lesser less l i j = j ∧ j < l.length) ∧
      Before le l (lesser less l i j) i ∧ Before le l (lesser less l i j) j := by
  unfold lesser
  rcases Nat.lt_or_ge j l.length with hj | hj
  · simp only [List.getElem?_eq_getElem hi, List.getElem?_eq_getElem hj]
    split_ifs with hless
    · refine ⟨.inr ⟨rfl, hj⟩, fun x hx y hy => ?_, ho.before_refl l j⟩
      rw [List.getElem?_eq_getElem hj] at hx
      rw [List.getElem?_eq_getElem hi] at hy
      rw [← Option.some.inj hx, ← Option.some.inj hy]
      exact (ho.total _ _).resolve_right ((ho.less_iff _ _).mp hless)
    · refine ⟨.inl rfl, ho.before_refl l i, fun x hx y hy => ?_⟩
      rw [List.getElem?_eq_getElem hi] at hx
      rw [List.getElem?_eq_getElem hj] at hy
      rw [← Option.some.inj hx, ← Option.some.inj hy]
      exact not_not.mp (mt (ho.less_iff _ _).mpr hless)
  · simp only [List.getElem?_eq_none hj]
    exact ⟨.inl trivial, ho.before_refl l i, before_of_le_length hj⟩

theorem smallest_spec (ho : KeyOrder le less) (hi : i < l.length) :
    (smallest less l i = i ∨ 0 < smallest less l i ∧ parent (smallest less l i) = i) ∧
      smallest less l i < l.length ∧ Before le l (smallest less l i) i ∧
        ∀ c, 0 < c → parent c = i → Before le l (smallest less l i) c := by
  unfold smallest
  obtain ⟨hleft, hself, hl⟩ := lesser_spec (j := 2 * i + 1) ho hi
  have hlen : lesser less l i (2 * i + 1) < l.length := by
    rcases hleft with heq | ⟨heq, hlt⟩ <;> omega
  obtain ⟨hright, hm, hr⟩ := lesser_spec (j := 2 * i + 2) ho hlen
  refine ⟨?_, ?_, hm.trans ho hself hlen, fun c hc hpar => ?_⟩
  · rcases hright with heq | ⟨heq, _⟩
    · rw [heq]
      rcases hleft with heq' | ⟨heq', _⟩
      · exact .inl heq'
      · rw [heq']
        exact .inr ⟨Nat.succ_pos _, (parent_eq_iff (Nat.succ_pos _)).mpr (.inl rfl)⟩
    · rw [heq]
      exact .inr ⟨Nat.succ_pos _, (parent_eq_iff (Nat.succ_pos _)).mpr (.inr rfl)⟩
  · rcases hright with heq | ⟨heq, hlt⟩ <;> omega
  · rcases (parent_eq_iff hc).mp hpar with rfl | rfl
    · exact hm.trans ho hl hlen
    · exact hr

theorem DownOrder.swap {m : Nat} (h : DownOrder le l i) (hi : i < l.length) (hm : m < l.length)
    (hpos : 0 < m) (hpar : parent m = i) (hself : Before le l m i)
    (hchild : ∀ c, 0 < c → parent c = i → Before le l m c) : DownOrder le (swap l i m) m := by
  have hlt : i < m := hpar ▸ parent_lt hpos
  refine ⟨fun c hc hne => ?_, fun _ c hc hcm => ?_⟩
  · rw [before_swap hi hm]
    rcases eq_or_ne c m with rfl | hcm
    · rwa [hpar, Equiv.swap_apply_left, Equiv.swap_apply_right]
    · rcases eq_or_ne (parent c) i with hci | hci
      · have hci' : c ≠ i := fun heq => (parent_lt hc).ne (hci.trans heq.symm)
        rw [hci, Equiv.swap_apply_left, Equiv.swap_apply_of_ne_of_ne hci' hcm]
        exact hchild c hc hci
      · rw [Equiv.swap_apply_of_ne_of_ne hci hne]
        rcases eq_or_ne c i with rfl | hci'
        · rw [Equiv.swap_apply_left]
          exact h.grand hc m hpos hpar
        · rw [Equiv.swap_apply_of_ne_of_ne hci' hcm]
          exact h.except c hc hci
  · have hmc : m < c := hcm ▸ parent_lt hc
    rw [before_swap hi hm, hpar, Equiv.swap_apply_left,
      Equiv.swap_apply_of_ne_of_ne (hlt.trans hmc).ne' hmc.ne', ← hcm]
    exact h.except c hc (hcm ▸ hlt.ne')

theorem DownOrder.isHeap (h : DownOrder le l i)
    (hchild : ∀ c, 0 < c → parent c = i → Before le l i c) : IsHeap le l := fun c hc => by
  rcases eq_or_ne (parent c) i with hpar | hpar
  · exact hpar ▸ hchild c hc hpar
  · exact h.except c hc hpar

theorem DownOrder.heapifyDown (ho : KeyOrder le less) {fuel : Nat} (h : DownOrder le l i)
    (hi : i < l.length) (hfuel : l.length ≤ i + fuel) : IsHeap le (heapifyDown less fuel i l) := by
  induction fuel generalizing l i with
  | zero => omega
  | succ fuel ih =>
    obtain ⟨hcases, hm, hself, hchild⟩ := smallest_spec ho hi
    rw [MinHeap.heapifyDown]
    split_ifs with hstop
    · rw [hstop] at hchild
      exact h.isHeap hchild
    · obtain ⟨hpos, hpar⟩ := hcases.resolve_left hstop
      have hlt : i < smallest less l i := hpar.symm.trans_lt (parent_lt hpos)
      have hlen := length_swap l i (smallest less l i)
      exact ih (h.swap hi hm hpos hpar hself hchild) (hlen ▸ hm) (by omega)

theorem heapifyDown_perm (fuel i : Nat) (l : List α) : (heapifyDown less fuel i l).Perm l := by
  induction fuel generalizing i l with
  | zero => exact .refl l
  | succ fuel ih =>
    rw [heapifyDown]
    split_ifs
    · exact .refl l
    · exact (ih ..).trans (swap_perm ..)

theorem heapExtractMin_perm {x : α} {rest : List α}
    (hx : heapExtractMin less l = some (x, rest)) : l.Perm (x :: rest) := by
  obtain ⟨x', hhead, heq⟩ := Option.map_eq_some_iff.mp hx
  obtain ⟨rfl, rfl⟩ := Prod.mk.inj heq
  rw [List.head?_eq_getElem?] at hhead
  exact (perm_swapRemove hhead).trans ((heapifyDown_perm ..).symm.cons _)

theorem heapExtractMin_eq_none : heapExtractMin less l = none ↔ l = [] := by
  rw [heapExtractMin, Option.map_eq_none_iff, List.head?_eq_none_iff]

theorem IsHeap.heapExtractMin (ho : KeyOrder le less) (h : IsHeap le l) {x : α} {rest : List α}
    (hx : heapExtractMin less l = some (x, rest)) :
    IsHeap le rest ∧ l.Perm (x :: rest) ∧ ∀ y ∈ l, le x y = true := by
  obtain ⟨x', hhead, heq⟩ := Option.map_eq_some_iff.mp hx
  obtain ⟨rfl, rfl⟩ := Prod.mk.inj heq
  have hzero : l[0]? = some x' := by rw [← List.head?_eq_getElem?, hhead]
  have hperm := perm_swapRemove hzero
  have hlen := hperm.length_eq
  rw [List.length_cons] at hlen
  refine ⟨?_, hperm.trans ((heapifyDown_perm ..).symm.cons _), fun y hy => ?_⟩
  · have hsame : ∀ k, 0 < k → ∀ y ∈ (swapRemove l 0)[k]?, y ∈ l[k]? := by
      intro k hk y hy
      obtain ⟨init, last, rfl, ⟨_, hswap⟩ | ⟨hnil, hswap⟩⟩ :=
        swapRemove_cases (List.getElem?_eq_some_iff.mp hzero).1
      · rw [hswap, List.getElem?_set_ne hk.ne] at hy
        rwa [List.getElem?_append_left (List.getElem?_eq_some_iff.mp hy).1]
      · rw [hswap, List.eq_nil_of_length_eq_zero hnil.symm] at hy
        cases hy
    have hdown : DownOrder le (swapRemove l 0) 0 := by
      refine ⟨fun c hc hpar x hx y hy => ?_, fun h0 => absurd h0 (Nat.lt_irrefl 0)⟩
      exact h c hc x (hsame _ (Nat.pos_of_ne_zero hpar) x hx) y (hsame c hc y hy)
    rcases Nat.eq_zero_or_pos (swapRemove l 0).length with hnil | hpos
    · intro c hc
      refine before_of_le_length ?_
      rw [(heapifyDown_perm ..).length_eq, hnil]
      exact Nat.zero_le c
    · exact hdown.heapifyDown ho hpos (by omega)
  · obtain ⟨c, hc, rfl⟩ := List.getElem_of_mem hy
    exact h.root ho c hc x' hzero _ (List.getElem?_eq_getElem hc)

end Down

end OsLab.MinHeap
