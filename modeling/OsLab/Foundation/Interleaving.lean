import Mathlib.Algebra.BigOperators.Group.Finset.Basic
import Mathlib.Data.Fintype.BigOperators
import Mathlib.Data.Fintype.Order
import Mathlib.Logic.Relation

/-! Interleavings of parties that share a state: at every step some party that can move moves.
With it, the sum over a family in which one entry changes, and the rule that resources taken in
increasing order are never waited for in a circle. -/

namespace OsLab.Interleaving

variable {σ ι : Type*}

/-- `s'` is reached from `s` by steps of parties in some order. -/
def Reaches (step : σ → ι → Option σ) : σ → σ → Prop :=
  Relation.ReflTransGen fun s s' => ∃ i, step s i = some s'

/-- The steps of `step` that meet the condition. -/
def guarded (ok : σ → ι → Prop) [∀ s i, Decidable (ok s i)] (step : σ → ι → Option σ) :
    σ → ι → Option σ := fun s i => if ok s i then step s i else none

def runSchedule (step : σ → ι → Option σ) : List ι → σ → Option σ
  | [], s => some s
  | i :: is, s => (step s i).bind (runSchedule step is)

theorem guarded_eq_some {ok : σ → ι → Prop} [∀ s i, Decidable (ok s i)]
    {step : σ → ι → Option σ} {s s' : σ} {i : ι} :
    guarded ok step s i = some s' ↔ ok s i ∧ step s i = some s' := by
  unfold guarded
  split_ifs with h <;> simp [h]

theorem Reaches.of_guarded {ok : σ → ι → Prop} [∀ s i, Decidable (ok s i)]
    {step : σ → ι → Option σ} {s s' : σ} (h : Reaches (guarded ok step) s s') :
    Reaches step s s' :=
  Relation.ReflTransGen.mono (fun _ _ ⟨i, hi⟩ => ⟨i, (guarded_eq_some.mp hi).2⟩) _ _ h

theorem Reaches.invariant {step : σ → ι → Option σ} (inv : σ → Prop) {s s' : σ}
    (hstep : ∀ a i b, step a i = some b → inv a → inv b) (h : Reaches step s s') (hs : inv s) :
    inv s' := by
  induction h with
  | refl => exact hs
  | tail _ hb ih => exact hstep _ _ _ hb.choose_spec ih

theorem reaches_of_runSchedule {step : σ → ι → Option σ} {is : List ι} {s s' : σ}
    (h : runSchedule step is s = some s') : Reaches step s s' := by
  induction is generalizing s with
  | nil => exact Option.some.inj h ▸ .refl
  | cons i is ih =>
    obtain ⟨t, ht, hrest⟩ := Option.bind_eq_some_iff.mp h
    exact .head ⟨i, ht⟩ (ih hrest)

theorem exists_reaches_of_decreasing {step : σ → ι → Option σ} (inv goal : σ → Prop)
    (measure : σ → Nat) (hcloser : ∀ s, inv s → ¬ goal s →
      ∃ s', Reaches step s s' ∧ inv s' ∧ measure s' < measure s) {s : σ} (hs : inv s) :
    ∃ s', Reaches step s s' ∧ inv s' ∧ goal s' := by
  induction hm : measure s using Nat.strong_induction_on generalizing s with
  | _ m ih =>
    by_cases hgoal : goal s
    · exact ⟨s, .refl, hs, hgoal⟩
    · obtain ⟨s₁, hreach₁, hinv₁, hlt⟩ := hcloser s hs hgoal
      obtain ⟨s₂, hreach₂, hinv₂, hgoal₂⟩ := ih _ (hm ▸ hlt) hinv₁ rfl
      exact ⟨s₂, hreach₁.trans hreach₂, hinv₂, hgoal₂⟩

/-- If every part can be brought from `P` to `Q` while the others stay as they are, then all parts
can be, one after the other. -/
theorem exists_reaches_each {κ τ : Type*} [Fintype κ] [DecidableEq κ] {step : σ → ι → Option σ}
    (inv : σ → Prop) (view : σ → κ → τ) (P Q : κ → τ → Prop)
    (hone : ∀ s k, inv s → P k (view s k) →
      ∃ s', Reaches step s s' ∧ inv s' ∧ Q k (view s' k) ∧ ∀ j, j ≠ k → view s' j = view s j)
    {s : σ} (hs : inv s) (hP : ∀ k, P k (view s k)) :
    ∃ s', Reaches step s s' ∧ inv s' ∧ ∀ k, Q k (view s' k) := by
  -- by induction on the parts that have been brought to `Q` already
  have hsome : ∀ A : Finset κ, ∃ s', Reaches step s s' ∧ inv s' ∧ (∀ k ∈ A, Q k (view s' k)) ∧
      ∀ k ∉ A, view s' k = view s k := by
    intro A
    induction A using Finset.induction_on with
    | empty => exact ⟨s, .refl, hs, fun k hk => absurd hk (Finset.notMem_empty k), fun _ _ => rfl⟩
    | insert k A hk ih =>
      obtain ⟨s₁, hreach₁, hinv₁, hdone, hrest⟩ := ih
      obtain ⟨s₂, hreach₂, hinv₂, hQ, hothers⟩ := hone s₁ k hinv₁ (hrest k hk ▸ hP k)
      refine ⟨s₂, hreach₁.trans hreach₂, hinv₂, fun j hj => ?_, fun j hj => ?_⟩
      · rcases eq_or_ne j k with rfl | hne
        · exact hQ
        · rw [hothers j hne]
          exact hdone j (Finset.mem_of_mem_insert_of_ne hj hne)
      · rw [Finset.mem_insert, not_or] at hj
        rw [hothers j hj.1, hrest j hj.2]
  obtain ⟨s', hreach, hinv, hdone, _⟩ := hsome Finset.univ
  exact ⟨s', hreach, hinv, fun k => hdone k (Finset.mem_univ k)⟩

/-- If a part can be brought past its next item while the others stay as they are, then all parts
can be brought past theirs in any order. `inv` is told the items still to come. -/
theorem exists_reaches_order {κ ε τ : Type*} [DecidableEq κ] {step : σ → ι → Option σ}
    (inv : List (κ × ε) → σ → Prop) (view : σ → κ → τ) (P : κ → List ε → τ → Prop)
    (hone : ∀ k e order s, inv ((k, e) :: order) s →
      P k (e :: (order.filter fun e => e.1 = k).map Prod.snd) (view s k) →
      ∃ s', Reaches step s s' ∧ inv order s' ∧
        P k ((order.filter fun e => e.1 = k).map Prod.snd) (view s' k) ∧
        ∀ j, j ≠ k → view s' j = view s j)
    {order : List (κ × ε)} {s : σ} (hs : inv order s)
    (hown : ∀ k, P k ((order.filter fun e => e.1 = k).map Prod.snd) (view s k)) :
    ∃ s', Reaches step s s' ∧ inv [] s' ∧ ∀ k, P k [] (view s' k) := by
  induction order generalizing s with
  | nil => exact ⟨s, .refl, hs, hown⟩
  | cons e order ih =>
    obtain ⟨k, e⟩ := e
    have hturn := hown k
    rw [List.filter_cons_of_pos (by simp), List.map_cons] at hturn
    obtain ⟨s₁, hreach₁, hinv₁, hnext, hothers⟩ := hone k e order s hs hturn
    have hown₁ : ∀ j, P j ((order.filter fun e => e.1 = j).map Prod.snd) (view s₁ j) := by
      intro j
      rcases eq_or_ne j k with rfl | hj
      · exact hnext
      · have hother := hown j
        rw [List.filter_cons_of_neg (by simpa using hj.symm)] at hother
        exact hothers j hj ▸ hother
    obtain ⟨s₂, hreach₂, hinv₂, hdone⟩ := ih hinv₁ hown₁
    exact ⟨s₂, hreach₁.trans hreach₂, hinv₂, hdone⟩

def trace {α : Type*} (label : σ → ι → Option α) (step : σ → ι → Option σ) :
    List ι → σ → List α
  | [], _ => []
  | i :: is, s =>
    match step s i with
    | none => []
    | some s' => (label s i).toList ++ trace label step is s'

theorem trace_invariant {α : Type*} {label : σ → ι → Option α} {step : σ → ι → Option σ}
    (inv : σ → List α → Prop)
    (hstep : ∀ a l i b, step a i = some b → inv a l → inv b (l ++ (label a i).toList))
    {is : List ι} {s s' : σ} (h : runSchedule step is s = some s') (hs : inv s []) :
    inv s' (trace label step is s) := by
  have hgo : ∀ (is : List ι) (s : σ) (l : List α), runSchedule step is s = some s' → inv s l →
      inv s' (l ++ trace label step is s) := by
    intro is
    induction is with
    | nil =>
      intro s l h hs
      rw [trace, List.append_nil]
      exact Option.some.inj h ▸ hs
    | cons i is ih =>
      intro s l h hs
      obtain ⟨t, ht, hrest⟩ := Option.bind_eq_some_iff.mp h
      simp only [trace, ht]
      rw [← List.append_assoc]
      exact ih t _ hrest (hstep s l i t ht hs)
  exact hgo is s [] h hs

theorem exists_schedule_of_guarded {α : Type*} (label : σ → ι → Option α) {ok : σ → ι → Prop}
    [∀ s i, Decidable (ok s i)] {step : σ → ι → Option σ} {s s' : σ}
    (hlabel : ∀ a i, ok a i → label a i = none) (h : Reaches (guarded ok step) s s') :
    ∃ is, runSchedule step is s = some s' ∧ trace label step is s = [] := by
  induction h using Relation.ReflTransGen.head_induction_on with
  | refl => exact ⟨[], rfl, rfl⟩
  | head hab _ ih =>
    obtain ⟨i, hi⟩ := hab
    obtain ⟨hok, hstep⟩ := guarded_eq_some.mp hi
    obtain ⟨is, hrun, hnone⟩ := ih
    refine ⟨i :: is, ?_, ?_⟩
    · rw [runSchedule, hstep]
      exact hrun
    · rw [trace, hstep]
      simp only [hlabel _ _ hok, hnone, Option.toList_none, List.append_nil]

theorem trace_eq_nil {α : Type*} {label : σ → ι → Option α} {step : σ → ι → Option σ} {s' : σ}
    (inv : σ → Prop) (hstep : ∀ a i b, step a i = some b → inv a → inv b)
    (hlabel : ∀ a i b, step a i = some b → inv b → Reaches step b s' → label a i = none)
    {is : List ι} {s : σ} (h : runSchedule step is s = some s') (hs : inv s) :
    trace label step is s = [] := by
  induction is generalizing s with
  | nil => rfl
  | cons i is ih =>
    obtain ⟨t, ht, hrest⟩ := Option.bind_eq_some_iff.mp h
    have hinv := hstep s i t ht hs
    rw [trace, ht]
    simp only [hlabel s i t ht hinv (reaches_of_runSchedule hrest), ih hrest hinv,
      Option.toList_none, List.append_nil]

def states (step : σ → ι → Option σ) : List ι → σ → List σ
  | [], s => [s]
  | i :: is, s => s :: (step s i).elim [] (states step is)

theorem mem_states (step : σ → ι → Option σ) (is : List ι) (s : σ) : s ∈ states step is s := by
  cases is <;> exact List.mem_cons_self

theorem exists_prefix_of_mem_states {step : σ → ι → Option σ} {is : List ι} {s u : σ}
    (hu : u ∈ states step is s) : ∃ before, runSchedule step before s = some u := by
  induction is generalizing s with
  | nil => exact ⟨[], congrArg some (List.mem_singleton.mp hu).symm⟩
  | cons i is ih =>
    rcases List.mem_cons.mp hu with rfl | hu
    · exact ⟨[], rfl⟩
    · cases ht : step s i with
      | none =>
        rw [ht, Option.elim_none] at hu
        exact absurd hu List.not_mem_nil
      | some t =>
        rw [ht, Option.elim_some] at hu
        obtain ⟨before, hbefore⟩ := ih hu
        exact ⟨i :: before, by rw [runSchedule, ht, Option.bind_some, hbefore]⟩

theorem isGreatest_peak {β : Type*} [LinearOrder β] {step : σ → ι → Option σ} (f peak : σ → β)
    (inv : σ → Prop) (hinv : ∀ a i b, step a i = some b → inv a → inv b)
    (hstep : ∀ a i b, step a i = some b → inv a → f a ≤ peak a → peak b = max (peak a) (f b))
    {is : List ι} {s s' : σ} (h : runSchedule step is s = some s') (hs : inv s)
    (hstart : peak s = f s) : IsGreatest {x | ∃ u ∈ states step is s, f u = x} (peak s') := by
  -- by induction on the run, with a peak so far that may lie before it
  have hgo : ∀ (is : List ι) (s : σ), runSchedule step is s = some s' → inv s → f s ≤ peak s →
      (∀ u ∈ states step is s, f u ≤ peak s') ∧ peak s ≤ peak s' ∧
        (peak s' = peak s ∨ ∃ u ∈ states step is s, f u = peak s') := by
    intro is
    induction is with
    | nil =>
      intro s h _ hle
      obtain rfl := Option.some.inj h
      exact ⟨fun u hu => List.mem_singleton.mp hu ▸ hle, le_rfl, .inl rfl⟩
    | cons i is ih =>
      intro s h hs hle
      obtain ⟨t, ht, hrest⟩ := Option.bind_eq_some_iff.mp h
      have hpeak := hstep s i t ht hs hle
      obtain ⟨hall, hgrows, hsome⟩ := ih t hrest (hinv s i t ht hs) (hpeak ▸ le_max_right _ _)
      have hlast : peak s ≤ peak s' := (le_max_left _ _).trans (hpeak.ge.trans hgrows)
      have hstates : states step (i :: is) s = s :: states step is t := by
        rw [states, ht, Option.elim_some]
      rw [hstates]
      refine ⟨List.forall_mem_cons.mpr ⟨hle.trans hlast, hall⟩, hlast, ?_⟩
      rcases hsome with heq | ⟨u, hu, hu'⟩
      · rw [heq, hpeak]
        rcases max_choice (peak s) (f t) with hmax | hmax
        · exact .inl hmax
        · exact .inr ⟨t, List.mem_cons_of_mem _ (mem_states step is t), hmax.symm⟩
      · exact .inr ⟨u, List.mem_cons_of_mem _ hu, hu'⟩
  obtain ⟨hall, -, hsome⟩ := hgo is s h hs hstart.ge
  refine ⟨?_, fun x ⟨u, hu, hx⟩ => hx ▸ hall u hu⟩
  rcases hsome with heq | hsome
  · exact ⟨s, mem_states step is s, (heq.trans hstart).symm⟩
  · exact hsome

/-- The states that the run comes to meet `P`, which is told the labels so far; `labels` are those
from before. -/
def Always {α : Type*} (P : σ → List α → Prop) (label : σ → ι → Option α) (step : σ → ι → Option σ) :
    List ι → σ → List α → Prop
  | [], s, labels => P s labels
  | i :: is, s, labels =>
    P s labels ∧ ∀ s' ∈ step s i, Always P label step is s' (labels ++ (label s i).toList)

/-- The steps of the run meet `ok` in the states in which they are made. -/
def EachStep (ok : σ → ι → Prop) (step : σ → ι → Option σ) : List ι → σ → Prop
  | [], _ => True
  | i :: is, s => ∀ s' ∈ step s i, ok s i ∧ EachStep ok step is s'

theorem Always.final {α : Type*} {P : σ → List α → Prop} {label : σ → ι → Option α}
    {step : σ → ι → Option σ} {is : List ι} {s s' : σ} {labels : List α}
    (h : Always P label step is s labels) (hrun : runSchedule step is s = some s') :
    P s' (labels ++ trace label step is s) := by
  induction is generalizing s labels with
  | nil =>
    rw [trace, List.append_nil]
    exact Option.some.inj hrun ▸ h
  | cons i is ih =>
    obtain ⟨t, ht, hrest⟩ := Option.bind_eq_some_iff.mp hrun
    simp only [trace, ht]
    rw [← List.append_assoc]
    exact ih (h.2 t ht) hrest

/-- If exactly the steps that meet `ok` keep `P`, then `P` holds along a run if and only if it holds
at the start and all steps meet `ok`. -/
theorem always_iff_eachStep {α : Type*} {P : σ → List α → Prop} {ok : σ → ι → Prop}
    {label : σ → ι → Option α} {step : σ → ι → Option σ} (inv : σ → Prop)
    (hinv : ∀ a i b, step a i = some b → inv a → inv b)
    (hstep : ∀ a labels i b, step a i = some b → inv a → P a labels →
      (P b (labels ++ (label a i).toList) ↔ ok a i))
    {is : List ι} {s : σ} {labels : List α} (hs : inv s) :
    Always P label step is s labels ↔ P s labels ∧ EachStep ok step is s := by
  induction is generalizing s labels with
  | nil => rw [Always, EachStep, and_true]
  | cons i is ih =>
    rw [Always, EachStep]
    refine and_congr_right fun hP => forall_congr' fun s' => forall_congr' fun hs' => ?_
    rw [ih (hinv s i s' hs' hs), hstep s labels i s' hs' hs hP]

theorem eachStep_of_invariant {ok : σ → ι → Prop} {step : σ → ι → Option σ} (inv : σ → Prop)
    (hstep : ∀ a i b, step a i = some b → inv a → ok a i ∧ inv b) {is : List ι} {s : σ}
    (hs : inv s) : EachStep ok step is s := by
  induction is generalizing s with
  | nil => trivial
  | cons i is ih =>
    intro s' hs'
    obtain ⟨hok, hinv⟩ := hstep s i s' hs' hs
    exact ⟨hok, ih hinv⟩

theorem EachStep.run_eq {α : Type*} {ok : σ → ι → Prop} {step step' : σ → ι → Option σ}
    (inv : σ → Prop) (hinv : ∀ a i b, step a i = some b → inv a → inv b)
    (hstep : ∀ a i, inv a → (∀ b ∈ step a i, ok a i) → step a i = step' a i)
    (label : σ → ι → Option α) {is : List ι} {s : σ} (h : EachStep ok step is s) (hs : inv s) :
    runSchedule step is s = runSchedule step' is s ∧
      trace label step is s = trace label step' is s ∧ states step is s = states step' is s := by
  induction is generalizing s with
  | nil => exact ⟨rfl, rfl, rfl⟩
  | cons i is ih =>
    have hsame : step s i = step' s i := hstep s i hs fun b hb => (h b hb).1
    simp only [runSchedule, trace, states, ← hsame]
    cases hb : step s i with
    | none => exact ⟨rfl, rfl, rfl⟩
    | some b =>
      obtain ⟨hrun, htrace, hstates⟩ := ih (h b hb).2 (hinv s i b hb hs)
      simp only [Option.bind_some, Option.elim_some]
      exact ⟨hrun, by rw [htrace], by rw [hstates]⟩

theorem sum_update {α M : Type*} [Fintype ι] [DecidableEq ι] [AddCommMonoid M] (f : α → M)
    (x : ι → α) (i : ι) (a : α) :
    ∑ j, f (Function.update x i a j) + f (x i) = ∑ j, f (x j) + f a := by
  have hrest : ∑ j ∈ Finset.univ.erase i, f (Function.update x i a j) =
      ∑ j ∈ Finset.univ.erase i, f (x j) :=
    Finset.sum_congr rfl fun j hj => by rw [Function.update_of_ne (Finset.ne_of_mem_erase hj)]
  rw [← Finset.add_sum_erase _ _ (Finset.mem_univ i),
    ← Finset.add_sum_erase Finset.univ (fun j => f (x j)) (Finset.mem_univ i), hrest,
    Function.update_self]
  exact (add_right_comm _ _ _).trans (by rw [add_comm (f a), add_right_comm])

theorem sum_update_eq {α M : Type*} [Fintype ι] [DecidableEq ι] [AddCommGroup M] (f : α → M)
    (x : ι → α) (i : ι) (a : α) :
    ∑ j, f (Function.update x i a j) = ∑ j, f (x j) + (f a - f (x i)) := by
  rw [← add_sub_assoc, ← sum_update f x i a, add_sub_cancel_right]

/-- The mutex is held by the one party, known to it by `name`, that takes itself to hold it. -/
def MutexOwned {β : Type*} (name : ι → β) (mutex : Option β) (holds : ι → Bool) : Prop :=
  ∀ i, mutex = some (name i) ↔ holds i = true

section Mutex

variable {β : Type*} {name : ι → β} {mutex : Option β} {holds holds' : ι → Bool} {i : ι}

theorem MutexOwned.congr (h : MutexOwned name mutex holds) (hholds : ∀ j, holds' j = holds j) :
    MutexOwned name mutex holds' := fun j => by rw [hholds j, h j]

theorem MutexOwned.acquire (h : MutexOwned name none holds) (hname : name.Injective)
    (hi : holds' i = true) (hrest : ∀ j, j ≠ i → holds' j = holds j) :
    MutexOwned name (some (name i)) holds' := by
  intro j
  rcases eq_or_ne j i with rfl | hj
  · simp [hi]
  · have hfree : ¬ holds j = true := fun hholds => by simpa using (h j).mpr hholds
    simp [hrest j hj, hfree, hname.eq_iff, hj.symm]

theorem MutexOwned.release (h : MutexOwned name mutex holds) (hname : name.Injective)
    (hown : holds i = true) (hi : holds' i = false) (hrest : ∀ j, j ≠ i → holds' j = holds j) :
    MutexOwned name none holds' := by
  intro j
  rcases eq_or_ne j i with rfl | hj
  · simp [hi]
  · have hother : ¬ holds j = true := fun hholds => by
      have hsame := ((h i).mpr hown).symm.trans ((h j).mpr hholds)
      exact hj (hname (Option.some.inj hsame)).symm
    simp [hrest j hj, hother]

end Mutex

theorem not_held_of_ordered {ρ : Type*} [Finite ρ] [LinearOrder ρ] {held : ρ → Prop}
    (hwait : ∀ r, held r → ∃ r', r < r' ∧ held r') (r : ρ) : ¬ held r := by
  induction r using WellFoundedGT.induction with
  | ind r ih =>
    intro hr
    obtain ⟨r', hlt, hheld⟩ := hwait r hr
    exact ih r' hlt hheld

theorem acyclic_of_rank {ρ : Type*} [Preorder ρ] {r : ι → ι → Prop} (rank : ι → ρ)
    (hrank : ∀ a b c, r a b → r b c → rank a < rank b) (a : ι) : ¬ Relation.TransGen r a a := by
  have hlt : ∀ {b c}, Relation.TransGen r a b → r b c → rank a < rank b := by
    intro b c hab
    induction hab generalizing c with
    | single hb => exact hrank _ _ _ hb
    | tail _ hb ih => exact fun hc => (ih hb).trans (hrank _ _ _ hb hc)
  intro hcycle
  obtain ⟨b, hb, _⟩ := Relation.TransGen.head'_iff.mp hcycle
  exact lt_irrefl _ (hlt hcycle hb)

end OsLab.Interleaving
