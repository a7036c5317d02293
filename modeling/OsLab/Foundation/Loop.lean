import Mathlib.Logic.Relation
import Mathlib.Order.WellFounded

/-! A `while` loop as a partial step function, its bounded execution, and the rules the
simulators use: an invariant over every run, and termination from a decreasing measure. -/

namespace OsLab.Loop

variable {σ : Type*} {β : Type*}

/-- Runs `body` until it returns `none` (the loop condition fails), at most `fuel` rounds. -/
def run (body : σ → Option σ) : Nat → σ → Option σ
  | 0, _ => none
  | fuel + 1, s =>
    match body s with
    | none => some s
    | some s' => run body fuel s'

/-- `s'` is reached from `s` by rounds of the loop whose start states all satisfy `ok`. -/
def ReachesVia (body : σ → Option σ) (ok : σ → Prop) : σ → σ → Prop :=
  Relation.ReflTransGen fun s s' => ok s ∧ body s = some s'

def Reaches (body : σ → Option σ) : σ → σ → Prop :=
  Relation.ReflTransGen fun s s' => body s = some s'

def Terminates (body : σ → Option σ) (s : σ) : Prop := ∃ fuel s', run body fuel s = some s'

theorem ReachesVia.reaches {body : σ → Option σ} {ok : σ → Prop} {s s' : σ}
    (h : ReachesVia body ok s s') : Reaches body s s' :=
  Relation.ReflTransGen.mono (fun _ _ hstep => hstep.2) _ _ h

theorem Reaches.via {body : σ → Option σ} {ok : σ → Prop} {s s' : σ}
    (hok : ∀ a, Reaches body s a → ok a) (h : Reaches body s s') : ReachesVia body ok s s' := by
  induction h with
  | refl => exact .refl
  | tail hr hstep ih => exact ih.tail ⟨hok _ hr, hstep⟩

theorem ReachesVia.invariant {body : σ → Option σ} {ok : σ → Prop} (inv : σ → Prop) {s s' : σ}
    (hstep : ∀ a b, ok a → body a = some b → inv a → inv b)
    (h : ReachesVia body ok s s') (hs : inv s) : inv s' := by
  induction h with
  | refl => exact hs
  | tail _ hb ih => exact hstep _ _ hb.1 hb.2 ih

theorem Reaches.invariant {body : σ → Option σ} (inv : σ → Prop) {s s' : σ}
    (hstep : ∀ a b, body a = some b → inv a → inv b)
    (h : Reaches body s s') (hs : inv s) : inv s' := by
  induction h with
  | refl => exact hs
  | tail _ hb ih => exact hstep _ _ hb ih

/-- The state after `k` rounds, or after fewer when the loop ends before. -/
def advance (body : σ → Option σ) : Nat → σ → σ
  | 0, s => s
  | k + 1, s =>
    match body s with
    | none => s
    | some s' => advance body k s'

theorem reaches_advance (body : σ → Option σ) (k : Nat) (s : σ) :
    Reaches body s (advance body k s) := by
  induction k generalizing s with
  | zero => exact .refl
  | succ k ih =>
    rw [advance]
    split
    · exact .refl
    · rename_i hb
      exact .head hb (ih _)

theorem advance_succ (body : σ → Option σ) (k : Nat) (s : σ) :
    advance body (k + 1) s = (body (advance body k s)).getD (advance body k s) := by
  induction k generalizing s with
  | zero =>
    simp only [advance]
    split <;> simp_all
  | succ k ih =>
    rw [advance]
    split
    · rename_i hb
      simp [advance, hb]
    · rename_i t hb
      rw [ih t]
      simp only [advance, hb]

theorem advance_ended {body : σ → Option σ} (measure : σ → Nat)
    (hstep : ∀ a b, body a = some b → measure b < measure a) {k : Nat} {s : σ}
    (hk : measure s ≤ k) : body (advance body k s) = none := by
  induction k generalizing s with
  | zero =>
    rw [advance, Option.eq_none_iff_forall_ne_some]
    intro t hb
    exact absurd (hstep s t hb) (by omega)
  | succ k ih =>
    rw [advance]
    split
    · assumption
    · rename_i t hb
      exact ih (Nat.le_of_lt_succ ((hstep s t hb).trans_le hk))

theorem Reaches.cases_advance {body : σ → Option σ} (k : Nat) {s t : σ} (h : Reaches body s t) :
    (∃ i < k, t = advance body i s) ∨ Reaches body (advance body k s) t := by
  induction h with
  | refl =>
    cases k with
    | zero => exact .inr .refl
    | succ k => exact .inl ⟨0, Nat.succ_pos k, rfl⟩
  | @tail u v _ hb ih =>
    obtain ⟨i, hi, rfl⟩ | hreach := ih
    · have hnext : advance body (i + 1) s = v := by rw [advance_succ, hb, Option.getD_some]
      rcases (Nat.succ_le_of_lt hi).eq_or_lt with heq | hlt
      · exact .inr (heq ▸ hnext ▸ .refl)
      · exact .inl ⟨i + 1, hlt, hnext.symm⟩
    · exact .inr (hreach.tail hb)

theorem reachesVia_advance {body : σ → Option σ} {ok : σ → Prop} {k : Nat} {s : σ}
    (hok : ∀ i < k, ok (advance body i s)) : ReachesVia body ok s (advance body k s) := by
  induction k with
  | zero => exact .refl
  | succ k ih =>
    have hrun := ih fun i hi => hok i (Nat.lt_succ_of_lt hi)
    rw [advance_succ]
    cases hb : body (advance body k s) with
    | none => exact hrun
    | some t => exact hrun.tail ⟨hok k (Nat.lt_succ_self k), hb⟩

theorem run_reaches {body : σ → Option σ} {fuel : Nat} {s s' : σ}
    (h : run body fuel s = some s') : Reaches body s s' ∧ body s' = none := by
  induction fuel generalizing s with
  | zero => simp [run] at h
  | succ fuel ih =>
    cases hb : body s with
    | none =>
      simp only [run, hb, Option.some.injEq] at h
      exact h ▸ ⟨.refl, hb⟩
    | some t =>
      simp only [run, hb] at h
      exact ⟨.head hb (ih h).1, (ih h).2⟩

theorem run_succ {body : σ → Option σ} {fuel : Nat} {s s' : σ}
    (h : run body fuel s = some s') : run body (fuel + 1) s = some s' := by
  induction fuel generalizing s with
  | zero => simp [run] at h
  | succ fuel ih =>
    rw [run] at h ⊢
    split at h
    · exact h
    · exact ih h

theorem run_mono {body : σ → Option σ} {fuel fuel' : Nat} {s s' : σ}
    (h : run body fuel s = some s') (hle : fuel ≤ fuel') : run body fuel' s = some s' := by
  induction hle with
  | refl => exact h
  | step _ ih => exact run_succ ih

theorem run_unique {body : σ → Option σ} {f f' : Nat} {s a b : σ}
    (ha : run body f s = some a) (hb : run body f' s = some b) : a = b := by
  have ha' := run_mono ha (le_max_left f f')
  have hb' := run_mono hb (le_max_right f f')
  exact Option.some.inj (ha'.symm.trans hb')

theorem Reaches.terminates {body : σ → Option σ} {s s' : σ} (h : Reaches body s s')
    (ht : Terminates body s') : Terminates body s := by
  induction h using Relation.ReflTransGen.head_induction_on with
  | refl => exact ht
  | head hb _ ih =>
    obtain ⟨fuel, t, hr⟩ := ih
    exact ⟨fuel + 1, t, by simp only [run, hb, hr]⟩

theorem run_lockstep {τ : Type*} {body : σ → Option σ} {body' : τ → Option τ} (R : σ → τ → Prop)
    (hend : ∀ s t, R s t → body s = none → body' t = none)
    (hstep : ∀ s t s', R s t → body s = some s' → ∃ t', body' t = some t' ∧ R s' t')
    {fuel : Nat} {s s' : σ} {t : τ} (hr : R s t) (h : run body fuel s = some s') :
    ∃ t', run body' fuel t = some t' ∧ R s' t' := by
  induction fuel generalizing s t with
  | zero => simp [run] at h
  | succ fuel ih =>
    cases hb : body s with
    | none =>
      simp only [run, hb, Option.some.injEq] at h
      exact ⟨t, by simp only [run, hend s t hr hb], h ▸ hr⟩
    | some u =>
      simp only [run, hb] at h
      obtain ⟨v, hv, huv⟩ := hstep s t u hr hb
      obtain ⟨t', ht', hr'⟩ := ih huv h
      exact ⟨t', by simp only [run, hv, ht'], hr'⟩

theorem Reaches.of_run {body : σ → Option σ} {fuel : Nat} {s s' t : σ}
    (h : Reaches body s s') (hrun : run body fuel s = some t) : Reaches body s' t := by
  obtain ⟨f', hr'⟩ : ∃ f', run body f' s' = some t := by
    induction h with
    | refl => exact ⟨fuel, hrun⟩
    | tail _ hb ih =>
      obtain ⟨f, hf⟩ := ih
      cases f with
      | zero => simp [run] at hf
      | succ f => exact ⟨f, by simpa only [run, hb] using hf⟩
  exact (run_reaches hr').1

theorem terminates_of_measure {body : σ → Option σ} (inv : σ → Prop) {lt : β → β → Prop}
    (hwf : WellFounded lt) (measure : σ → β)
    (hstep : ∀ a b, inv a → body a = some b → inv b ∧ lt (measure b) (measure a))
    {s : σ} (hs : inv s) : Terminates body s := by
  induction hm : measure s using hwf.induction generalizing s with
  | _ m ih =>
    subst hm
    cases hb : body s with
    | none => exact ⟨1, s, by simp only [run, hb]⟩
    | some t =>
      obtain ⟨hinv, hlt⟩ := hstep s t hs hb
      obtain ⟨fuel, u, hr⟩ := ih _ hlt hinv rfl
      exact ⟨fuel + 1, u, by simp only [run, hb, hr]⟩

end OsLab.Loop
