import Mathlib.Data.List.ReduceOption

/-! Sequences of calls on a data structure: one structure does what another one is for if each call
does, and what goes in comes out or is still there. -/

namespace OsLab

variable {σ τ γ δ ρ α : Type*}

/-- The calls one after the other, with what they return; `none` if one of them fails. -/
def runCalls (call : σ → γ → Option (ρ × σ)) (s : σ) : List γ → Option (List ρ × σ)
  | [] => some ([], s)
  | c :: calls => do
    let (result, s) ← call s c
    let (results, s) ← runCalls call s calls
    some (result :: results, s)

def foldCalls (call : τ → γ → ρ × τ) (t : τ) : List γ → List ρ × τ
  | [] => ([], t)
  | c :: calls =>
    ((call t c).1 :: (foldCalls call (call t c).2 calls).1, (foldCalls call (call t c).2 calls).2)

theorem foldCalls_concat (call : τ → γ → ρ × τ) (t : τ) (calls : List γ) (c : γ) :
    foldCalls call t (calls ++ [c]) =
      ((foldCalls call t calls).1 ++ [(call (foldCalls call t calls).2 c).1],
        (call (foldCalls call t calls).2 c).2) := by
  induction calls generalizing t with
  | nil => rfl
  | cons d calls ih => simp only [List.cons_append, foldCalls, ih]

def AdmitsAll (call : τ → γ → ρ × τ) (admits : τ → γ → Prop) (t : τ) : List γ → Prop
  | [] => True
  | c :: calls => admits t c ∧ AdmitsAll call admits (call t c).2 calls

def decidableAdmitsAll (call : τ → γ → ρ × τ) (admits : τ → γ → Prop)
    [∀ t, DecidablePred (admits t)] (t : τ) :
    (calls : List γ) → Decidable (AdmitsAll call admits t calls)
  | [] => inferInstanceAs (Decidable True)
  | c :: calls =>
    have := decidableAdmitsAll call admits (call t c).2 calls
    inferInstanceAs (Decidable (_ ∧ _))

instance (call : τ → γ → ρ × τ) (admits : τ → γ → Prop) [∀ t, DecidablePred (admits t)] (t : τ)
    (calls : List γ) : Decidable (AdmitsAll call admits t calls) :=
  decidableAdmitsAll call admits t calls

theorem admitsAll_true (call : τ → γ → ρ × τ) (t : τ) (calls : List γ) :
    AdmitsAll call (fun _ _ => True) t calls := by
  induction calls generalizing t with
  | nil => trivial
  | cons c calls ih => exact ⟨trivial, ih _⟩

/-- The run of a structure follows the run of its model; `δ` is what the calls of the structure
depend on besides. -/
theorem runCalls_refines {call : σ → δ × γ → Option (ρ × σ)} {model : τ → γ → ρ × τ}
    {admits : τ → γ → Prop} {sound : δ → Prop} {R : σ → τ → Prop}
    (hstep : ∀ s t d c, R s t → sound d → admits t c →
      ∃ s', call s (d, c) = some ((model t c).1, s') ∧ R s' (model t c).2)
    {s : σ} {t : τ} (h : R s t) {calls : List (δ × γ)} (hsound : ∀ c ∈ calls, sound c.1)
    (hadmits : AdmitsAll model admits t (calls.map Prod.snd)) :
    ∃ s', runCalls call s calls = some ((foldCalls model t (calls.map Prod.snd)).1, s') ∧
      R s' (foldCalls model t (calls.map Prod.snd)).2 := by
  induction calls generalizing s t with
  | nil => exact ⟨s, rfl, h⟩
  | cons c calls ih =>
    obtain ⟨hc, hcalls⟩ := List.forall_mem_cons.mp hsound
    obtain ⟨s1, hcall, hs1⟩ := hstep s t c.1 c.2 h hc hadmits.1
    obtain ⟨s2, hrun, hs2⟩ := ih hs1 hcalls hadmits.2
    refine ⟨s2, ?_, hs2⟩
    simp only [runCalls, hcall, Option.bind_eq_bind, Option.bind_some, hrun, List.map_cons,
      foldCalls]

/-- If each call keeps, together with what it inserts and what it returns, all there is, a run does. -/
theorem foldCalls_perm {call : τ → γ → Option α × τ} {members : τ → List α}
    {inserted : γ → Option α}
    (hstep : ∀ t c, (members t ++ (inserted c).toList).Perm
      ((call t c).1.toList ++ members (call t c).2)) (t : τ) (calls : List γ) :
    (members t ++ calls.filterMap inserted).Perm
      ((foldCalls call t calls).1.reduceOption ++ members (foldCalls call t calls).2) := by
  induction calls generalizing t with
  | nil => simp [foldCalls]
  | cons c calls ih =>
    have hinserted : (c :: calls).filterMap inserted =
        (inserted c).toList ++ calls.filterMap inserted := by
      cases h : inserted c <;> simp [h]
    have hreturned : (foldCalls call t (c :: calls)).1.reduceOption =
        (call t c).1.toList ++ (foldCalls call (call t c).2 calls).1.reduceOption := by
      rw [foldCalls]
      cases (call t c).1 <;> simp
    rw [hinserted, hreturned, ← List.append_assoc, List.append_assoc (Option.toList _)]
    refine ((hstep t c).append_right _).trans ?_
    rw [List.append_assoc]
    exact (ih (call t c).2).append_left _

end OsLab
