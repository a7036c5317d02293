import Mathlib.Data.List.Basic
import Mathlib.Data.List.Count
import Mathlib.Data.List.TakeWhile
import Mathlib.Logic.Relation

/-! Turns that are known in advance. Members join at the end of a forecast, take the turn at its
head, or leave for good after a turn. Whatever joins later, nobody comes before a member more often
than the forecast says. -/

namespace OsLab

variable {α : Type*} [DecidableEq α]

structure Forecast (α : Type*) where
  upcoming : List α
  taken : List α

namespace Forecast

/-- The turns before the next one of `p`. -/
def turnsBefore (p : α) (l : List α) : List α := l.takeWhile fun x => x ≠ p

variable {p x : α} {l l' : List α}

theorem turnsBefore_cons_of_ne (h : x ≠ p) (l : List α) : turnsBefore p (x :: l) = x :: turnsBefore p l := by
  rw [turnsBefore, List.takeWhile_cons_of_pos (by simpa using h), turnsBefore]

theorem turnsBefore_append (h : p ∈ l) (l' : List α) : turnsBefore p (l ++ l') = turnsBefore p l := by
  induction l with
  | nil => exact absurd h List.not_mem_nil
  | cons y ys ih =>
    rw [List.cons_append]
    by_cases hy : y = p
    · subst hy
      simp [turnsBefore]
    · have hys : p ∈ ys := (List.mem_cons.mp h).resolve_left (Ne.symm hy)
      rw [turnsBefore_cons_of_ne hy, turnsBefore_cons_of_ne hy, ih hys]

theorem turnsBefore_of_notMem (h : p ∉ l) (l' : List α) : turnsBefore p (l ++ p :: l') = l := by
  induction l with
  | nil => simp [turnsBefore]
  | cons y ys ih =>
    have hy : y ≠ p := fun heq => h (heq ▸ List.mem_cons_self)
    rw [List.cons_append, turnsBefore_cons_of_ne hy, ih fun hys => h (List.mem_cons_of_mem y hys)]

theorem turnsBefore_of_turn {rest up : List α} (hne : x ≠ p) (hp : p ∈ x :: rest)
    (hup : up = rest ∨ up = rest ++ x :: rest) :
    p ∈ up ∧ turnsBefore p (x :: rest) = x :: turnsBefore p up := by
  have hmem : p ∈ rest := (List.mem_cons.mp hp).resolve_left hne.symm
  rw [turnsBefore_cons_of_ne hne]
  rcases hup with rfl | rfl
  · exact ⟨hmem, rfl⟩
  · rw [turnsBefore_append hmem]
    exact ⟨List.mem_append_left _ hmem, rfl⟩

theorem turnsBefore_filter (h : x ≠ p) (l : List α) :
    turnsBefore p (l.filter (· ≠ x)) = (turnsBefore p l).filter (· ≠ x) := by
  induction l with
  | nil => rfl
  | cons y ys ih =>
    by_cases hy : y = p
    · subst hy
      have hyx : y ≠ x := Ne.symm h
      rw [List.filter_cons_of_pos (by simpa using hyx)]
      simp [turnsBefore]
    · rw [turnsBefore_cons_of_ne hy]
      by_cases hyx : y = x
      · subst hyx
        rw [List.filter_cons_of_neg (by simp), List.filter_cons_of_neg (by simp), ih]
      · rw [List.filter_cons_of_pos (by simpa using hyx), List.filter_cons_of_pos (by simpa using hyx),
          turnsBefore_cons_of_ne hy, ih]

/-- After a turn the forecast may be renewed for another round, in the same order. -/
inductive Step : Forecast α → Forecast α → Prop
  | join (f : Forecast α) (x : α) (hup : x ∉ f.upcoming) (htaken : x ∉ f.taken) :
    Step f ⟨f.upcoming ++ [x], f.taken⟩
  | leave (f : Forecast α) (x : α) (htaken : x ∈ f.taken) :
    Step f ⟨f.upcoming.filter (· ≠ x), f.taken⟩
  | turn (f : Forecast α) (x : α) (rest up : List α) (hnext : f.upcoming = x :: rest)
    (hup : up = rest ∨ up = rest ++ x :: rest) : Step f ⟨up, f.taken ++ [x]⟩

def Steps : Forecast α → Forecast α → Prop := Relation.ReflTransGen Step

/-- What has happened to `p` since `f`, and how many of the turns marked by `c` came before it. -/
inductive Passed (c : α → Bool) (p : α) (k : Nat) (f f' : Forecast α) : Prop
  | waits (new : List α) (htaken : f'.taken = f.taken ++ new) (hnew : p ∉ new)
    (hup : p ∈ f'.upcoming) (hle : new.countP c + (turnsBefore p f'.upcoming).countP c ≤ k)
  | gone (new : List α) (htaken : f'.taken = f.taken ++ new) (hnew : p ∉ new) (hold : p ∈ f.taken)
    (hup : p ∉ f'.upcoming)
  | served (before after : List α) (htaken : f'.taken = f.taken ++ (before ++ p :: after))
    (hbefore : p ∉ before) (hle : before.countP c ≤ k)

variable {f f' f'' : Forecast α} {c : α → Bool} {k : Nat}

theorem Passed.refl (hp : p ∈ f.upcoming) (hle : (turnsBefore p f.upcoming).countP c ≤ k) :
    Passed c p k f f :=
  .waits [] (List.append_nil _).symm List.not_mem_nil hp (by simpa using hle)

theorem Passed.step (h : Passed c p k f f') (hs : Step f' f'') : Passed c p k f f'' := by
  cases h with
  | waits new htaken hnew hup hle =>
    cases hs with
    | join x hx hfresh =>
      refine .waits new htaken hnew (List.mem_append_left _ hup) ?_
      rw [turnsBefore_append hup]
      exact hle
    | leave x hx =>
      rcases eq_or_ne x p with rfl | hne
      · -- only who has had a turn leaves, and `p` has had none since
        rw [htaken] at hx
        have hold := (List.mem_append.mp hx).resolve_right hnew
        exact .gone new htaken hnew hold (by simp)
      · refine .waits new htaken hnew (List.mem_filter.mpr ⟨hup, by simpa using hne.symm⟩) ?_
        rw [turnsBefore_filter hne]
        have hsub : ((turnsBefore p f'.upcoming).filter (· ≠ x)).countP c ≤
            (turnsBefore p f'.upcoming).countP c := List.filter_sublist.countP_le
        omega
    | turn x rest up hnext hrest =>
      have htaken' : f'.taken ++ [x] = f.taken ++ (new ++ [x]) := by
        rw [htaken, List.append_assoc]
      rw [hnext] at hup hle
      rcases eq_or_ne x p with rfl | hne
      · exact .served new [] htaken' hnew (by omega)
      · obtain ⟨hup', hbefore⟩ := turnsBefore_of_turn hne hup hrest
        have hnew' : p ∉ new ++ [x] := by
          simp [hnew, hne.symm]
        -- the turn of `x` is counted among the new ones, and no longer before `p`
        refine .waits (new ++ [x]) htaken' hnew' hup' ?_
        rw [hbefore, List.countP_cons] at hle
        rw [List.countP_append, List.countP_singleton]
        dsimp only
        omega
  | gone new htaken hnew hold hup =>
    cases hs with
    | join x hx hfresh =>
      refine .gone new htaken hnew hold fun hmem => ?_
      rcases List.mem_append.mp hmem with hmem | hmem
      · exact hup hmem
      · rw [← List.mem_singleton.mp hmem, htaken] at hfresh
        exact hfresh (List.mem_append_left _ hold)
    | leave x hx => exact .gone new htaken hnew hold fun hmem => hup (List.mem_filter.mp hmem).1
    | turn x rest up hnext hrest =>
      rw [hnext, List.mem_cons, not_or] at hup
      refine .gone (new ++ [x]) (by rw [htaken, List.append_assoc]) (by simp [hnew, hup.1]) hold ?_
      rcases hrest with rfl | rfl
      · exact hup.2
      · simp [hup.1, hup.2]
  | served before after htaken hbefore hle =>
    cases hs with
    | join x hx hfresh => exact .served before after htaken hbefore hle
    | leave x hx => exact .served before after htaken hbefore hle
    | turn x rest up hnext hrest =>
      exact .served before (after ++ [x]) (by simp [htaken]) hbefore hle

theorem Steps.passed (h : Steps f f') (hp : p ∈ f.upcoming)
    (hle : (turnsBefore p f.upcoming).countP c ≤ k) : Passed c p k f f' := by
  induction h with
  | refl => exact .refl hp hle
  | tail _ hs ih => exact ih.step hs

theorem Steps.countP_le (h : Steps f f') (hp : p ∈ f.upcoming)
    (hle : (turnsBefore p f.upcoming).countP c ≤ k) {mid rest : List α}
    (htaken : f'.taken = f.taken ++ (mid ++ rest)) (hmid : p ∉ mid)
    (hserved : p ∉ f.taken ∨ p ∈ rest) : mid.countP c ≤ k := by
  cases h.passed hp hle with
  | waits new hnew _ _ hcount =>
    have hsub := List.append_cancel_left (htaken.symm.trans hnew)
    rw [← hsub, List.countP_append] at hcount
    omega
  | gone new hnew hp' hold _ =>
    have hsub := List.append_cancel_left (htaken.symm.trans hnew)
    rcases hserved with hserved | hserved
    · exact absurd hold hserved
    · exact absurd (hsub ▸ List.mem_append_right mid hserved) hp'
  | served before after hnew hbefore hcount =>
    have hsub := List.append_cancel_left (htaken.symm.trans hnew)
    -- `mid` is a part of `before`, or it would reach over the turn of `p`
    rcases List.append_eq_append_iff.mp hsub with ⟨more, rfl, _⟩ | ⟨more, rfl, hsplit⟩
    · rw [List.countP_append] at hcount
      omega
    · cases more with
      | nil => rwa [List.append_nil]
      | cons y more =>
        rw [← (List.cons.inj hsplit).1] at hmid
        exact absurd (List.mem_append_right before List.mem_cons_self) hmid

theorem Steps.taken_prefix (h : Steps f f') : f.taken <+: f'.taken := by
  induction h with
  | refl => exact List.prefix_rfl
  | tail _ hs ih =>
    cases hs with
    | join x hup htaken => exact ih
    | leave x htaken => exact ih
    | turn x rest up hnext hup => exact ih.trans (List.prefix_append _ _)

theorem Steps.turnsBefore_le (h : Steps f f') (hp : p ∈ f.upcoming) (hnew : p ∉ f'.taken) :
    p ∈ f'.upcoming ∧ (turnsBefore p f'.upcoming).countP c + f'.taken.countP c ≤
      (turnsBefore p f.upcoming).countP c + f.taken.countP c := by
  cases h.passed (c := c) hp le_rfl with
  | waits new htaken _ hup hle =>
    rw [htaken, List.countP_append]
    exact ⟨hup, by omega⟩
  | gone new htaken _ hold _ => exact absurd (htaken ▸ List.mem_append_left new hold) hnew
  | served before after htaken _ _ => exact absurd (by simp [htaken]) hnew

end Forecast
end OsLab
