import Mathlib.Data.List.Basic
import Mathlib.Data.List.Nodup

/-! Taking turns from a queue. Who has had a turn goes back to the end of the queue, or leaves. Then
between two turns of a member nobody else has more than one. -/

namespace OsLab

variable {α : Type*}

/-- `turns` are the turns that have begun, and `current` is the one whose turn has not ended. -/
structure Rotation (α : Type*) where
  queue : List α
  current : Option α
  turns : List α

namespace Rotation

def Fair (turns : List α) : Prop :=
  ∀ pre p mid post, turns = pre ++ p :: (mid ++ p :: post) → p ∉ mid → mid.Nodup

/-- The turns since the last one of a member that waits are those of different members, and none of
them stands before it in the queue. -/
structure Inv (r : Rotation α) : Prop where
  nodup : (r.current.toList ++ r.queue).Nodup
  last : ∀ x ∈ r.current, r.turns.getLast? = some x
  waits : ∀ before p after, r.queue = before ++ p :: after → ∀ pre mid, r.turns = pre ++ p :: mid →
    p ∉ mid → mid.Nodup ∧ ∀ x ∈ mid, x ∉ before
  fair : Fair r.turns

variable {r r' : Rotation α} {x : α}

theorem Inv.nodup_queue (h : Inv r) : r.queue.Nodup := (List.nodup_append.mp h.nodup).2.1

theorem Inv.join (h : Inv r) (hcurrent : x ∉ r.current) (hqueue : x ∉ r.queue)
    (hturns : x ∉ r.turns) : Inv { r with queue := r.queue ++ [x] } := by
  refine { h with nodup := ?_, waits := fun before p after hsplit pre mid hturn hmid => ?_ }
  · show (r.current.toList ++ (r.queue ++ [x])).Nodup
    rw [← List.append_assoc]
    refine List.nodup_append.mpr ⟨h.nodup, List.nodup_singleton x, fun y hy z hz => ?_⟩
    rw [List.mem_singleton.mp hz]
    rintro rfl
    rcases List.mem_append.mp hy with hy | hy
    · exact hcurrent (Option.mem_toList.mp hy)
    · exact hqueue hy
  · rcases List.eq_nil_or_concat after with rfl | ⟨after, z, rfl⟩
    · -- the new member has had no turn
      have hlast := (List.append_inj' hsplit rfl).2
      obtain rfl := (List.cons.inj hlast).1
      exact absurd (hturn ▸ List.mem_append_right pre List.mem_cons_self) hturns
    · rw [List.concat_eq_append, ← List.cons_append, ← List.append_assoc] at hsplit
      exact h.waits before p after (List.append_inj' hsplit rfl).1 pre mid hturn hmid

theorem Inv.joins (h : Inv r) {new : List α} (hnew : new.Nodup)
    (hfresh : ∀ x ∈ new, x ∉ r.current ∧ x ∉ r.queue ∧ x ∉ r.turns) :
    Inv { r with queue := r.queue ++ new } := by
  induction new generalizing r with
  | nil => rwa [List.append_nil]
  | cons x new ih =>
    obtain ⟨hx, hnew⟩ := List.nodup_cons.mp hnew
    obtain ⟨hcurrent, hqueue, hturns⟩ := hfresh x List.mem_cons_self
    have hrest := ih (h.join hcurrent hqueue hturns) hnew fun y hy => by
      obtain ⟨hcurrent', hqueue', hturns'⟩ := hfresh y (List.mem_cons_of_mem x hy)
      have hne : y ≠ x := ne_of_mem_of_not_mem hy hx
      exact ⟨hcurrent', by simp [hqueue', hne], hturns'⟩
    rwa [List.append_assoc] at hrest

theorem Inv.begin (h : Inv r) {rest : List α} (hqueue : r.queue = x :: rest) :
    Inv ⟨rest, some x, r.turns ++ [x]⟩ := by
  have hnodup := h.nodup_queue
  rw [hqueue] at hnodup
  refine ⟨hnodup, fun y hy => ?_, fun before p after hsplit pre mid hturn hmid => ?_,
    fun pre p mid post hturn hmid => ?_⟩
  · obtain rfl := Option.some.inj hy
    exact List.getLast?_concat
  · replace hsplit : rest = before ++ p :: after := hsplit
    have hne : p ≠ x := by
      rintro rfl
      refine (List.nodup_cons.mp hnodup).1 ?_
      rw [hsplit]
      exact List.mem_append_right before List.mem_cons_self
    rcases List.eq_nil_or_concat mid with rfl | ⟨mid, y, rfl⟩
    · exact absurd (List.cons.inj (List.append_inj' hturn rfl).2).1 hne.symm
    · rw [List.concat_eq_append, ← List.cons_append, ← List.append_assoc] at hturn
      obtain ⟨hold, hlast⟩ := List.append_inj' hturn rfl
      obtain rfl := (List.cons.inj hlast).1
      rw [List.concat_eq_append, List.mem_append, not_or] at hmid
      obtain ⟨hdiff, hbefore⟩ := h.waits (x :: before) p after (by rw [hqueue, hsplit]; rfl) pre mid
        hold hmid.1
      rw [List.concat_eq_append]
      have hnew : x ∉ mid := fun hx => hbefore x hx List.mem_cons_self
      refine ⟨List.nodup_append.mpr ⟨hdiff, List.nodup_singleton x, fun y hy z hz => ?_⟩, ?_⟩
      · rw [List.mem_singleton.mp hz]
        rintro rfl
        exact hnew hy
      · intro y hy
        rcases List.mem_append.mp hy with hy | hy
        · exact fun hmem => hbefore y hy (List.mem_cons_of_mem x hmem)
        · rw [List.mem_singleton.mp hy]
          refine fun hmem => (List.nodup_cons.mp hnodup).1 ?_
          rw [hsplit]
          exact List.mem_append_left _ hmem
  · replace hturn : r.turns ++ [x] = pre ++ p :: (mid ++ p :: post) := hturn
    rcases List.eq_nil_or_concat post with rfl | ⟨post, y, rfl⟩
    · -- the turn that begins is that of `p`, the first in the queue
      rw [← List.cons_append, ← List.append_assoc] at hturn
      obtain ⟨hold, hlast⟩ := List.append_inj' hturn rfl
      obtain rfl := (List.cons.inj hlast).1
      exact (h.waits [] x rest hqueue pre mid hold hmid).1
    · refine h.fair pre p mid post ?_ hmid
      rw [List.concat_eq_append, ← List.cons_append, ← List.append_assoc, ← List.cons_append,
        ← List.append_assoc] at hturn
      rw [(List.append_inj' hturn rfl).1, List.append_assoc, List.cons_append]

theorem Inv.yield (h : Inv r) (hcurrent : r.current = some x) :
    Inv ⟨r.queue ++ [x], none, r.turns⟩ := by
  have hlast := h.last x hcurrent
  have hnodup := h.nodup
  rw [hcurrent, Option.toList_some, List.singleton_append, List.nodup_cons] at hnodup
  refine ⟨?_, nofun, fun before p after hsplit pre mid hturn hmid => ?_, h.fair⟩
  · show (r.queue ++ [x]).Nodup
    refine List.nodup_append.mpr ⟨hnodup.2, List.nodup_singleton x, fun y hy z hz => ?_⟩
    rw [List.mem_singleton.mp hz]
    rintro rfl
    exact hnodup.1 hy
  · replace hsplit : r.queue ++ [x] = before ++ p :: after := hsplit
    replace hturn : r.turns = pre ++ p :: mid := hturn
    rcases List.eq_nil_or_concat after with rfl | ⟨after, z, rfl⟩
    · -- nobody has begun a turn since that of `x`
      obtain rfl := (List.cons.inj (List.append_inj' hsplit rfl).2).1
      rcases List.eq_nil_or_concat mid with rfl | ⟨mid, y, rfl⟩
      · exact ⟨List.nodup_nil, nofun⟩
      · rw [hturn, List.concat_eq_append, ← List.cons_append, ← List.append_assoc,
          List.getLast?_concat] at hlast
        obtain rfl := Option.some.inj hlast
        exact absurd (by simp) hmid
    · rw [List.concat_eq_append, ← List.cons_append, ← List.append_assoc] at hsplit
      exact h.waits before p after (List.append_inj' hsplit rfl).1 pre mid hturn hmid

theorem Inv.leave (h : Inv r) : Inv { r with current := none } :=
  { h with nodup := h.nodup_queue, last := nofun }

end Rotation
end OsLab
