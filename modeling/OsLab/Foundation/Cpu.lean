import Mathlib.Data.Multiset.Fintype
import Mathlib.Data.Prod.Lex
import Mathlib.Data.Fintype.Card
import Mathlib.Tactic.Abel
import OsLab.Foundation.Timeline

/-! One CPU that is never idle while a job is ready, as a machine of five actions: time
passes, a job arrives, the running job is stopped at the end of its segment, it finishes, a
ready job is dispatched. Which job is dispatched, and for how long, is left open.

A segment is charged to its job when it starts, so `left` is what remains after the segment
that is being served. -/

namespace OsLab

structure Cpu (P : Type*) where
  now : ℤ
  pending : Multiset P
  ready : Multiset P
  running : Option P
  finished : Multiset P
  left : P → ℤ
  log : List (Segment P)

namespace Cpu

variable {P : Type*} [DecidableEq P]

def onCpu (c : Cpu P) : Multiset P := (c.running.toList : Multiset P)

inductive Step (arrival : P → ℤ) : Cpu P → Cpu P → Prop
  | advance {c : Cpu P} (t : ℤ) (hle : c.now ≤ t) (hpending : ∀ p ∈ c.pending, t ≤ arrival p)
      (hbusy : c.running ≠ none → t ≤ frontier c.log) (hidle : c.running = none → c.ready = 0) :
      Step arrival c { c with now := t }
  | arrive {c : Cpu P} (p : P) (pending : Multiset P) (hp : c.pending = p ::ₘ pending)
      (harrival : arrival p = c.now) :
      Step arrival c { c with pending := pending, ready := p ::ₘ c.ready }
  | stop {c : Cpu P} (p : P) (hp : c.running = some p) (hend : frontier c.log = c.now)
      (hleft : 0 < c.left p) :
      Step arrival c { c with running := none, ready := p ::ₘ c.ready }
  | finish {c : Cpu P} (p : P) (hp : c.running = some p) (hend : frontier c.log = c.now)
      (hleft : c.left p = 0) :
      Step arrival c { c with running := none, finished := p ::ₘ c.finished }
  | dispatch {c : Cpu P} (p : P) (ready : Multiset P) (r : ℤ) (hidle : c.running = none)
      (hp : c.ready = p ::ₘ ready) (hr : 0 ≤ r) (hle : r ≤ c.left p)
      (hprogress : r = 0 → c.left p = 0) :
      Step arrival c { c with
        ready := ready
        running := some p
        left := Function.update c.left p (c.left p - r)
        log := c.log ++ [⟨p, c.now, r⟩] }

def Steps (arrival : P → ℤ) : Cpu P → Cpu P → Prop := Relation.ReflTransGen (Step arrival)

variable [Fintype P] {arrival burst : P → ℤ}

def init (burst : P → ℤ) : Cpu P where
  now := 0
  pending := Finset.univ.val
  ready := 0
  running := none
  finished := 0
  left := burst
  log := []

structure Inv (arrival burst : P → ℤ) (c : Cpu P) : Prop where
  placed : c.pending + c.ready + c.onCpu + c.finished = Finset.univ.val
  timeline : Timeline arrival burst c.log
  accounted : ∀ p, c.left p + served c.log p = burst p
  left_nonneg : ∀ p, 0 ≤ c.left p
  pending_fresh : ∀ p ∈ c.pending, c.now ≤ arrival p ∧ ∀ d ∈ c.log, d.process ≠ p
  arrived : ∀ p, p ∉ c.pending → arrival p ≤ c.now
  finished_done : ∀ p ∈ c.finished, c.left p = 0 ∧ ∃ d ∈ c.log, d.process = p
  running_logged : ∀ p, c.running = some p → ∃ d ∈ c.log, d.process = p
  idle : c.running = none → frontier c.log ≤ c.now
  busy : c.running ≠ none → c.now ≤ frontier c.log
  idle_ready : c.running = none → frontier c.log < c.now → ∀ p ∈ c.ready, arrival p = c.now

theorem init_inv (harrival : ∀ p, 0 ≤ arrival p) (hburst : ∀ p, 0 ≤ burst p) :
    Inv arrival burst (init burst) where
  placed := by simp [init, onCpu]
  timeline := .nil
  accounted p := by simp [init]
  left_nonneg := hburst
  pending_fresh p _ := ⟨harrival p, by simp [init]⟩
  arrived p hp := absurd (Finset.mem_univ_val p) hp
  finished_done := by simp [init]
  running_logged := by simp [init]
  idle _ := le_rfl
  busy h := absurd rfl h
  idle_ready := by simp [init]

namespace Inv

variable {c c' : Cpu P}

theorem count_eq_one (h : Inv arrival burst c) (p : P) :
    c.pending.count p + c.ready.count p + c.onCpu.count p + c.finished.count p = 1 := by
  rw [← Multiset.count_add, ← Multiset.count_add, ← Multiset.count_add, h.placed]
  exact Multiset.count_eq_one_of_mem Finset.univ.nodup (Finset.mem_univ_val p)

theorem left_of_unserved (h : Inv arrival burst c) {p : P} (hfresh : ∀ d ∈ c.log, d.process ≠ p) :
    c.left p = burst p := by
  have haccounted := h.accounted p
  rwa [served_eq_zero hfresh, add_zero] at haccounted

omit [Fintype P] in
theorem count_onCpu (c : Cpu P) (p : P) : c.onCpu.count p = if c.running = some p then 1 else 0 := by
  unfold onCpu
  cases c.running with
  | none => simp
  | some q => by_cases h : q = p <;> simp [h, Multiset.count_singleton, eq_comm]

theorem notMem_pending_of_ready (h : Inv arrival burst c) {p : P} (hp : p ∈ c.ready) :
    p ∉ c.pending := by
  intro hq
  have := h.count_eq_one p
  have := Multiset.count_pos.mpr hp
  have := Multiset.count_pos.mpr hq
  omega

theorem notMem_pending_of_running (h : Inv arrival burst c) {p : P} (hp : c.running = some p) :
    p ∉ c.pending := by
  intro hq
  have := h.count_eq_one p
  rw [count_onCpu, if_pos hp] at this
  have := Multiset.count_pos.mpr hq
  omega

theorem notMem_ready_of_running (h : Inv arrival burst c) {p : P} (hp : c.running = some p) :
    p ∉ c.ready := by
  intro hq
  have := h.count_eq_one p
  rw [count_onCpu, if_pos hp] at this
  have := Multiset.count_pos.mpr hq
  omega

theorem notMem_ready_of_pending (h : Inv arrival burst c) {p : P} (hp : p ∈ c.pending) :
    p ∉ c.ready := fun hq => h.notMem_pending_of_ready hq hp

theorem notMem_finished_of_ready (h : Inv arrival burst c) {p : P} (hp : p ∈ c.ready) :
    p ∉ c.finished := by
  intro hq
  have := h.count_eq_one p
  have := Multiset.count_pos.mpr hp
  have := Multiset.count_pos.mpr hq
  omega

theorem notMem_of_cons_ready (h : Inv arrival burst c) {p : P} {ready : Multiset P}
    (hp : c.ready = p ::ₘ ready) : p ∉ ready := by
  intro hq
  have := h.count_eq_one p
  rw [hp, Multiset.count_cons_self] at this
  have := Multiset.count_pos.mpr hq
  omega

theorem mem_finished (h : Inv arrival burst c) {p : P} (hpending : p ∉ c.pending)
    (hready : p ∉ c.ready) (hrunning : c.running ≠ some p) : p ∈ c.finished := by
  have := h.count_eq_one p
  rw [count_onCpu, if_neg hrunning, Multiset.count_eq_zero.mpr hpending,
    Multiset.count_eq_zero.mpr hready] at this
  exact Multiset.count_pos.mp (by omega)

theorem advance (h : Inv arrival burst c) {t : ℤ} (hle : c.now ≤ t)
    (hpending : ∀ p ∈ c.pending, t ≤ arrival p) (hbusy : c.running ≠ none → t ≤ frontier c.log)
    (hidle : c.running = none → c.ready = 0) : Inv arrival burst { c with now := t } :=
  { h with
    pending_fresh := fun p hp => ⟨hpending p hp, (h.pending_fresh p hp).2⟩
    arrived := fun p hp => (h.arrived p hp).trans hle
    idle := fun hr => (h.idle hr).trans hle
    busy := hbusy
    idle_ready := fun hr _ p hp => by
      have hp : p ∈ c.ready := hp
      simp [hidle hr] at hp }

theorem arrive (h : Inv arrival burst c) {p : P} {pending : Multiset P}
    (hp : c.pending = p ::ₘ pending) (harrival : arrival p = c.now) :
    Inv arrival burst { c with pending := pending, ready := p ::ₘ c.ready } :=
  { h with
    placed := by
      rw [← h.placed, hp]
      simp only [onCpu, ← Multiset.singleton_add]
      abel
    pending_fresh := fun q hq => h.pending_fresh q (hp ▸ Multiset.mem_cons_of_mem hq)
    arrived := fun q hq => by
      by_cases hqp : q = p
      · exact (hqp ▸ harrival).le
      · exact h.arrived q (by rw [hp, Multiset.mem_cons]; exact not_or.mpr ⟨hqp, hq⟩)
    idle_ready := fun hr hlt q hq => by
      rcases Multiset.mem_cons.mp hq with rfl | hq
      · exact harrival
      · exact h.idle_ready hr hlt q hq }

theorem stop (h : Inv arrival burst c) {p : P} (hp : c.running = some p)
    (hend : frontier c.log = c.now) :
    Inv arrival burst { c with running := none, ready := p ::ₘ c.ready } :=
  { h with
    placed := by
      rw [← h.placed]
      simp only [onCpu, hp, Option.toList_none, Option.toList_some, ← Multiset.singleton_add,
        Multiset.coe_nil, Multiset.coe_singleton]
      abel
    running_logged := by simp
    idle := fun _ => hend.le
    busy := fun hr => absurd rfl hr
    idle_ready := fun _ hlt => absurd hend hlt.ne }

theorem finish (h : Inv arrival burst c) {p : P} (hp : c.running = some p)
    (hend : frontier c.log = c.now) (hleft : c.left p = 0) :
    Inv arrival burst { c with running := none, finished := p ::ₘ c.finished } :=
  { h with
    placed := by
      rw [← h.placed]
      simp only [onCpu, hp, Option.toList_none, Option.toList_some, ← Multiset.singleton_add,
        Multiset.coe_nil, Multiset.coe_singleton]
      abel
    finished_done := fun q hq => by
      rcases Multiset.mem_cons.mp hq with rfl | hq
      · exact ⟨hleft, h.running_logged _ hp⟩
      · exact h.finished_done q hq
    running_logged := by simp
    idle := fun _ => hend.le
    busy := fun hr => absurd rfl hr
    idle_ready := fun _ hlt => absurd hend hlt.ne }

theorem served_before_dispatch (h : Inv arrival burst c) (hidle : c.running = none)
    (hgap : frontier c.log < c.now) {q : P} (hq : arrival q < c.now) :
    served c.log q = burst q := by
  have hfinished : q ∈ c.finished := by
    refine h.mem_finished (fun hp => ?_) (fun hr => ?_) (by simp [hidle])
    · exact absurd (h.pending_fresh q hp).1 (not_le.mpr hq)
    · exact absurd (h.idle_ready hidle hgap q hr) hq.ne
  have := h.accounted q
  rw [(h.finished_done q hfinished).1] at this
  omega

theorem dispatch (h : Inv arrival burst c) {p : P} {ready : Multiset P} {r : ℤ}
    (hidle : c.running = none) (hp : c.ready = p ::ₘ ready) (hr : 0 ≤ r) (hle : r ≤ c.left p) :
    Inv arrival burst { c with
      ready := ready
      running := some p
      left := Function.update c.left p (c.left p - r)
      log := c.log ++ [⟨p, c.now, r⟩] } := by
  have hmem : p ∈ c.ready := hp ▸ Multiset.mem_cons_self p ready
  have hleft : ∀ q, q ≠ p → Function.update c.left p (c.left p - r) q = c.left q := fun q hq =>
    Function.update_of_ne hq ..
  refine { h with
    placed := ?_, timeline := ?_, accounted := ?_, left_nonneg := ?_, pending_fresh := ?_,
    finished_done := ?_, running_logged := ?_, idle := ?_, busy := ?_, idle_ready := ?_ }
  · rw [← h.placed, hp]
    simp only [onCpu, hidle, Option.toList_none, Option.toList_some, ← Multiset.singleton_add,
      Multiset.coe_nil, Multiset.coe_singleton]
    abel
  · -- after a gap the job starts when it arrives, since it would have been started before
    refine .snoc h.timeline (h.idle hidle) hr
      (h.arrived p (h.notMem_pending_of_ready hmem)) ?_ fun hgap => ?_
    · have := h.accounted p
      dsimp only
      omega
    · exact ⟨(h.idle_ready hidle hgap p hmem).symm,
        fun q hq => h.served_before_dispatch hidle hgap hq⟩
  · intro q
    have := h.accounted q
    by_cases hq : q = p
    · subst hq
      simp only [Function.update_self, served_snoc, if_true]
      omega
    · simp only [hleft q hq, served_snoc, if_neg (Ne.symm hq)]
      omega
  · intro q
    by_cases hq : q = p
    · subst hq
      simp only [Function.update_self]
      omega
    · simpa only [hleft q hq] using h.left_nonneg q
  · intro q hq
    refine ⟨(h.pending_fresh q hq).1, fun d hd => ?_⟩
    rcases List.mem_append.mp hd with hd | hd
    · exact (h.pending_fresh q hq).2 d hd
    · rw [List.mem_singleton.mp hd]
      rintro rfl
      exact h.notMem_pending_of_ready hmem hq
  · intro q hq
    have hne : q ≠ p := by
      rintro rfl
      exact h.notMem_finished_of_ready hmem hq
    obtain ⟨hzero, d, hd, hdq⟩ := h.finished_done q hq
    exact ⟨by simpa only [hleft q hne] using hzero, d, List.mem_append_left _ hd, hdq⟩
  · intro q hq
    exact ⟨⟨p, c.now, r⟩, by simp, Option.some.inj hq⟩
  · exact fun hr => absurd hr (by simp)
  · intro _
    rw [frontier_snoc]
    unfold Segment.stop
    dsimp only
    omega
  · exact fun hr => absurd hr (by simp)

theorem step (h : Inv arrival burst c) (hstep : Step arrival c c') : Inv arrival burst c' := by
  cases hstep with
  | advance t hle hpending hbusy hidle => exact h.advance hle hpending hbusy hidle
  | arrive p pending hp harrival => exact h.arrive hp harrival
  | stop p hp hend _ => exact h.stop hp hend
  | finish p hp hend hleft => exact h.finish hp hend hleft
  | dispatch p ready r hidle hp hr hle _ => exact h.dispatch hidle hp hr hle

theorem steps (h : Inv arrival burst c) (hsteps : Steps arrival c c') : Inv arrival burst c' := by
  induction hsteps with
  | refl => exact h
  | tail _ hstep ih => exact ih.step hstep

end Inv

/-- The service still owed, and the ready jobs that are owed none but are not yet finished. -/
def owed (c : Cpu P) : ℕ :=
  (∑ p, c.left p).toNat + (c.ready.filter fun p => c.left p = 0).card

def progress (c : Cpu P) : ℕ ×ₗ ℕ ×ₗ ℕ :=
  toLex (c.pending.card, toLex (Fintype.card P - c.finished.card, c.owed))

omit [DecidableEq P] in
theorem progress_arrive {c : Cpu P} {p : P} {pending : Multiset P} (hp : c.pending = p ::ₘ pending)
    (ready : Multiset P) : ({ c with pending := pending, ready := ready } : Cpu P).progress < c.progress := by
  refine Prod.Lex.toLex_lt_toLex.mpr (.inl ?_)
  simp [hp]

theorem progress_finish {c : Cpu P} (h : Inv arrival burst c) {p : P} (hp : c.running = some p) :
    ({ c with running := none, finished := p ::ₘ c.finished } : Cpu P).progress < c.progress := by
  refine Prod.Lex.toLex_lt_toLex.mpr (.inr ⟨rfl, Prod.Lex.toLex_lt_toLex.mpr (.inl ?_)⟩)
  have hcard := congrArg Multiset.card h.placed
  simp only [Multiset.card_add, onCpu, hp, Option.toList_some, Multiset.coe_singleton,
    Multiset.card_singleton, Finset.card_val, Finset.card_univ] at hcard
  simp only [Multiset.card_cons]
  omega

omit [DecidableEq P] in
theorem owed_stop {c : Cpu P} {p : P} (hleft : 0 < c.left p) (running : Option P) :
    ({ c with running := running, ready := p ::ₘ c.ready } : Cpu P).owed = c.owed := by
  simp only [owed, Multiset.filter_cons_of_neg (p := fun q => c.left q = 0) c.ready hleft.ne']

theorem owed_dispatch {c : Cpu P} (h : Inv arrival burst c) {p : P} {ready : Multiset P} {r : ℤ}
    (hp : c.ready = p ::ₘ ready) (hr : 0 ≤ r) (hle : r ≤ c.left p)
    (hprogress : r = 0 → c.left p = 0) (running : Option P) (log : List (Segment P)) :
    ({ c with
      ready := ready
      running := running
      left := Function.update c.left p (c.left p - r)
      log := log } : Cpu P).owed < c.owed := by
  have hnot : p ∉ ready := h.notMem_of_cons_ready hp
  have hsum : ∑ q, Function.update c.left p (c.left p - r) q = ∑ q, c.left q - r := by
    rw [Finset.sum_update_of_mem (Finset.mem_univ p),
      ← Finset.add_sum_erase Finset.univ c.left (Finset.mem_univ p), Finset.sdiff_singleton_eq_erase]
    abel
  -- the other ready jobs have as much left as before
  have hfilter : (ready.filter fun q => Function.update c.left p (c.left p - r) q = 0) =
      ready.filter fun q => c.left q = 0 := by
    refine Multiset.filter_congr fun q hq => ?_
    have hne : q ≠ p := fun he => hnot (he ▸ hq)
    rw [Function.update_of_ne hne]
  have hle' : c.left p ≤ ∑ q, c.left q :=
    Finset.single_le_sum (fun q _ => h.left_nonneg q) (Finset.mem_univ p)
  simp only [owed, hsum, hfilter, hp]
  by_cases hzero : c.left p = 0
  · rw [Multiset.filter_cons_of_pos (p := fun q => c.left q = 0) ready hzero, Multiset.card_cons]
    omega
  · rw [Multiset.filter_cons_of_neg (p := fun q => c.left q = 0) ready hzero]
    have : r ≠ 0 := fun hr0 => hzero (hprogress hr0)
    omega

theorem progress_le {c c' : Cpu P} (h : Inv arrival burst c) (hstep : Step arrival c c') :
    c'.progress ≤ c.progress := by
  cases hstep with
  | advance => exact le_rfl
  | arrive p pending hp _ => exact (progress_arrive hp _).le
  | stop p _ _ hleft =>
    refine Prod.Lex.toLex_le_toLex.mpr (.inr ⟨rfl, Prod.Lex.toLex_le_toLex.mpr (.inr ⟨rfl, ?_⟩)⟩)
    exact (owed_stop hleft none).le
  | finish p hp _ _ => exact (progress_finish h hp).le
  | dispatch p ready r _ hp hr hle hprogress =>
    refine Prod.Lex.toLex_le_toLex.mpr (.inr ⟨rfl, Prod.Lex.toLex_le_toLex.mpr (.inr ⟨rfl, ?_⟩)⟩)
    exact (owed_dispatch h hp hr hle hprogress _ _).le

theorem progress_le_of_steps {c c' : Cpu P} (h : Inv arrival burst c) (hsteps : Steps arrival c c') :
    c'.progress ≤ c.progress := by
  induction hsteps with
  | refl => exact le_rfl
  | tail hs hstep ih => exact (progress_le (h.steps hs) hstep).trans ih

theorem progress_lt_of_steps {c a b c' : Cpu P} (h : Inv arrival burst c)
    (hca : Steps arrival c a) (hab : Step arrival a b) (hlt : b.progress < a.progress)
    (hbc : Steps arrival b c') : Steps arrival c c' ∧ c'.progress < c.progress :=
  ⟨(hca.tail hab).trans hbc, (progress_le_of_steps (h.steps (hca.tail hab)) hbc).trans_lt
    (hlt.trans_le (progress_le_of_steps h hca))⟩

theorem progress_dispatch {c : Cpu P} (h : Inv arrival burst c) {p : P} {ready : Multiset P}
    {r : ℤ} (hp : c.ready = p ::ₘ ready) (hr : 0 ≤ r) (hle : r ≤ c.left p)
    (hprogress : r = 0 → c.left p = 0) :
    ({ c with
      ready := ready
      running := some p
      left := Function.update c.left p (c.left p - r)
      log := c.log ++ [⟨p, c.now, r⟩] } : Cpu P).progress < c.progress :=
  Prod.Lex.toLex_lt_toLex.mpr (.inr ⟨rfl, Prod.Lex.toLex_lt_toLex.mpr (.inr ⟨rfl,
    owed_dispatch h hp hr hle hprogress _ _⟩)⟩)

end Cpu
end OsLab
