import Mathlib.Order.Lattice.Nat
import OsLab.Foundation.Cpu
import OsLab.Foundation.Loop

/-! A CPU that is given away one time unit at a time. Between two units nobody is running, and a job
in the middle of its burst is one of the ready ones. Any loop whose rounds are such ticks is a run of
the CPU; it ends if and only if every job asks for a unit at least. -/

namespace OsLab

structure Ticks (P : Type*) where
  now : ℤ
  pending : Multiset P
  ready : Multiset P
  finished : Multiset P
  left : P → ℤ
  start : P → ℤ
  stop : P → ℤ

namespace Ticks

variable {P : Type*}

/-- The job `p` is picked when everything that has arrived is taken in, and leaves `rest`. The jobs
of `late` are taken in after the unit. -/
structure Picks (arrival : P → ℤ) (t : Ticks P) (p : P) (rest late pending : Multiset P) : Prop where
  split : ∃ taken, t.pending = taken + (late + pending) ∧ (∀ q ∈ taken, arrival q ≤ t.now) ∧
    t.ready + taken = p ::ₘ rest
  unarrived : ∀ q ∈ late + pending, t.now < arrival q
  late_le : ∀ q ∈ late, arrival q ≤ t.now + 1

theorem Picks.mem {arrival : P → ℤ} {t : Ticks P} {p : P} {rest late pending : Multiset P}
    (h : t.Picks arrival p rest late pending) : p ∈ t.pending + t.ready := by
  obtain ⟨taken, hpending, _, hready⟩ := h.split
  have hmem : p ∈ t.ready + taken := hready ▸ Multiset.mem_cons_self p rest
  rw [hpending, Multiset.mem_add, Multiset.mem_add]
  rcases Multiset.mem_add.mp hmem with hp | hp
  · exact .inr hp
  · exact .inl (.inl hp)

theorem Picks.placed {arrival : P → ℤ} {t : Ticks P} {p : P} {rest late pending : Multiset P}
    (h : t.Picks arrival p rest late pending) :
    pending + (p ::ₘ (rest + late)) = t.pending + t.ready := by
  obtain ⟨taken, hpending, _, hready⟩ := h.split
  have hcons : p ::ₘ (rest + late) = t.ready + taken + late := by rw [hready, Multiset.cons_add]
  rw [hcons, hpending]
  abel

variable [DecidableEq P]

def unit (unset : ℤ) (t : Ticks P) (p : P) (ready pending : Multiset P) : Ticks P :=
  { t with
    now := t.now + 1
    pending := pending
    ready := ready
    left := Function.update t.left p (t.left p - 1)
    start := Function.update t.start p (if t.start p = unset then t.now else t.start p) }

/-- One time unit. The start and stop times that are not known yet are `unset`. -/
inductive Tick (arrival : P → ℤ) (unset : ℤ) (t : Ticks P) : Option P → Ticks P → Prop
  | idle (hready : t.ready = 0) (hpending : ∀ p ∈ t.pending, t.now < arrival p) :
    Tick arrival unset t none { t with now := t.now + 1 }
  | goOn (p : P) (rest late pending : Multiset P) (hp : t.Picks arrival p rest late pending)
    (hleft : t.left p ≠ 1) :
    Tick arrival unset t (some p) (t.unit unset p (p ::ₘ (rest + late)) pending)
  | finish (p : P) (rest late pending : Multiset P) (hp : t.Picks arrival p rest late pending)
    (hleft : t.left p = 1) :
    Tick arrival unset t (some p)
      { t.unit unset p (rest + late) pending with
        finished := p ::ₘ t.finished
        stop := Function.update t.stop p (t.now + 1) }

variable {arrival burst : P → ℤ} {unset : ℤ} {t t' : Ticks P} {ran : Option P}

def segments (t : Ticks P) (ran : Option P) : List (Segment P) := ran.toList.map (⟨·, t.now, 1⟩)

def cpu (t : Ticks P) (log : List (Segment P)) : Cpu P :=
  ⟨t.now, t.pending, t.ready, none, t.finished, t.left, log⟩

theorem arrive_steps {c : Cpu P} (taken : Multiset P) {pending : Multiset P}
    (hp : c.pending = taken + pending) (harrival : ∀ q ∈ taken, arrival q = c.now) :
    Cpu.Steps arrival c { c with pending := pending, ready := c.ready + taken } := by
  induction taken using Multiset.induction generalizing c with
  | empty =>
    rw [zero_add] at hp
    rw [add_zero, ← hp]
    exact .refl
  | cons q taken ih =>
    have hstep : Cpu.Step arrival c { c with pending := taken + pending, ready := q ::ₘ c.ready } :=
      .arrive q _ (by rw [hp, Multiset.cons_add]) (harrival q (Multiset.mem_cons_self q taken))
    have hrest := ih (c := { c with pending := taken + pending, ready := q ::ₘ c.ready }) rfl
      fun r hr => harrival r (Multiset.mem_cons_of_mem hr)
    rw [Multiset.add_cons, ← Multiset.cons_add]
    exact .head hstep hrest

theorem charge_le (h : ∀ q, t.left q ≤ burst q) (p q : P) :
    Function.update t.left p (t.left p - 1) q ≤ burst q := by
  rcases eq_or_ne q p with rfl | hq
  · rw [Function.update_self]
    have hle := h q
    omega
  · rw [Function.update_of_ne hq]
    exact h q

def Owed (t : Ticks P) : Prop := ∀ p ∈ t.pending + t.ready, 1 ≤ t.left p

variable [Fintype P] {log : List (Segment P)}

theorem Picks.steps {p : P} {rest late pending : Multiset P} (h : t.Picks arrival p rest late pending)
    (hinv : Cpu.Inv arrival burst (t.cpu log)) (howed : 1 ≤ t.left p) :
    Cpu.Steps arrival (t.cpu log)
      ⟨t.now + 1, pending, rest + late, some p, t.finished,
        Function.update t.left p (t.left p - 1), log ++ [⟨p, t.now, 1⟩]⟩ := by
  obtain ⟨taken, hpending, htaken, hready⟩ := h.split
  have hnow : ∀ q ∈ t.pending, t.now ≤ arrival q := fun q hq => (hinv.pending_fresh q hq).1
  have hscan := arrive_steps (c := t.cpu log) taken hpending fun q hq =>
    (htaken q hq).antisymm (hnow q (hpending ▸ Multiset.mem_add.mpr (.inl hq)))
  have hdispatch : Cpu.Step arrival
      { t.cpu log with pending := late + pending, ready := t.ready + taken }
      ⟨t.now, late + pending, rest, some p, t.finished,
        Function.update t.left p (t.left p - 1), log ++ [⟨p, t.now, 1⟩]⟩ :=
    .dispatch p rest 1 rfl hready Int.one_nonneg howed fun hzero => absurd hzero one_ne_zero
  have hfrontier : frontier (log ++ [⟨p, t.now, 1⟩]) = t.now + 1 := frontier_snoc log _
  have hadvance : Cpu.Step arrival
      ⟨t.now, late + pending, rest, some p, t.finished,
        Function.update t.left p (t.left p - 1), log ++ [⟨p, t.now, 1⟩]⟩
      ⟨t.now + 1, late + pending, rest, some p, t.finished,
        Function.update t.left p (t.left p - 1), log ++ [⟨p, t.now, 1⟩]⟩ :=
    .advance (t.now + 1) (Int.le_add_one le_rfl) (fun q hq => h.unarrived q hq)
      (fun _ => hfrontier.ge) fun hnone => absurd hnone (Option.some_ne_none p)
  have hlate := arrive_steps
    (c := ⟨t.now + 1, late + pending, rest, some p, t.finished,
      Function.update t.left p (t.left p - 1), log ++ [⟨p, t.now, 1⟩]⟩) late rfl
    fun q hq => (h.late_le q hq).antisymm (h.unarrived q (Multiset.mem_add.mpr (.inl hq)))
  exact ((hscan.tail hdispatch).tail hadvance).trans hlate

theorem Tick.steps (h : Tick arrival unset t ran t') (hinv : Cpu.Inv arrival burst (t.cpu log))
    (howed : t.Owed) : Cpu.Steps arrival (t.cpu log) (t'.cpu (log ++ t.segments ran)) := by
  cases h with
  | idle hready hpending =>
    rw [segments, Option.toList_none, List.map_nil, List.append_nil]
    exact .single (.advance (t.now + 1) (Int.le_add_one le_rfl) hpending
      (fun hrun => absurd rfl hrun) fun _ => hready)
  | goOn p rest late pending hp hleft =>
    have hunit := hp.steps hinv (howed p hp.mem)
    have howed := howed p hp.mem
    refine hunit.tail (.stop p rfl (frontier_snoc log _) ?_)
    show 0 < Function.update t.left p (t.left p - 1) p
    rw [Function.update_self]
    omega
  | finish p rest late pending hp hleft =>
    have hunit := hp.steps hinv (howed p hp.mem)
    refine hunit.tail (.finish p rfl (frontier_snoc log _) ?_)
    show Function.update t.left p (t.left p - 1) p = 0
    rw [Function.update_self, hleft, sub_self]

/-- Where the jobs are. Only a job that asked for a unit can have come to its end. -/
structure Placed (burst : P → ℤ) (t : Ticks P) : Prop where
  placed : t.pending + t.ready + t.finished = Finset.univ.val
  left_le : ∀ p, t.left p ≤ burst p
  finished_pos : ∀ p ∈ t.finished, 1 ≤ burst p
  finished_left : ∀ p ∈ t.finished, t.left p = 0

omit [DecidableEq P] in
theorem Placed.notMem_finished (h : t.Placed burst) {p : P} (hp : p ∈ t.pending + t.ready) :
    p ∉ t.finished := by
  have hnodup := h.placed ▸ Finset.univ.nodup
  exact fun hfinished => Multiset.disjoint_left.mp (Multiset.nodup_add.mp hnodup).2.2 hp hfinished

theorem Tick.placed (h : Tick arrival unset t ran t') (hp : t.Placed burst) : t'.Placed burst := by
  cases h with
  | idle hready hpending => exact ⟨hp.placed, hp.left_le, hp.finished_pos, hp.finished_left⟩
  | goOn p rest late pending hpick hleft =>
    refine ⟨?_, charge_le hp.left_le p, hp.finished_pos, fun q hq => ?_⟩
    · show pending + (p ::ₘ (rest + late)) + t.finished = _
      rw [hpick.placed, hp.placed]
    · have hne : q ≠ p := fun heq => hp.notMem_finished hpick.mem (heq ▸ hq)
      exact (Function.update_of_ne hne ..).trans (hp.finished_left q hq)
  | finish p rest late pending hpick hleft =>
    refine ⟨?_, charge_le hp.left_le p, fun q hq => ?_, fun q hq => ?_⟩
    · show pending + (rest + late) + p ::ₘ t.finished = _
      rw [← hp.placed, ← hpick.placed, Multiset.add_cons, Multiset.add_cons, Multiset.cons_add]
    · rcases Multiset.mem_cons.mp hq with rfl | hq
      · exact hleft.symm.le.trans (hp.left_le q)
      · exact hp.finished_pos q hq
    · rcases Multiset.mem_cons.mp hq with rfl | hq
      · exact (Function.update_self ..).trans (by rw [hleft, sub_self])
      · have hne : q ≠ p := fun heq => hp.notMem_finished hpick.mem (heq ▸ hq)
        exact (Function.update_of_ne hne ..).trans (hp.finished_left q hq)

theorem Tick.owed (h : Tick arrival unset t ran t') (hp : t.Placed burst) (howed : t.Owed) :
    t'.Owed := by
  -- the jobs that are not finished are listed once each
  have hnodup : (t.pending + t.ready).Nodup := by
    have hall := hp.placed ▸ Finset.univ.nodup
    exact (Multiset.nodup_add.mp hall).1
  cases h with
  | idle hready hpending => exact howed
  | goOn p rest late pending hpick hleft =>
    intro q hq
    have hmem : q ∈ t.pending + t.ready := hpick.placed ▸ hq
    have hone := howed q hmem
    rcases eq_or_ne q p with rfl | hne
    · show 1 ≤ Function.update t.left q (t.left q - 1) q
      rw [Function.update_self]
      omega
    · show 1 ≤ Function.update t.left p (t.left p - 1) q
      rwa [Function.update_of_ne hne]
  | finish p rest late pending hpick hleft =>
    intro q hq
    rw [← hpick.placed, Multiset.add_cons, Multiset.nodup_cons] at hnodup
    have hne : q ≠ p := fun heq => hnodup.1 (heq ▸ hq)
    have hmem : q ∈ t.pending + t.ready := by
      rw [← hpick.placed, Multiset.add_cons]
      exact Multiset.mem_cons_of_mem hq
    show 1 ≤ Function.update t.left p (t.left p - 1) q
    rw [Function.update_of_ne hne]
    exact howed q hmem

/-- The units given away so far are a run of the CPU, and the stamps are those of the first and of
the last unit of each job. -/
structure Inv (arrival burst : P → ℤ) (unset : ℤ) (t : Ticks P) (log : List (Segment P)) : Prop
    extends t.Placed burst where
  cpu : Cpu.Inv arrival burst (t.cpu log)
  owed : t.Owed
  start : ∀ p, t.start p = ((own log p).head?.map Segment.start).getD unset
  stop : ∀ p ∈ t.finished, ∃ d ∈ (own log p).getLast?, t.stop p = d.stop

theorem Inv.unit_start (h : Inv arrival burst unset t log) (hunset : unset < 0)
    (harrival : ∀ p, 0 ≤ arrival p) (p q : P) :
    Function.update t.start p (if t.start p = unset then t.now else t.start p) q =
      ((own (log ++ [⟨p, t.now, 1⟩]) q).head?.map Segment.start).getD unset := by
  have hstart := h.start q
  rcases eq_or_ne q p with rfl | hq
  · rw [Function.update_self, own_snoc_self _ ⟨q, t.now, 1⟩, List.head?_append]
    cases hown : (own log q).head? with
    | none =>
      have hnone : t.start q = unset := by rw [hstart, hown]; rfl
      rw [if_pos hnone]
      rfl
    | some d =>
      rw [hown] at hstart
      have hd : d ∈ log := (List.mem_filter.mp (List.mem_of_head? hown)).1
      have hge := (harrival _).trans (h.cpu.timeline.arrival_le d hd)
      have hne : t.start q ≠ unset := by
        rw [hstart]
        exact (hunset.trans_le hge).ne'
      rw [if_neg hne, hstart]
      rfl
  · rw [Function.update_of_ne hq, own_snoc_of_ne (d := ⟨p, t.now, 1⟩) hq.symm, hstart]

theorem Inv.tick (h : Inv arrival burst unset t log) (hunset : unset < 0)
    (harrival : ∀ p, 0 ≤ arrival p) (ht : Tick arrival unset t ran t') :
    Inv arrival burst unset t' (log ++ t.segments ran) := by
  have hcpu := h.cpu.steps (ht.steps h.cpu h.owed)
  refine ⟨ht.placed h.toPlaced, hcpu, ht.owed h.toPlaced h.owed, ?_, ?_⟩
  · cases ht with
    | idle hready hpending =>
      rw [segments, Option.toList_none, List.map_nil, List.append_nil]
      exact h.start
    | goOn p rest late pending hpick hleft => exact h.unit_start hunset harrival p
    | finish p rest late pending hpick hleft => exact h.unit_start hunset harrival p
  · cases ht with
    | idle hready hpending =>
      rw [segments, Option.toList_none, List.map_nil, List.append_nil]
      exact h.stop
    | goOn p rest late pending hpick hleft =>
      intro q hq
      have hne : q ≠ p := by
        rintro rfl
        have hdone := (h.cpu.finished_done q hq).1
        have hone := h.owed q hpick.mem
        exact absurd hdone (Int.lt_of_lt_of_le Int.one_pos hone).ne'
      show ∃ d ∈ (own (log ++ [⟨p, t.now, 1⟩]) q).getLast?, t.stop q = d.stop
      rw [own_snoc_of_ne (d := ⟨p, t.now, 1⟩) hne.symm]
      exact h.stop q hq
    | finish p rest late pending hpick hleft =>
      intro q hq
      show ∃ d ∈ (own (log ++ [⟨p, t.now, 1⟩]) q).getLast?,
        Function.update t.stop p (t.now + 1) q = d.stop
      rcases eq_or_ne q p with rfl | hne
      · rw [own_snoc_self _ ⟨q, t.now, 1⟩, List.getLast?_concat, Function.update_self]
        exact ⟨_, rfl, rfl⟩
      · rw [own_snoc_of_ne (d := ⟨p, t.now, 1⟩) hne.symm, Function.update_of_ne hne]
        exact h.stop q ((Multiset.mem_cons.mp hq).resolve_left hne)

theorem Inv.stop_le (h : Inv arrival burst unset t log) {p : P} (hp : p ∈ t.finished) :
    t.stop p ≤ frontier log := by
  obtain ⟨d, hd, hstop⟩ := h.stop p hp
  rw [hstop]
  exact h.cpu.timeline.stop_le_frontier d (List.mem_filter.mp (List.mem_of_getLast? hd)).1

theorem Inv.start_nonneg (h : Inv arrival burst unset t log) (harrival : ∀ p, 0 ≤ arrival p) {p : P}
    (hp : p ∈ t.finished) : 0 ≤ t.start p := by
  obtain ⟨d, hd, -⟩ := h.stop p hp
  obtain ⟨e, he⟩ : ∃ e, (own log p).head? = some e :=
    Option.ne_none_iff_exists'.mp
      (mt List.head?_eq_none_iff.mp (List.ne_nil_of_mem (List.mem_of_getLast? hd)))
  have hmem : e ∈ log := (List.mem_filter.mp (List.mem_of_head? he)).1
  rw [h.start p, he]
  exact (harrival _).trans (h.cpu.timeline.arrival_le e hmem)

theorem Inv.exists_stop (h : Inv arrival burst unset t log) (hne : log ≠ [])
    (hall : ∀ p, p ∈ t.finished) : ∃ p, t.stop p = frontier log := by
  obtain ⟨init, d, rfl⟩ := (List.eq_nil_or_concat log).resolve_left hne
  obtain ⟨d', hd', hstop⟩ := h.stop d.process (hall d.process)
  refine ⟨d.process, hstop.trans ?_⟩
  rw [own, List.concat_eq_append, List.filter_append, List.filter_cons_of_pos (by simp),
    List.filter_nil, List.getLast?_concat] at hd'
  rw [List.concat_eq_append, frontier_snoc, Option.some.inj hd']

def init (burst : P → ℤ) (unset : ℤ) : Ticks P where
  now := 0
  pending := Finset.univ.val
  ready := 0
  finished := 0
  left := burst
  start _ := unset
  stop _ := unset

omit [DecidableEq P] in
theorem init_placed (burst : P → ℤ) (unset : ℤ) : (init burst unset).Placed burst :=
  ⟨by simp [init], fun _ => le_rfl, fun p hp => absurd hp (Multiset.notMem_zero p),
    fun p hp => absurd hp (Multiset.notMem_zero p)⟩

theorem init_inv (harrival : ∀ p, 0 ≤ arrival p) (hburst : ∀ p, 1 ≤ burst p) :
    Inv arrival burst unset (init burst unset) [] where
  toPlaced := init_placed burst unset
  cpu := Cpu.init_inv harrival fun p => Int.one_nonneg.trans (hburst p)
  owed p _ := hburst p
  start _ := rfl
  stop p hp := absurd hp (Multiset.notMem_zero p)

omit [DecidableEq P] in
theorem Placed.mem_finished (h : t.Placed burst) (hall : Fintype.card P ≤ t.finished.card) (p : P) :
    p ∈ t.finished := by
  have hle : t.finished ≤ Finset.univ.val := h.placed ▸ Multiset.le_add_left _ _
  rw [Multiset.eq_of_le_of_card_le hle hall]
  exact Finset.mem_univ_val p

def toCome (arrival : P → ℤ) (t : Ticks P) : ℕ :=
  ∑ p, (t.left p).toNat + (Finset.univ.sup (fun p => (arrival p).toNat) - t.now).toNat

theorem sum_charge_lt {p : P} (hp : 1 ≤ t.left p) :
    ∑ q, (Function.update t.left p (t.left p - 1) q).toNat < ∑ q, (t.left q).toNat := by
  refine Finset.sum_lt_sum (fun q _ => ?_) ⟨p, Finset.mem_univ p, ?_⟩
  · rcases eq_or_ne q p with rfl | hq
    · rw [Function.update_self]
      omega
    · rw [Function.update_of_ne hq]
  · rw [Function.update_self]
    omega

theorem Tick.toCome_lt (h : Tick arrival unset t ran t') (hp : t.Placed burst) (howed : t.Owed)
    (hgoing : t.finished.card < Fintype.card P) : t'.toCome arrival < t.toCome arrival := by
  unfold toCome
  cases h with
  | idle hready hpending =>
    have hcard := congrArg Multiset.card hp.placed
    rw [hready, add_zero, Multiset.card_add, Finset.card_val, Finset.card_univ] at hcard
    have hsome : 0 < t.pending.card := by omega
    obtain ⟨p, hmem⟩ := Multiset.card_pos_iff_exists_mem.mp hsome
    have hlate := hpending p hmem
    have hlast : arrival p ≤ (Finset.univ.sup fun p => (arrival p).toNat : ℕ) :=
      Int.toNat_le.mp (Finset.le_sup (f := fun p => (arrival p).toNat) (Finset.mem_univ p))
    dsimp only
    omega
  | goOn p rest late pending hpick hleft =>
    have hsum := sum_charge_lt (howed p hpick.mem)
    dsimp only [unit]
    omega
  | finish p rest late pending hpick hleft =>
    have hsum := sum_charge_lt (howed p hpick.mem)
    dsimp only [unit]
    omega

end Ticks

open Ticks

section Ticking

variable {P σ : Type*} [DecidableEq P] [Fintype P]

/-- The rounds of a loop are ticks of what `views` sees of its states, and it ends when everybody
has finished. -/
structure Ticking (arrival : P → ℤ) (unset : ℤ) (body : σ → Option σ) (now : σ → ℤ)
    (runs : σ → Option P) (views : σ → Ticks P → Prop) : Prop where
  tick : ∀ {s s' t}, views s t → body s = some s' →
    ∃ t', Tick arrival unset t (runs s) t' ∧ views s' t'
  ended : ∀ {s t}, views s t → (body s = none ↔ Fintype.card P ≤ t.finished.card)
  runs_ended : ∀ {s}, body s = none → runs s = none
  now : ∀ {s t}, views s t → t.now = now s

namespace Ticking

variable {arrival burst : P → ℤ} {unset : ℤ} {body : σ → Option σ} {now : σ → ℤ}
  {runs : σ → Option P} {views : σ → Ticks P → Prop} {s s' : σ}

theorem reaches_views (h : Ticking arrival unset body now runs views)
    (hstart : views s (init burst unset)) (hr : Loop.Reaches body s s') :
    ∃ t, views s' t ∧ t.Placed burst :=
  hr.invariant (fun s => ∃ t, views s t ∧ t.Placed burst)
    (fun _ _ hb ⟨_, hv, hp⟩ =>
      let ⟨t', ht, hv'⟩ := h.tick hv hb
      ⟨t', hv', ht.placed hp⟩)
    ⟨_, hstart, init_placed burst unset⟩

theorem terminates (h : Ticking arrival unset body now runs views) {t : Ticks P} (hv : views s t)
    (hp : t.Placed burst) (howed : t.Owed) : Loop.Terminates body s := by
  induction hk : t.toCome arrival using Nat.strongRecOn generalizing s t with
  | ind k ih =>
    cases hb : body s with
    | none => exact ⟨1, s, by simp only [Loop.run, hb]⟩
    | some s' =>
      obtain ⟨t', ht, hv'⟩ := h.tick hv hb
      have hgoing : t.finished.card < Fintype.card P := by
        refine Nat.lt_of_not_le fun hall => ?_
        rw [(h.ended hv).mpr hall] at hb
        cases hb
      have hlt := ht.toCome_lt hp howed hgoing
      have hrest := ih _ (hk ▸ hlt) hv' (ht.placed hp) (ht.owed hp howed) rfl
      exact Loop.Reaches.terminates (.single hb) hrest

theorem terminates_iff (h : Ticking arrival unset body now runs views)
    (hstart : views s (init burst unset)) :
    Loop.Terminates body s ↔ ∀ p, 1 ≤ burst p := by
  constructor
  · rintro ⟨fuel, s', hrun⟩ p
    obtain ⟨hreach, hend⟩ := Loop.run_reaches hrun
    obtain ⟨t, hv, hp⟩ := h.reaches_views hstart hreach
    exact hp.finished_pos p (hp.mem_finished ((h.ended hv).mp hend) p)
  · exact fun hburst => h.terminates hstart (init_placed burst unset) fun p _ => hburst p

/-- The time units that the rounds reached from `s` give away. -/
def units (body : σ → Option σ) (now : σ → ℤ) (runs : σ → Option P) (s : σ) : Set ℤ :=
  {u | ∃ a, Loop.Reaches body s a ∧ now a = u ∧ (runs a).isSome}

theorem segments_units (h : Ticking arrival unset body now runs views) {t : Ticks P}
    (hv : views s' t) (hr : Loop.Reaches body s s') :
    ∀ d ∈ t.segments (runs s'), d.length = 1 ∧ d.start ∈ units body now runs s := by
  intro d hd
  obtain ⟨p, hp, rfl⟩ := List.mem_map.mp hd
  refine ⟨rfl, s', hr, (h.now hv).symm, ?_⟩
  rw [Option.mem_toList.mp hp]
  rfl

theorem reaches_inv (h : Ticking arrival unset body now runs views) (hunset : unset < 0)
    (harrival : ∀ p, 0 ≤ arrival p) {t : Ticks P} {log : List (Segment P)} (hv : views s t)
    (hinv : Inv arrival burst unset t log) (hr : Loop.Reaches body s s') :
    ∃ t' log', views s' t' ∧ Inv arrival burst unset t' (log ++ log') ∧
      ∀ d ∈ log', d.length = 1 ∧ d.start ∈ units body now runs s := by
  induction hr with
  | refl => exact ⟨t, [], hv, (List.append_nil log).symm ▸ hinv, fun _ hd => absurd hd List.not_mem_nil⟩
  | @tail a b hra hb ih =>
    obtain ⟨t', log', hv', hinv', hunits⟩ := ih
    obtain ⟨t'', ht, hv''⟩ := h.tick hv' hb
    refine ⟨t'', log' ++ t'.segments (runs a), hv'', ?_, fun d hd => ?_⟩
    · rw [← List.append_assoc]
      exact hinv'.tick hunset harrival ht
    · rcases List.mem_append.mp hd with hd | hd
      · exact hunits d hd
      · exact h.segments_units hv' hra d hd

variable {fuel : ℕ} (h : Ticking arrival unset body now runs views) (hunset : unset < 0)
  (harrival : ∀ p, 0 ≤ arrival p) (hburst : ∀ p, 1 ≤ burst p) (hstart : views s (init burst unset))
  (hrun : Loop.run body fuel s = some s')
include h hunset harrival hburst hstart hrun

theorem exists_log : ∃ t log, views s' t ∧ Inv arrival burst unset t log ∧ (∀ p, p ∈ t.finished) ∧
    frontier log = now s' ∧ ∀ d ∈ log, d.length = 1 ∧ d.start ∈ units body now runs s := by
  obtain ⟨hreach, hend⟩ := Loop.run_reaches hrun
  cases hreach with
  | refl =>
    have hinv : Inv arrival burst unset _ _ := init_inv harrival hburst
    exact ⟨_, [], hstart, hinv, hinv.mem_finished ((h.ended hstart).mp hend), h.now hstart,
      fun _ hd => absurd hd List.not_mem_nil⟩
  | @tail a _ hra hb =>
    obtain ⟨t, log, hv, hinv, hlog⟩ :=
      h.reaches_inv hunset harrival hstart (init_inv harrival hburst) hra
    obtain ⟨t', ht, hv'⟩ := h.tick hv hb
    have hinv' := hinv.tick hunset harrival ht
    have hall := (h.ended hv').mp hend
    have hgoing : ¬ Fintype.card P ≤ t.finished.card := fun hall => by
      rw [(h.ended hv).mpr hall] at hb
      cases hb
    refine ⟨t', _, hv', hinv', hinv'.mem_finished hall, ?_, fun d hd => ?_⟩
    · rw [← h.now hv']
      cases hran : runs a with
      | none =>
        rw [hran] at ht
        cases ht
        exact absurd hall hgoing
      | some p =>
        rw [hran] at ht
        have hnow : t'.now = t.now + 1 := by cases ht <;> rfl
        rw [hnow]
        exact frontier_snoc _ _
    · rcases List.mem_append.mp hd with hd | hd
      · exact hlog d hd
      · exact h.segments_units hv hra d hd

theorem complete : ∃ t log, views s' t ∧ Inv arrival burst unset t log ∧ (∀ p, p ∈ t.finished) ∧
    frontier log = now s' ∧ (∀ p, served log p = burst p) ∧ busy log = units body now runs s := by
  have hserved : ∀ {t : Ticks P} {log : List (Segment P)}, Inv arrival burst unset t log →
      (∀ p, p ∈ t.finished) → ∀ p, served log p = burst p := by
    intro t log hinv hall p
    have haccounted := hinv.cpu.accounted p
    rwa [(hinv.cpu.finished_done p (hall p)).1, zero_add] at haccounted
  obtain ⟨t, log, hv, hinv, hall, hfrontier, hlog⟩ :=
    h.exists_log hunset harrival hburst hstart hrun
  refine ⟨t, log, hv, hinv, hall, hfrontier, hserved hinv hall, Set.Subset.antisymm ?_ ?_⟩
  · rintro u ⟨d, hd, hlo, hhi⟩
    obtain ⟨hone, hmem⟩ := hlog d hd
    unfold Segment.stop at hhi
    have hu : u = d.start := by omega
    exact hu ▸ hmem
  · rintro u ⟨a, hra, rfl, hsome⟩
    -- a log of the same run that passes through the round from `a`
    obtain ⟨p, hp⟩ := Option.isSome_iff_exists.mp hsome
    obtain ⟨b, hb⟩ := Option.ne_none_iff_exists'.mp fun hb =>
      absurd ((h.runs_ended hb).symm.trans hp) (Option.some_ne_none p).symm
    obtain ⟨ta, la, hva, hia, -⟩ :=
      h.reaches_inv hunset harrival hstart (init_inv harrival hburst) hra
    obtain ⟨tb, ht, hvb⟩ := h.tick hva hb
    obtain ⟨t', l', hv', hinv', -⟩ := h.reaches_inv hunset harrival hvb
      (hia.tick hunset harrival ht) (Loop.Reaches.of_run (hra.tail hb) hrun)
    have hall' := hinv'.mem_finished ((h.ended hv').mp (Loop.run_reaches hrun).2)
    have hbusy : busy log = busy ([] ++ la ++ ta.segments (runs a) ++ l') :=
      hinv.cpu.timeline.busy_unique harrival hinv'.cpu.timeline (hserved hinv hall)
        (hserved hinv' hall')
    rw [hbusy]
    refine ⟨⟨p, ta.now, 1⟩, ?_, (h.now hva).le, ?_⟩
    · rw [hp]
      exact List.mem_append_left _ (List.mem_append_right _ (List.mem_singleton_self _))
    · rw [← h.now hva]
      exact Int.lt_add_one_of_le le_rfl

end Ticking
end Ticking
end OsLab
