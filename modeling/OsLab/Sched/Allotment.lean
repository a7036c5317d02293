import OsLab.Sched.Boost
import OsLab.Sched.MlfqRules

/-! How much of a level's allotment a process uses. `schedule_mlfq` reads the allotment but gives a
whole quantum, and `mlfq_check_demotion` looks at it only when the quantum is over: a process stays
on its level for as many whole quantums as it takes to reach the allotment. -/

namespace OsLab.Sched

variable {n : Nat} {config : MLFQConfig} {hpos : 0 < config.numLevels} {w : Workload n}

/-- A level that no process is demoted from, or at which the first dispatch runs it to its end. -/
def Unlimited (config : MLFQConfig) (level : Nat) : Prop :=
  config.numLevels ≤ level + 1 ∨ mlfqGetQuantum config level = -1 ∨
    mlfqGetAllotment config level = -1

instance (config : MLFQConfig) (level : Nat) : Decidable (Unlimited config level) :=
  inferInstanceAs (Decidable (_ ∨ _ ∨ _))

def levelCap (config : MLFQConfig) (level : Nat) : Int :=
  let quantum := mlfqGetQuantum config level
  quantum * max 1 ((mlfqGetAllotment config level + quantum - 1) / quantum)

def levelShare (config : MLFQConfig) (level : Nat) (work : Int) : Int :=
  if Unlimited config level then work else min work (levelCap config level)

/-- What a process has left to do when it comes to the level, 0 if it does not come that far. -/
def workAt (config : MLFQConfig) (burst : Int) : (level : Nat) → Int
  | 0 => burst
  | level + 1 => workAt config burst level - levelShare config level (workAt config burst level)

def QuantumsValid (config : MLFQConfig) : Prop :=
  ∀ level, mlfqGetQuantum config level = -1 ∨ 1 ≤ mlfqGetQuantum config level

theorem quantum_of_limited (hvalid : QuantumsValid config) {level : Nat}
    (h : ¬ Unlimited config level) : 1 ≤ mlfqGetQuantum config level := by
  have := hvalid level
  unfold Unlimited at h
  omega

theorem quantum_le_levelCap (hvalid : QuantumsValid config) {level : Nat}
    (h : ¬ Unlimited config level) :
    mlfqGetQuantum config level ≤ levelCap config level := by
  have hq := quantum_of_limited hvalid h
  exact le_mul_of_one_le_right (by omega) (le_max_left 1 _)

theorem dvd_levelCap (config : MLFQConfig) (level : Nat) :
    mlfqGetQuantum config level ∣ levelCap config level := Int.dvd_mul_right ..

theorem allotment_le_levelCap (hvalid : QuantumsValid config) {level : Nat}
    (h : ¬ Unlimited config level) :
    mlfqGetAllotment config level ≤ levelCap config level := by
  have hq := quantum_of_limited hvalid h
  have hround := Int.lt_ediv_add_one_mul_self
    (mlfqGetAllotment config level + mlfqGetQuantum config level - 1)
    (show 0 < mlfqGetQuantum config level by omega)
  have hmax : mlfqGetQuantum config level *
      ((mlfqGetAllotment config level + mlfqGetQuantum config level - 1) /
        mlfqGetQuantum config level) ≤ levelCap config level :=
    Int.mul_le_mul_of_nonneg_left (le_max_right 1 _) (by omega)
  rw [add_mul, one_mul, mul_comm] at hround
  omega

theorem levelCap_le (hvalid : QuantumsValid config) {level : Nat} (h : ¬ Unlimited config level)
    {time : Int} (hpos : 0 < time) (hdvd : mlfqGetQuantum config level ∣ time)
    (hreached : mlfqGetAllotment config level ≤ time) : levelCap config level ≤ time := by
  have hq := quantum_of_limited hvalid h
  obtain ⟨k, rfl⟩ := hdvd
  have hk : 0 < k := (mul_pos_iff_of_pos_left (by omega)).mp hpos
  refine Int.mul_le_mul_of_nonneg_left (max_le hk ?_) (by omega)
  rw [Int.ediv_le_iff_le_mul (by omega), mul_comm k]
  omega

theorem levelShare_le (config : MLFQConfig) (level : Nat) (work : Int) :
    levelShare config level work ≤ work := by
  unfold levelShare
  split_ifs
  · exact le_rfl
  · exact min_le_left ..

theorem levelShare_nonneg (hvalid : QuantumsValid config) (level : Nat) {work : Int}
    (hwork : 0 ≤ work) : 0 ≤ levelShare config level work := by
  unfold levelShare
  split_ifs with h
  · exact hwork
  · have := quantum_of_limited hvalid h
    have := quantum_le_levelCap hvalid h
    omega

theorem workAt_nonneg {burst : Int} (hburst : 0 ≤ burst) (level : Nat) :
    0 ≤ workAt config burst level := by
  cases level with
  | zero => exact hburst
  | succ level =>
    have := levelShare_le config level (workAt config burst level)
    unfold workAt
    omega

theorem workAt_eq_zero (hvalid : QuantumsValid config) {burst : Int} {level level' : Nat}
    (hlt : level < level')
    (hall : levelShare config level (workAt config burst level) = workAt config burst level) :
    workAt config burst level' = 0 := by
  induction hlt with
  | refl => rw [workAt, hall, sub_self]
  | @step m _ ih =>
    have hnonneg := levelShare_nonneg hvalid m (ih ▸ le_rfl : 0 ≤ workAt config burst m)
    have hle := levelShare_le config m (workAt config burst m)
    unfold workAt
    omega

theorem levelShare_le_allotment_iff (hvalid : QuantumsValid config) {level : Nat}
    (hlevel : level + 1 < config.numLevels) (hallot : 1 ≤ mlfqGetAllotment config level)
    (work : Int) : levelShare config level work ≤ mlfqGetAllotment config level ↔
      work ≤ mlfqGetAllotment config level ∨
        mlfqGetQuantum config level ≠ -1 ∧
          mlfqGetQuantum config level ∣ mlfqGetAllotment config level := by
  unfold levelShare
  split_ifs with h
  · have hquantum : mlfqGetQuantum config level = -1 := by
      unfold Unlimited at h
      omega
    simp [hquantum]
  · have hq := quantum_of_limited hvalid h
    have hcap := allotment_le_levelCap hvalid h
    have hne : mlfqGetQuantum config level ≠ -1 := by omega
    rw [min_le_iff]
    refine or_congr_right ⟨fun hle => ⟨hne, ?_⟩, fun hdvd => ?_⟩
    · exact hle.antisymm hcap ▸ dvd_levelCap config level
    · exact levelCap_le hvalid h hallot hdvd.2 le_rfl

namespace SchedulerState

variable {s s' : SchedulerState (.mlfq config hpos) n} {p x : Fin n}

def currentLevel (s : SchedulerState (.mlfq config hpos) n) (p : Fin n) : Nat :=
  (s.processes p).priority.toNat

structure Portioned (w : Workload n) (s : SchedulerState (.mlfq config hpos) n) (p : Fin n) :
    Prop where
  above : ∀ j < s.currentLevel p, s.levelTime p j =
    levelShare config j (workAt config (w.burstTime p) j)
  rest : (s.processes p).timeInQueue + (s.processes p).remainingTime =
    workAt config (w.burstTime p) (s.currentLevel p)
  nonneg : 0 ≤ (s.processes p).remainingTime
  used : 0 ≤ (s.processes p).timeInQueue
  capped : ¬ Unlimited config (s.currentLevel p) →
    (s.processes p).timeInQueue ≤ levelCap config (s.currentLevel p)
  whole : ¬ Unlimited config (s.currentLevel p) → (s.processes p).remainingTime = 0 ∨
    mlfqGetQuantum config (s.currentLevel p) ∣ (s.processes p).timeInQueue

def HasRoom (s : SchedulerState (.mlfq config hpos) n) (p : Fin n) : Prop :=
  ¬ Unlimited config (s.currentLevel p) → 0 < (s.processes p).remainingTime →
    (s.processes p).timeInQueue < levelCap config (s.currentLevel p)

def HasRun (s : SchedulerState (.mlfq config hpos) n) (p : Fin n) : Prop :=
  (s.processes p).remainingTime = 0 ∨
    mlfqGetQuantum config (s.currentLevel p) ≠ -1 ∧ 0 < (s.processes p).timeInQueue

structure Metered (w : Workload n) (s : SchedulerState (.mlfq config hpos) n) : Prop where
  portioned : ∀ p, Portioned w s p
  room : ∀ p, s.running ≠ some p → HasRoom s p
  busy : ∀ p, s.running = some p → HasRun s p

theorem Portioned.congr (h : Portioned w s p) (hrecord : s'.processes p = s.processes p)
    (htime : s'.levelTime p = s.levelTime p) : Portioned w s' p := by
  have hlevel : s'.currentLevel p = s.currentLevel p := by rw [currentLevel, currentLevel, hrecord]
  refine ⟨?_, ?_, ?_, ?_, ?_, ?_⟩
  · rw [hlevel, htime]
    exact h.above
  · rw [hlevel, hrecord]
    exact h.rest
  · rw [hrecord]
    exact h.nonneg
  · rw [hrecord]
    exact h.used
  · rw [hlevel, hrecord]
    exact h.capped
  · rw [hlevel, hrecord]
    exact h.whole

theorem HasRoom.congr (h : HasRoom s p) (hrecord : s'.processes p = s.processes p) :
    HasRoom s' p := by
  unfold HasRoom currentLevel at h ⊢
  rwa [hrecord]

theorem runTime_mlfq (s : SchedulerState (.mlfq config hpos) n) (hrange : 0 ≤ (s.processes p).priority) :
    s.runTime p = if mlfqGetQuantum config (s.currentLevel p) = -1 then (s.processes p).remainingTime
      else min (s.processes p).remainingTime (mlfqGetQuantum config (s.currentLevel p)) := by
  have hlevel : ((s.currentLevel p : Nat) : Int) = (s.processes p).priority := Int.toNat_of_nonneg hrange
  rw [hlevel]
  exact scheduleMlfq_runTime config s.currentTime (s.processes p)

theorem Portioned.dispatch (hvalid : QuantumsValid config) (hrange : 0 ≤ (s.processes p).priority)
    (h : Portioned w s p) (hroom : HasRoom s p) (arrange : Bool) :
    Portioned w (s.dispatch p arrange) p ∧ HasRun (s.dispatch p arrange) p := by
  obtain ⟨hrem, hpriority, htime, _⟩ := startSegment_mlfq s p
  have hrem : ((s.dispatch p arrange).processes p).remainingTime =
      (s.processes p).remainingTime - s.runTime p := hrem
  have htime : ((s.dispatch p arrange).processes p).timeInQueue =
      (s.processes p).timeInQueue + s.runTime p := htime
  have hlevel : (s.dispatch p arrange).currentLevel p = s.currentLevel p := congrArg Int.toNat hpriority
  have hcast : ((s.currentLevel p : Nat) : Int) = (s.processes p).priority := Int.toNat_of_nonneg hrange
  have hrun := s.runTime_mlfq hrange
  have hnonneg := h.nonneg
  have hused := h.used
  have hrest := h.rest
  have hq := hvalid (s.currentLevel p)
  refine ⟨⟨fun j hj => ?_, ?_, ?_, ?_, ?_, ?_⟩, ?_⟩
  · rw [hlevel] at hj
    rw [dispatch_levelTime, if_neg, add_zero]
    · exact h.above j hj
    · rintro ⟨_, hsame⟩
      omega
  · rw [hlevel, hrem, htime]
    omega
  · rw [hrem, hrun]
    split_ifs <;> omega
  · rw [htime, hrun]
    split_ifs <;> omega
  · rw [hlevel]
    intro hlimited
    have hq := quantum_of_limited hvalid hlimited
    have hcapped := h.capped hlimited
    rw [htime, hrun, if_neg (by omega)]
    rcases hnonneg.eq_or_lt with hzero | hpositive
    · omega
    · -- between two multiples of the quantum there is room for one
      have hlt := hroom hlimited hpositive
      have hdvd := (h.whole hlimited).resolve_left hpositive.ne'
      have hnext : (s.processes p).timeInQueue + mlfqGetQuantum config (s.currentLevel p) ≤
          levelCap config (s.currentLevel p) := by
        have hgap := Int.le_of_dvd (sub_pos.mpr hlt) (dvd_sub (dvd_levelCap config _) hdvd)
        omega
      omega
  · rw [hlevel]
    intro hlimited
    have hq := quantum_of_limited hvalid hlimited
    rw [hrem, htime, hrun, if_neg (by omega)]
    rcases le_total (s.processes p).remainingTime (mlfqGetQuantum config (s.currentLevel p))
      with hle | hle
    · left
      omega
    · right
      rcases h.whole hlimited with hzero | hdvd
      · omega
      · rw [min_eq_right hle]
        exact dvd_add hdvd (dvd_refl _)
  · rw [HasRun, hlevel, hrem, htime, hrun]
    split_ifs with hnone
    · left
      omega
    · rcases le_total (s.processes p).remainingTime (mlfqGetQuantum config (s.currentLevel p))
        with hle | hle
      · left
        omega
      · right
        exact ⟨hnone, by omega⟩

theorem levelTime_congr (h : s'.dispatches = s.dispatches) (p : Fin n) :
    s'.levelTime p = s.levelTime p := by
  funext level
  rw [levelTime, levelTime, dispatchesOf, dispatchesOf, h]

theorem Metered.dispatch (hvalid : QuantumsValid config) (hrange : 0 ≤ (s.processes p).priority)
    (hportioned : ∀ p, Portioned w s p) (hroom : ∀ p, HasRoom s p) (arrange : Bool) :
    Metered w (s.dispatch p arrange) := by
  obtain ⟨hself, hrun⟩ := (hportioned p).dispatch hvalid hrange (hroom p) arrange
  refine ⟨fun x => ?_, fun x hx => ?_, fun x hx => ?_⟩
  · rcases eq_or_ne x p with rfl | hne
    · exact hself
    · refine (hportioned x).congr (dispatch_process_of_ne s hne arrange) ?_
      funext level
      rw [dispatch_levelTime, if_neg fun h => hne h.1.symm, add_zero]
  · have hne : x ≠ p := fun h => hx (congrArg some h.symm)
    exact (hroom x).congr (dispatch_process_of_ne s hne arrange)
  · obtain rfl := Option.some.inj hx
    exact hrun

theorem Metered.dispatchNext (hvalid : QuantumsValid config) (hkept : LevelsKept s)
    (hportioned : ∀ p, Portioned w s p) (hroom : ∀ p, HasRoom s p) (arrange : Bool) :
    Metered w (s.dispatchNext arrange) := by
  rcases s.dispatchNext_cases arrange with ⟨_, heq⟩ | ⟨p, waiting, _, _, heq⟩
  · rw [heq]
    exact ⟨fun x => (hportioned x).congr rfl rfl, fun x _ => (hroom x).congr rfl,
      fun x hx => absurd hx.symm (Option.some_ne_none x)⟩
  · rw [heq]
    exact Metered.dispatch (s := { s with waiting := waiting }) hvalid (hkept.range p).1
      (fun x => (hportioned x).congr rfl rfl)
      (fun x => (hroom x).congr rfl) arrange

theorem Portioned.demote {t : SchedulerState (.mlfq config hpos) n} (hvalid : QuantumsValid config)
    (hkept : LevelsKept s) (h : Portioned w s p) (hrun : HasRun s p)
    (hleft : 0 < (s.processes p).remainingTime) (hd : Demotes config (s.processes p))
    (hrecord : t.processes p =
      { s.processes p with priority := (s.processes p).priority + 1, timeInQueue := 0 })
    (htime : t.levelTime p = s.levelTime p) : Portioned w t p ∧ HasRoom t p := by
  have hrange := (hkept.range p).1
  have hcast : ((s.currentLevel p : Nat) : Int) = (s.processes p).priority :=
    Int.toNat_of_nonneg hrange
  have hlevel : t.currentLevel p = s.currentLevel p + 1 := by
    rw [currentLevel, currentLevel, hrecord]
    dsimp only
    omega
  obtain ⟨hallot, hreached, hbelow⟩ := hd
  obtain ⟨hquantum, hpositive⟩ := hrun.resolve_left hleft.ne'
  rw [← hcast] at hallot hreached hbelow
  have hlimited : ¬ Unlimited config (s.currentLevel p) := by
    unfold Unlimited
    omega
  have hdvd := (h.whole hlimited).resolve_left hleft.ne'
  have hfull : (s.processes p).timeInQueue = levelCap config (s.currentLevel p) :=
    (h.capped hlimited).antisymm (levelCap_le hvalid hlimited hpositive hdvd hreached)
  have hrest := h.rest
  have hshare : levelShare config (s.currentLevel p)
      (workAt config (w.burstTime p) (s.currentLevel p)) = (s.processes p).timeInQueue := by
    rw [levelShare, if_neg hlimited]
    omega
  refine ⟨⟨fun j hj => ?_, ?_, ?_, ?_, fun hlimited' => ?_, fun _ => .inr ?_⟩, fun hlimited' _ => ?_⟩
  · rw [hlevel] at hj
    rw [htime]
    rcases Nat.lt_succ_iff_lt_or_eq.mp hj with hj | rfl
    · exact h.above j hj
    · rw [hshare, hkept.used p, hcast]
  · rw [hlevel, workAt, hshare, hrecord]
    dsimp only
    omega
  · rw [hrecord]
    exact h.nonneg
  · rw [hrecord]
  · have hcap := quantum_le_levelCap hvalid hlimited'
    have hq := quantum_of_limited hvalid hlimited'
    rw [hrecord]
    dsimp only
    omega
  · rw [hrecord]
    exact dvd_zero _
  · have hcap := quantum_le_levelCap hvalid hlimited'
    have hq := quantum_of_limited hvalid hlimited'
    rw [hrecord]
    dsimp only
    omega

theorem HasRoom.of_not_demotes (hvalid : QuantumsValid config) (hkept : LevelsKept s)
    (hd : ¬ Demotes config (s.processes p)) : HasRoom s p := by
  intro hlimited _
  have hcast : ((s.currentLevel p : Nat) : Int) = (s.processes p).priority :=
    Int.toNat_of_nonneg (hkept.range p).1
  have hcap := allotment_le_levelCap hvalid hlimited
  unfold Demotes at hd
  unfold Unlimited at hlimited
  rw [← hcast] at hd
  omega

theorem Metered.looks {e : Event n} {q : EventQueue n} {a : SchedulerState (.mlfq config hpos) n}
    (hvalid : QuantumsValid config) (hc : Coherent w s) (hkept : LevelsKept s) (h : Metered w s)
    (hq : s.eventQueue.items = e :: q.items) (he : e.endsSegment = true) (hlooks : Looks s e a)
    (p : Fin n) : Portioned w a p ∧ HasRoom a p := by
  have htime := levelTime_congr hlooks.dispatches p
  have hrecord := hlooks.records p
  split_ifs at hrecord with hd
  · obtain ⟨hrun, hleft, _⟩ := hc.of_quantumExpire hq hd.1
    exact (h.portioned p).demote hvalid hkept (h.busy p hrun) hleft hd.2 hrecord htime
  · refine ⟨(h.portioned p).congr hrecord htime, HasRoom.congr ?_ hrecord⟩
    by_cases hrun : s.running = some p
    · cases htype : e.type with
      | completion r =>
        obtain ⟨hrun', hzero, _⟩ := hc.of_completion hq htype
        obtain rfl := Option.some.inj (hrun.symm.trans hrun')
        exact fun _ hleft => absurd hzero hleft.ne'
      | quantumExpire r =>
        obtain ⟨hrun', _⟩ := hc.of_quantumExpire hq htype
        obtain rfl := Option.some.inj (hrun.symm.trans hrun')
        exact .of_not_demotes hvalid hkept fun hdemotes => hd ⟨htype, hdemotes⟩
      | _ => simp [Event.endsSegment, htype] at he
    · exact h.room p hrun

theorem Metered.round {e : Event n} {q : EventQueue n} (hvalid : QuantumsValid config)
    (hc : Coherent w s) (hkept : LevelsKept s) (h : Metered w s)
    (hq : s.eventQueue.items = e :: q.items) (hround : Round s e q s') : Metered w s' := by
  by_cases harrival : ∃ p, e.type = .arrival p
  · cases hround with
    | start p htype hrun =>
      have hnone : ∀ x, s.running ≠ some x := fun x hx =>
        absurd (hrun.symm.trans hx) (Option.some_ne_none x).symm
      exact Metered.dispatch (s := s.popped e q) hvalid (hkept.range p).1
        (fun x => (h.portioned x).congr rfl rfl) (fun x => (h.room x (hnone x)).congr rfl) _
    | wait p r htype hrun hle =>
      obtain ⟨_, _, hprocesses, _⟩ := (hkept.popped e q).addWaiting_eq p
      have hrecord := fun x => congrFun hprocesses x
      exact ⟨fun x => (h.portioned x).congr (hrecord x) rfl,
        fun x hx => (h.room x hx).congr (hrecord x), fun x hx => by
          have hrun := h.busy x hx
          unfold HasRun currentLevel at hrun ⊢
          rw [hrecord]
          exact hrun⟩
    | preempt p r htype hrun hstcf hlt => exact absurd hstcf Bool.false_ne_true
    | complete p htype hrun hrem => exact absurd harrival (by simp [htype])
    | expire p htype hrun hrem => exact absurd harrival (by simp [htype])
  · obtain ⟨a, hlooks, ha⟩ := hc.looks hkept hround (not_exists.mp harrival)
    have hend : e.endsSegment = true := by
      cases hround with
      | complete p htype hrun hrem => rw [Event.endsSegment, htype]
      | expire p htype hrun hrem => rw [Event.endsSegment, htype]
      | start p htype hrun => exact absurd ⟨p, htype⟩ harrival
      | wait p r htype hrun hle => exact absurd ⟨p, htype⟩ harrival
      | preempt p r htype hrun hstcf hlt => exact absurd ⟨p, htype⟩ harrival
    have hrested := h.looks hvalid hc hkept hq hend hlooks
    rw [ha]
    exact .dispatchNext hvalid hlooks.kept (fun p => (hrested p).1) (fun p => (hrested p).2) false

theorem startState_metered (hw : w.Nonneg) (hvalid : QuantumsValid config) :
    Metered w (startState (.mlfq config hpos) w) := by
  have hstart := startState_starting hw (.mlfq config hpos)
  have hlevel : ∀ p, (startState (.mlfq config hpos) w).currentLevel p = 0 := fun p => by
    rw [currentLevel, hstart.processes]
    rfl
  have hrecord : ∀ p, ((startState (.mlfq config hpos) w).processes p).timeInQueue = 0 ∧
      ((startState (.mlfq config hpos) w).processes p).remainingTime = w.burstTime p := fun p => by
    rw [hstart.processes]
    exact ⟨rfl, rfl⟩
  refine ⟨fun p => ?_, fun p _ hlimited _ => ?_, fun p hp => ?_⟩
  · obtain ⟨htime, hrem⟩ := hrecord p
    refine ⟨fun j hj => ?_, ?_, hrem ▸ hw.burst p, htime.ge, fun hlimited => ?_, fun _ => .inr ?_⟩
    · rw [hlevel] at hj
      exact absurd hj (Nat.not_lt_zero j)
    · rw [hlevel, htime, hrem, workAt, zero_add]
    · have hcap := quantum_le_levelCap hvalid hlimited
      have hq := quantum_of_limited hvalid hlimited
      omega
    · rw [htime]
      exact dvd_zero _
  · have hcap := quantum_le_levelCap hvalid hlimited
    have hq := quantum_of_limited hvalid hlimited
    rw [(hrecord p).1]
    omega
  · rw [hstart.running] at hp
    exact absurd hp.symm (Option.some_ne_none p)

section Run

variable (hw : w.Nonneg) (hvalid : (Policy.mlfq config hpos).Valid) (hboost : config.boostPeriod ≤ 0)
include hw hvalid hboost

theorem Reaches.levelsKept (h : Loop.Reaches loopBody (startState (.mlfq config hpos) w) s) :
    LevelsKept s :=
  Reaches.induction hw hvalid hboost LevelsKept (startState_levelsKept hw)
    (fun _ _ _ _ hc _ _ hround hkept => hkept.round hc hround) h

theorem Reaches.metered (h : Loop.Reaches loopBody (startState (.mlfq config hpos) w) s) :
    Metered w s := by
  have hboth : LevelsKept s ∧ Metered w s :=
    Reaches.induction hw hvalid hboost (fun s => LevelsKept s ∧ Metered w s)
      ⟨startState_levelsKept hw, startState_metered hw hvalid⟩
      (fun _ _ _ _ hc _ hq hround h => ⟨h.1.round hc hround, h.2.round hvalid hc h.1 hq hround⟩) h
  exact hboth.2

end Run

theorem Portioned.levelTime_le (hvalid : QuantumsValid config) (hkept : LevelsKept s)
    (hburst : 0 ≤ w.burstTime p) (h : Portioned w s p) (level : Nat) :
    s.levelTime p level ≤ levelShare config level (workAt config (w.burstTime p) level) := by
  have hcast : ((s.currentLevel p : Nat) : Int) = (s.processes p).priority :=
    Int.toNat_of_nonneg (hkept.range p).1
  rcases lt_trichotomy level (s.currentLevel p) with hlt | rfl | hgt
  · exact (h.above level hlt).le
  · have hrest := h.rest
    have hnonneg := h.nonneg
    rw [hcast, ← hkept.used p, levelShare]
    split_ifs with hunlimited
    · omega
    · have hcapped := h.capped hunlimited
      omega
  · rw [hkept.unused p level (by omega)]
    exact levelShare_nonneg hvalid level (workAt_nonneg hburst level)

theorem Portioned.levelTime_eq (hvalid : QuantumsValid config) (hkept : LevelsKept s)
    (h : Portioned w s p) (hdone : (s.processes p).remainingTime = 0) (level : Nat) :
    s.levelTime p level = levelShare config level (workAt config (w.burstTime p) level) := by
  have hcast : ((s.currentLevel p : Nat) : Int) = (s.processes p).priority :=
    Int.toNat_of_nonneg (hkept.range p).1
  have hrest := h.rest
  have hall : levelShare config (s.currentLevel p)
      (workAt config (w.burstTime p) (s.currentLevel p)) =
        workAt config (w.burstTime p) (s.currentLevel p) := by
    rw [levelShare]
    split_ifs with hunlimited
    · rfl
    · have hcapped := h.capped hunlimited
      omega
  rcases lt_trichotomy level (s.currentLevel p) with hlt | rfl | hgt
  · exact h.above level hlt
  · rw [hall, hcast, ← hkept.used p]
    omega
  · have hzero := workAt_eq_zero hvalid hgt hall
    have hnonneg := levelShare_nonneg hvalid level hzero.ge
    have hle := levelShare_le config level (workAt config (w.burstTime p) level)
    rw [hkept.unused p level (by omega)]
    omega

end SchedulerState

open SchedulerState

/-- The allotments are respected in a run exactly if no process comes to a level with more work than
the level's allotment, unless the allotment is a number of whole quantums. -/
theorem allotment_respected_iff (hw : w.Nonneg) (hvalid : (Policy.mlfq config hpos).Valid)
    (hboost : config.boostPeriod ≤ 0) :
    (∀ s : SchedulerState (.mlfq config hpos) n, Loop.Reaches loopBody (startState _ w) s →
        ∀ p, ∀ level : Nat, level + 1 < config.numLevels → 1 ≤ mlfqGetAllotment config level →
          s.levelTime p level ≤ mlfqGetAllotment config level) ↔
      ∀ p, ∀ level : Nat, level + 1 < config.numLevels → 1 ≤ mlfqGetAllotment config level →
        workAt config (w.burstTime p) level ≤ mlfqGetAllotment config level ∨
          mlfqGetQuantum config level ≠ -1 ∧
            mlfqGetQuantum config level ∣ mlfqGetAllotment config level := by
  constructor
  · intro h p level hlevel hallot
    obtain ⟨fuel, t, hrun⟩ := simulateScheduler_returns hw hvalid hboost
    obtain ⟨s, hreach, hend, _⟩ := simulateScheduler_eq_some hrun
    have hc := Reaches.coherent hw hvalid hboost hreach
    have htime := ((Reaches.metered hw hvalid hboost hreach).portioned p).levelTime_eq hvalid
      (Reaches.levelsKept hw hvalid hboost hreach) (hc.remainingTime_of_ended hend p) level
    have hle := h s hreach p level hlevel hallot
    rw [htime] at hle
    exact (levelShare_le_allotment_iff hvalid hlevel hallot _).mp hle
  · intro h s hreach p level hlevel hallot
    have hle := ((Reaches.metered hw hvalid hboost hreach).portioned p).levelTime_le hvalid
      (Reaches.levelsKept hw hvalid hboost hreach) (hw.burst p) level
    exact hle.trans ((levelShare_le_allotment_iff hvalid hlevel hallot _).mpr
      (h p level hlevel hallot))

theorem allotment_respected_iff_sample :
    (∀ s : SchedulerState (.mlfq twoLevelConfig twoLevelConfig_pos) 2,
        Loop.Reaches loopBody (startState _ sampleWorkload) s →
        ∀ p, ∀ level : Nat, level + 1 < twoLevelConfig.numLevels →
          1 ≤ mlfqGetAllotment twoLevelConfig level →
          s.levelTime p level ≤ mlfqGetAllotment twoLevelConfig level) ↔
      ∀ p, ∀ level : Nat, level + 1 < twoLevelConfig.numLevels →
        1 ≤ mlfqGetAllotment twoLevelConfig level →
        workAt twoLevelConfig (sampleWorkload.burstTime p) level ≤
            mlfqGetAllotment twoLevelConfig level ∨
          mlfqGetQuantum twoLevelConfig level ≠ -1 ∧
            mlfqGetQuantum twoLevelConfig level ∣ mlfqGetAllotment twoLevelConfig level :=
  allotment_respected_iff sampleWorkload_nonneg twoLevelConfig_valid (by decide)

def oddConfig : MLFQConfig where
  levels i := if i = 0 then ⟨0, 2, 3⟩ else if i = 1 then ⟨1, 4, -1⟩ else ⟨0, 0, 0⟩
  numLevels := 2
  boostPeriod := -1
  numLevels_le := two_le_maxMlfqLevels

theorem oddConfig_pos : 0 < oddConfig.numLevels := by decide

theorem oddConfig_valid : (Policy.mlfq oddConfig oddConfig_pos).Valid :=
  Policy.mlfq_valid (by decide)

/-- The process is given 4 time units on a level with an allotment of 3. -/
theorem allotment_exceeded :
    (oneProcess 0 5).Nonneg ∧ (Policy.mlfq oddConfig oddConfig_pos).Valid ∧
      oddConfig.boostPeriod ≤ 0 ∧
      ∃ s : SchedulerState (.mlfq oddConfig oddConfig_pos) 1,
        Loop.Reaches loopBody (startState _ (oneProcess 0 5)) s ∧
        mlfqGetAllotment oddConfig 0 = 3 ∧ s.levelTime 0 0 = 4 := by
  refine ⟨⟨by decide, by decide⟩, oddConfig_valid, by decide, _, Loop.reaches_advance loopBody 3 _,
    by decide, ?_⟩
  decide +kernel

end OsLab.Sched
