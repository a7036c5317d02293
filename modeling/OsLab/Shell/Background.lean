import OsLab.Shell.MainLoop

/-! Background children: the table of jobs knows them all as long as it has room. A child that is
forked when the table is full runs on without an entry, and is never reaped. -/

namespace OsLab.Shell

open Interleaving

namespace Jobs

variable {t : Jobs} {pid : Pid} {command : Command}

theorem Tracked.add (h : t.Tracked) (hpid : pid ∉ t.children) : (t.add pid command).Tracked := by
  have hchildren : (pid :: t.children).Nodup := List.nodup_cons.mpr ⟨hpid, h.children_nodup⟩
  unfold Jobs.add
  split_ifs
  · have hpids : pids ⟨t.bgJobs ++ [⟨pid, command⟩], pid :: t.children⟩ = t.pids ++ [pid] :=
      List.map_append
    refine ⟨?_, hchildren, fun p hp => ?_⟩
    · rw [hpids]
      exact h.pids_nodup.append (List.nodup_singleton pid)
        (List.disjoint_singleton.mpr (mt (h.child pid) hpid))
    · rw [hpids, List.mem_append, List.mem_singleton] at hp
      rcases hp with hp | rfl
      · exact List.mem_cons_of_mem _ (h.child p hp)
      · exact List.mem_cons_self
  · exact ⟨h.pids_nodup, hchildren, fun p hp => List.mem_cons_of_mem _ (h.child p hp)⟩

theorem Tracked.add_accounted_iff (h : t.Tracked) (hall : t.Accounted) (hpid : pid ∉ t.children) :
    (t.add pid command).Accounted ↔ t.bgJobs.length < maxBgJobs := by
  rw [(h.add hpid).accounted_iff]
  obtain ⟨hchildren, _⟩ := h.accounted_iff.mp hall
  constructor
  · intro hadd
    by_contra hfull
    rw [Jobs.add, if_neg hfull] at hadd
    exact hpid (h.child pid (hadd.1 pid List.mem_cons_self))
  · intro hroom
    rw [Jobs.add, if_pos hroom]
    refine ⟨fun p hp => ?_, by rw [List.length_append]; exact hroom⟩
    rw [pids, List.map_append, List.mem_append]
    rcases List.mem_cons.mp hp with rfl | hp
    · exact .inr List.mem_cons_self
    · exact .inl (hchildren p hp)

end Jobs

def RoomForJob (s : State) (answers : Answers) : Prop :=
  (getCommand s.stdin).1.InBackground →
    (s.table.bgJobs.countP fun job => !answers.finished job.pid) < maxBgJobs

section Rounds

variable {s s' : State} {answers : Answers}

theorem iterate_tracked (hs : iterate s answers = some s') (h : s.table.Tracked) :
    s'.table.Tracked := by
  have hclean := h.cleanup answers.finished
  rcases iterate_table hs with ⟨_, hpid, htable⟩ | ⟨_, htable⟩
  · exact htable ▸ hclean.add hpid
  · exact htable ▸ hclean

theorem iterate_accounted_iff (hs : iterate s answers = some s') (h : s.table.Tracked)
    (hall : s.table.Accounted) : s'.table.Accounted ↔ RoomForJob s answers := by
  have hclean := h.cleanup_accounted answers.finished hall
  rcases iterate_table hs with ⟨hback, hpid, htable⟩ | ⟨hfore, htable⟩
  · rw [htable, (h.cleanup answers.finished).add_accounted_iff hclean hpid, cleanup_length _ h]
    exact ⟨fun hroom _ => hroom, fun hroom => hroom hback⟩
  · rw [htable]
    exact ⟨fun _ hback => absurd hback hfore, fun _ => hclean⟩

theorem iterate_length_le (hs : iterate s answers = some s') (h : s.table.Tracked)
    (hlen : s.table.bgJobs.length ≤ maxBgJobs) : s'.table.bgJobs.length ≤ maxBgJobs := by
  have hclean := (cleanup_length_le answers.finished h).trans hlen
  rcases iterate_table hs with ⟨_, _, htable⟩ | ⟨_, htable⟩
  · rw [htable, Jobs.add]
    split_ifs with hroom
    · rw [List.length_append]
      exact hroom
    · exact hclean
  · exact htable ▸ hclean

end Rounds

theorem start_tracked (stdin : List Char) : (start stdin).table.Tracked :=
  ⟨List.nodup_nil, List.nodup_nil, fun _ hpid => hpid⟩

theorem run_tracked {stdin : List Char} {answers : List Answers} {s : State}
    (hrun : runSchedule iterate answers (start stdin) = some s) : s.table.Tracked :=
  (reaches_of_runSchedule hrun).invariant (fun s => s.table.Tracked)
    (fun _ _ _ hs h => iterate_tracked hs h) (start_tracked stdin)

theorem run_length_le {stdin : List Char} {answers : List Answers} {s : State}
    (hrun : runSchedule iterate answers (start stdin) = some s) :
    s.table.bgJobs.length ≤ maxBgJobs := by
  have hinv := (reaches_of_runSchedule hrun).invariant
    (fun s => s.table.Tracked ∧ s.table.bgJobs.length ≤ maxBgJobs)
    (fun _ _ _ hs h => ⟨iterate_tracked hs h.1, iterate_length_le hs h.1 h.2⟩)
    ⟨start_tracked stdin, Nat.zero_le _⟩
  exact hinv.2

/-- All children are accounted for all along a run if and only if no round of it forks a background
command when the table is full. -/
theorem children_accounted_iff (stdin : List Char) (answers : List Answers) :
    Always (fun s _ => s.table.Accounted) State.parsedLine? iterate answers (start stdin) [] ↔
      EachStep RoomForJob iterate answers (start stdin) := by
  refine (always_iff_eachStep (P := fun (s : State) _ => s.table.Accounted)
    (fun s => s.table.Tracked) ?_ ?_ (start_tracked stdin)).trans (and_iff_right ?_)
  · exact fun _ _ _ hs h => iterate_tracked hs h
  · exact fun _ _ _ _ hs h hall => iterate_accounted_iff hs h hall
  · exact (start_tracked stdin).accounted_iff.mpr ⟨fun _ hpid => hpid, Nat.zero_le _⟩

def backgroundLine : List Char := "sleep 60 &".toList

def manyJobs : List Char := (List.replicate (maxBgJobs + 1) (backgroundLine ++ ['\n'])).flatten

def manyAnswers : List Answers :=
  (List.range' 1001 (maxBgJobs + 1)).map fun pid => ⟨fun _ => false, pid, id⟩

theorem iterate_backgroundLine {t : Jobs} {pid : Pid} (rest : List Char) (hpos : 0 < pid)
    (hpid : pid ∉ t.children) :
    iterate ⟨backgroundLine ++ '\n' :: rest, t, false⟩ ⟨fun _ => false, pid, id⟩ =
      some ⟨rest, t.add pid (parseLine backgroundLine), false⟩ := by
  have hread : getCommand (backgroundLine ++ '\n' :: rest) = (parseLine backgroundLine, rest) := by
    rw [getCommand, readInput_line (by decide) (by decide) (by decide)]
  have hword : (parseLine backgroundLine).command = some "sleep".toList := by decide +kernel
  have hback : (parseLine backgroundLine).background = true := by decide +kernel
  have hbuiltin : handlesBuiltin "sleep".toList = none := by decide
  rw [iterate_eq rfl]
  simp only [hread, cleanupBackgroundJobs_unfinished, interpreter, hword, hbuiltin, hback, if_true]
  rw [if_neg (not_or.mpr ⟨hpos.ne', hpid⟩)]
  rfl

theorem run_backgroundLines (n k : Nat) {t : Jobs} (hpos : 0 < k)
    (hk : ∀ pid ∈ t.children, pid < k) :
    ∃ s, runSchedule iterate ((List.range' k n).map fun pid => ⟨fun _ => false, pid, id⟩)
        ⟨(List.replicate n (backgroundLine ++ ['\n'])).flatten, t, false⟩ = some s ∧
      s.table.children.length = t.children.length + n := by
  induction n generalizing k t with
  | zero => exact ⟨_, rfl, rfl⟩
  | succ n ih =>
    have hnew : k ∉ t.children := fun hmem => lt_irrefl k (hk k hmem)
    obtain ⟨s, hrun, hlen⟩ := ih (k + 1) (t := t.add k (parseLine backgroundLine)) k.succ_pos
      (fun pid hpid => by
        rw [Jobs.children_add, List.mem_cons] at hpid
        rcases hpid with rfl | hpid
        · exact Nat.lt_succ_self _
        · exact Nat.lt_succ_of_lt (hk pid hpid))
    refine ⟨s, ?_, ?_⟩
    · rw [List.range'_succ, List.map_cons, runSchedule, List.replicate_succ, List.flatten_cons,
        List.append_assoc, List.singleton_append, iterate_backgroundLine _ hpos hnew]
      exact hrun
    · rw [hlen, Jobs.children_add, List.length_cons]
      omega

theorem manyJobs_not_accounted :
    ¬ Always (fun s _ => s.table.Accounted) State.parsedLine? iterate manyAnswers
      (start manyJobs) [] := by
  intro h
  obtain ⟨s, hrun, hlen⟩ := run_backgroundLines (maxBgJobs + 1) 1001 (t := .empty) (by decide)
    (fun _ hpid => by cases hpid)
  have hle : s.table.children.length ≤ maxBgJobs := (run_tracked hrun).length_le (h.final hrun)
  rw [hlen] at hle
  exact absurd hle (by decide)

end OsLab.Shell
