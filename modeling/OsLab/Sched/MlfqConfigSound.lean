import OsLab.Sched.MlfqConfig

/-! Which configuration files `load_mlfq_config` loads soundly: the level ids that it writes at, and
the `Q` lines that the levels of a loaded configuration come from. -/

namespace OsLab.Sched

open CText

def ConfigLine.level? : ConfigLine → Option MLFQLevel
  | .queue level => some level
  | _ => none

def ConfigLine.Rejected : ConfigLine → Prop
  | .queue level => (maxMlfqLevels : Int) ≤ level.queueId
  | .badQueue | .badBoost => True
  | _ => False

instance (line : ConfigLine) : Decidable line.Rejected := by
  unfold ConfigLine.Rejected
  cases line <;> infer_instance

def configLines (text : List Char) : List ConfigLine :=
  (readLines mlfqConfigLineMax text.length text).map configLine

/-- The levels as they are read: through the buffer, and into variables of type `int`. -/
def levelsRead (text : List Char) : List MLFQLevel :=
  (configLines text).filterMap ConfigLine.level?

/-- The level of a `Q` line, with its numbers exact. -/
def levelGiven (line : List Char) : Option MLFQLevel :=
  match trimLine line with
  | 'Q' :: text => do
    let (queueId, rest) ← scanInt text
    let (timeQuantum, rest) ← scanInt rest
    let (allotment, _) ← scanInt rest
    return ⟨queueId, timeQuantum, allotment⟩
  | _ => none

def levelsGiven (text : List Char) : List MLFQLevel := (linesOf text).filterMap levelGiven

def lastLevel (levels : List MLFQLevel) (queueId : Int) : Option MLFQLevel :=
  (levels.filter (·.queueId = queueId)).getLast?

/-- Nothing is written outside `levels`, and the levels of a configuration are the last ones that
the file gives. -/
def LoadsSoundly (text : List Char) : Prop :=
  (∀ queueId, loadMlfqConfig (some text) ≠ .error (.outOfBounds queueId)) ∧
    ∀ config, loadMlfqConfig (some text) = .ok config →
      1 ≤ config.numLevels ∧ config.numLevels ≤ maxMlfqLevels ∧
        ∀ i : Fin maxMlfqLevels, i < config.numLevels →
          lastLevel (levelsGiven text) i = some (config.levels i)

def Accepted (text : List Char) : Prop :=
  (∀ line ∈ configLines text, ¬ line.Rejected) ∧
    ∃ queueId, ∃ level ∈ lastLevel (levelsRead text) queueId,
      level.timeQuantum ≠ 0 ∨ level.allotment ≠ 0

/-- What the lines leave in the level, after the `memset`. -/
def levelLeft (text : List Char) (queueId : Int) : MLFQLevel :=
  (lastLevel (levelsRead text) queueId).getD ⟨0, 0, 0⟩

/-- Up to the first line that is rejected no id is negative. If the file is accepted, every level up
to the greatest id is given, and last as it is left. -/
def WellGiven (text : List Char) : Prop :=
  (∀ line ∈ (configLines text).takeWhile (¬ ConfigLine.Rejected ·), ∀ level ∈ line.level?,
      0 ≤ level.queueId) ∧
    (Accepted text → ∀ queueId, 0 ≤ queueId → (∃ level ∈ levelsRead text, queueId ≤ level.queueId) →
      lastLevel (levelsGiven text) queueId = some (levelLeft text queueId))

section Levels

variable {levels : List MLFQLevel} {level : MLFQLevel} {queueId : Int}

theorem lastLevel_concat (levels : List MLFQLevel) (level : MLFQLevel) (queueId : Int) :
    lastLevel (levels ++ [level]) queueId =
      if level.queueId = queueId then some level else lastLevel levels queueId := by
  unfold lastLevel
  rw [List.filter_append]
  split
  · rename_i hid
    rw [List.filter_cons_of_pos (by simpa using hid), List.filter_nil, List.getLast?_concat]
  · rename_i hid
    rw [List.filter_cons_of_neg (by simpa using hid), List.filter_nil, List.append_nil]

theorem mem_of_lastLevel (h : lastLevel levels queueId = some level) :
    level ∈ levels ∧ level.queueId = queueId := by
  simpa using List.mem_filter.mp (List.mem_of_getLast? h)

end Levels

/-- The configuration is made of the levels: what is not among them is as `memset` left it. -/
structure MadeOf (config : MLFQConfig) (levels : List MLFQLevel) : Prop where
  level : ∀ i : Fin maxMlfqLevels, config.levels i = (lastLevel levels i).getD ⟨0, 0, 0⟩
  numLevels : ∀ q : Nat, q < config.numLevels ↔ ∃ level ∈ levels, (q : Int) ≤ level.queueId

section Loop

variable {config : MLFQConfig} {levels : List MLFQLevel}

theorem madeOf_emptyConfig : MadeOf emptyConfig [] := ⟨fun _ => rfl, fun q => by simp [emptyConfig]⟩

theorem MadeOf.setLevel (h : MadeOf config levels) {queueId timeQuantum allotment : Int}
    (hid : 0 ≤ queueId ∧ queueId < maxMlfqLevels) :
    ∃ config', setLevel config queueId timeQuantum allotment = .ok config' ∧
      MadeOf config' (levels ++ [⟨queueId, timeQuantum, allotment⟩]) := by
  refine ⟨_, dif_pos hid, fun i => ?_, fun q => ?_⟩
  · dsimp only
    rw [lastLevel_concat]
    by_cases hi : queueId = i
    · rw [if_pos hi, Option.getD_some]
      have hself : i = ⟨queueId.toNat, by omega⟩ := Fin.ext (by dsimp only; omega)
      rw [hself, Function.update_self]
    · rw [if_neg hi, Function.update_of_ne (fun heq => hi (by rw [heq]; simp only; omega)), h.level]
  · have hnum := h.numLevels q
    simp only [List.mem_append, List.mem_singleton, or_and_right, exists_or, exists_eq_left]
    rw [← hnum]
    split <;> omega

theorem loadLine_cases (h : MadeOf config levels) (lineNum : Nat) (line : List Char) :
    (¬ (configLine line).Rejected ∧ (∀ level ∈ (configLine line).level?, 0 ≤ level.queueId) ∧
        ∃ config', loadLine config lineNum line = .ok config' ∧
          MadeOf config' (levels ++ (configLine line).level?.toList)) ∨
      ((configLine line).Rejected ∧ ∃ e, loadLine config lineNum line = .error e ∧
        ∀ queueId, e ≠ .outOfBounds queueId) ∨
      (¬ (configLine line).Rejected ∧ (∃ level ∈ (configLine line).level?, level.queueId < 0) ∧
        ∃ queueId, loadLine config lineNum line = .error (.outOfBounds queueId)) := by
  unfold loadLine
  cases configLine line with
  | skip => exact .inl ⟨id, by simp [ConfigLine.level?], config, rfl, by simpa [ConfigLine.level?] using h⟩
  | boost period =>
    have hmade : MadeOf { config with boostPeriod := period } levels := ⟨h.level, h.numLevels⟩
    exact .inl ⟨id, by simp [ConfigLine.level?], _, rfl, by simpa [ConfigLine.level?] using hmade⟩
  | badQueue => exact .inr (.inl ⟨trivial, _, rfl, by simp⟩)
  | badBoost => exact .inr (.inl ⟨trivial, _, rfl, by simp⟩)
  | queue level =>
    dsimp only
    by_cases hmax : (maxMlfqLevels : Int) ≤ level.queueId
    · exact .inr (.inl ⟨hmax, _, if_pos hmax, by simp⟩)
    · rw [if_neg hmax]
      by_cases hneg : 0 ≤ level.queueId
      · refine .inl ⟨hmax, by simpa [ConfigLine.level?] using hneg, ?_⟩
        exact h.setLevel ⟨hneg, Int.lt_of_not_ge hmax⟩
      · exact .inr (.inr ⟨hmax, ⟨level, rfl, Int.lt_of_not_ge hneg⟩, _,
          dif_neg fun hid => hneg hid.1⟩)

theorem loadLines_cases (h : MadeOf config levels) (lineNum : Nat) (lines : List (List Char)) :
    ((∀ line ∈ lines.map configLine, ¬ line.Rejected) ∧
        (∀ line ∈ lines.map configLine, ∀ level ∈ line.level?, 0 ≤ level.queueId) ∧
        ∃ config', loadLines config lineNum lines = .ok config' ∧
          MadeOf config' (levels ++ (lines.map configLine).filterMap ConfigLine.level?)) ∨
      ((∃ line ∈ lines.map configLine, line.Rejected) ∧
        (∀ line ∈ (lines.map configLine).takeWhile (¬ ConfigLine.Rejected ·),
          ∀ level ∈ line.level?, 0 ≤ level.queueId) ∧
        ∃ e, loadLines config lineNum lines = .error e ∧ ∀ queueId, e ≠ .outOfBounds queueId) ∨
      ((∃ line ∈ (lines.map configLine).takeWhile (¬ ConfigLine.Rejected ·),
          ∃ level ∈ line.level?, level.queueId < 0) ∧
        ∃ queueId, loadLines config lineNum lines = .error (.outOfBounds queueId)) := by
  induction lines generalizing config levels lineNum with
  | nil => exact .inl ⟨by simp, by simp, config, rfl, by simpa using h⟩
  | cons line lines ih =>
    rw [List.map_cons, loadLines]
    obtain ⟨hok, hid, config', hload, hmade⟩ | ⟨hrejected, e, hload, he⟩ |
      ⟨hok, hneg, queueId, hload⟩ := loadLine_cases h (lineNum + 1) line
    · rw [hload, List.takeWhile_cons_of_pos (by simpa using hok)]
      simp only [List.forall_mem_cons, List.exists_mem_cons_iff]
      obtain ⟨hoks, hids, config'', hloads, hmade'⟩ | ⟨hrejected, hids, e, hloads, he⟩ |
        ⟨hneg, queueId, hloads⟩ := ih hmade (lineNum + 1)
      · refine .inl ⟨⟨hok, hoks⟩, ⟨hid, hids⟩, config'', hloads, ?_⟩
        rw [List.append_assoc] at hmade'
        cases hlevel : (configLine line).level? with
        | none => rwa [List.filterMap_cons_none hlevel, ← List.nil_append (List.filterMap _ _),
            ← Option.toList_none, ← hlevel]
        | some level => rwa [List.filterMap_cons_some hlevel, ← List.singleton_append,
            ← Option.toList_some, ← hlevel]
      · exact .inr (.inl ⟨.inr hrejected, ⟨hid, hids⟩, e, hloads, he⟩)
      · exact .inr (.inr ⟨.inr hneg, queueId, hloads⟩)
    · rw [hload, List.takeWhile_cons_of_neg (by simpa using hrejected)]
      exact .inr (.inl ⟨⟨_, List.mem_cons_self, hrejected⟩, by simp, e, rfl, he⟩)
    · rw [hload, List.takeWhile_cons_of_pos (by simpa using hok)]
      exact .inr (.inr ⟨⟨_, List.mem_cons_self, hneg⟩, queueId, rfl⟩)

end Loop

section Load

variable {config : MLFQConfig} {text : List Char}

theorem MadeOf.validate_iff {levels : List MLFQLevel} (h : MadeOf config levels)
    (hids : ∀ level ∈ levels, 0 ≤ level.queueId) :
    validateMlfqConfig config = true ↔ ∃ queueId, ∃ level ∈ lastLevel levels queueId,
      level.timeQuantum ≠ 0 ∨ level.allotment ≠ 0 := by
  simp only [validateMlfqConfig, Bool.and_eq_true, decide_eq_true_eq, List.any_eq_true,
    List.mem_finRange, true_and, Bool.or_eq_true, bne_iff_ne]
  constructor
  · rintro ⟨_, i, _, hused⟩
    rw [h.level i] at hused
    cases hlast : lastLevel levels i with
    | none => simp [hlast] at hused
    | some level => exact ⟨i, level, hlast, by simpa [hlast] using hused⟩
  · rintro ⟨queueId, level, hlast, hused⟩
    obtain ⟨hmem, rfl⟩ := mem_of_lastLevel hlast
    have hid := hids level hmem
    have hlt := (h.numLevels level.queueId.toNat).mpr ⟨level, hmem, by omega⟩
    have hmax := config.numLevels_le
    refine ⟨by omega, ⟨level.queueId.toNat, by omega⟩, hlt, ?_⟩
    rw [h.level, show (((⟨level.queueId.toNat, by omega⟩ : Fin maxMlfqLevels) : Nat) : Int) =
      level.queueId from Int.toNat_of_nonneg hid, hlast]
    exact hused

theorem MadeOf.levelLeft_iff (h : MadeOf config (levelsRead text)) :
    (∀ i : Fin maxMlfqLevels, i < config.numLevels →
        lastLevel (levelsGiven text) i = some (config.levels i)) ↔
      ∀ queueId, 0 ≤ queueId → (∃ level ∈ levelsRead text, queueId ≤ level.queueId) →
        lastLevel (levelsGiven text) queueId = some (levelLeft text queueId) := by
  constructor
  · intro hlevels queueId hnonneg hread
    obtain ⟨q, rfl⟩ := Int.eq_ofNat_of_zero_le hnonneg
    have hlt := (h.numLevels q).mpr hread
    have hlevel := hlevels ⟨q, hlt.trans_le config.numLevels_le⟩ hlt
    rwa [h.level] at hlevel
  · intro hleft i hi
    rw [h.level]
    exact hleft i (Int.natCast_nonneg _) ((h.numLevels i).mp hi)

theorem loadMlfqConfig_some (text : List Char) :
    loadMlfqConfig (some text) =
      (loadLines emptyConfig 0 (readLines mlfqConfigLineMax text.length text)).bind fun config =>
        if validateMlfqConfig config then .ok config else .error .invalidConfig := rfl

theorem loadsSoundly_of_error {e : LoadError} (h : loadMlfqConfig (some text) = .error e)
    (he : ∀ queueId, e ≠ .outOfBounds queueId) : LoadsSoundly text := by
  refine ⟨fun queueId hload => he queueId ?_, fun config hload => ?_⟩
  · exact Except.error.inj (h.symm.trans hload)
  · exact absurd (h.symm.trans hload) (by simp)

theorem loadsSoundly_of_ok (h : loadMlfqConfig (some text) = .ok config) :
    LoadsSoundly text ↔ ∀ i : Fin maxMlfqLevels, i < config.numLevels →
      lastLevel (levelsGiven text) i = some (config.levels i) := by
  refine ⟨fun hsound => (hsound.2 config h).2.2, fun hlevels => ⟨fun _ hload => ?_, ?_⟩⟩
  · exact absurd (h.symm.trans hload) (by simp)
  · intro config' hload
    obtain rfl := Except.ok.inj (h.symm.trans hload)
    exact ⟨numLevels_pos_of_load h, config.numLevels_le, hlevels⟩

/-- Which files are loaded soundly. A negative id is written in front of `levels`, and a level that
no line gives is accepted as `memset` left it. -/
theorem loadsSoundly_iff (text : List Char) : LoadsSoundly text ↔ WellGiven text := by
  obtain ⟨hok, hids, config, hload, hmade⟩ | ⟨hrejected, hids, e, hload, he⟩ |
      ⟨hneg, queueId, hload⟩ :=
    loadLines_cases madeOf_emptyConfig 0 (readLines mlfqConfigLineMax text.length text)
  · have hread : MadeOf config (levelsRead text) := hmade
    have hnonneg : ∀ level ∈ levelsRead text, 0 ≤ level.queueId := by
      intro level hlevel
      obtain ⟨line, hline, hlevel⟩ := List.mem_filterMap.mp hlevel
      exact hids line hline level hlevel
    have hfirst : ∀ line ∈ (configLines text).takeWhile (¬ ConfigLine.Rejected ·),
        ∀ level ∈ line.level?, 0 ≤ level.queueId := fun line hline =>
      hids line ((List.takeWhile_sublist _).mem hline)
    have hvalid := hread.validate_iff hnonneg
    by_cases hv : validateMlfqConfig config = true
    · have hloaded : loadMlfqConfig (some text) = .ok config := by
        rw [loadMlfqConfig_some, hload]
        exact if_pos hv
      have haccepted : Accepted text := ⟨hok, hvalid.mp hv⟩
      rw [loadsSoundly_of_ok hloaded, hread.levelLeft_iff]
      exact ⟨fun h => ⟨hfirst, fun _ => h⟩, fun h => h.2 haccepted⟩
    · have hloaded : loadMlfqConfig (some text) = .error .invalidConfig := by
        rw [loadMlfqConfig_some, hload]
        exact if_neg hv
      refine iff_of_true (loadsSoundly_of_error hloaded (by simp)) ⟨hfirst, fun haccepted => ?_⟩
      exact absurd (hvalid.mpr haccepted.2) hv
  · have hloaded : loadMlfqConfig (some text) = .error e := by
      rw [loadMlfqConfig_some, hload]
      rfl
    refine iff_of_true (loadsSoundly_of_error hloaded he) ⟨hids, fun haccepted => ?_⟩
    obtain ⟨line, hline, hrejected⟩ := hrejected
    exact absurd hrejected (haccepted.1 line hline)
  · have hloaded : loadMlfqConfig (some text) = .error (.outOfBounds queueId) := by
      rw [loadMlfqConfig_some, hload]
      rfl
    refine iff_of_false (fun hsound => hsound.1 queueId hloaded) fun hgiven => ?_
    obtain ⟨line, hline, level, hlevel, hlt⟩ := hneg
    exact absurd (hgiven.1 line hline level hlevel) (Int.not_le.mpr hlt)

/-- Where the lines come through the buffer and the numbers are within `int`, it is the ids alone
that matter: none is negative and none is left out. -/
theorem wellGiven_iff_of_read (h : levelsRead text = levelsGiven text) :
    WellGiven text ↔
      (∀ line ∈ (configLines text).takeWhile (¬ ConfigLine.Rejected ·), ∀ level ∈ line.level?,
          0 ≤ level.queueId) ∧
        (Accepted text → ∀ queueId, 0 ≤ queueId →
          (∃ level ∈ levelsGiven text, queueId ≤ level.queueId) →
            ∃ level ∈ levelsGiven text, level.queueId = queueId) := by
  unfold WellGiven levelLeft
  rw [h]
  refine and_congr_right fun _ => imp_congr_right fun _ => forall₂_congr fun queueId _ =>
    imp_congr_right fun _ => ?_
  constructor
  · intro hlast
    obtain ⟨hmem, hid⟩ := mem_of_lastLevel hlast
    exact ⟨_, hmem, hid⟩
  · rintro ⟨level, hmem, hid⟩
    cases hlast : lastLevel (levelsGiven text) queueId with
    | none =>
      rw [lastLevel, List.getLast?_eq_none_iff] at hlast
      exact absurd (List.mem_filter.mpr ⟨hmem, by simpa using hid⟩)
        (hlast ▸ List.not_mem_nil)
    | some last => rfl

end Load

/-- Level 0 is given by no line, and a negative id leads out of the array. -/
theorem loadMlfqConfig_unsound :
    ¬ LoadsSoundly "Q1 10 50\n".toList ∧
      loadMlfqConfig (some "Q-1 10 50\n".toList) = .error (.outOfBounds (-1)) := by
  constructor
  · intro hsound
    have hread : readLines mlfqConfigLineMax 9 "Q1 10 50\n".toList = ["Q1 10 50\n".toList] := by
      decide +kernel
    have hline : configLine "Q1 10 50\n".toList = .queue ⟨1, 10, 50⟩ := by decide +kernel
    have hload : loadLine emptyConfig 1 "Q1 10 50\n".toList = setLevel emptyConfig 1 10 50 := by
      rw [loadLine, hline]
      rfl
    have hgiven : lastLevel (levelsGiven "Q1 10 50\n".toList) 0 = none := by decide +kernel
    have hsome := (hsound.2 _ (loadMlfqConfig_single hread hload (by decide))).2.2 0 (by decide)
    exact absurd (hgiven.symm.trans hsome) (by simp)
  · have hread : readLines mlfqConfigLineMax 10 "Q-1 10 50\n".toList = ["Q-1 10 50\n".toList] := by
      decide +kernel
    have hline : configLine "Q-1 10 50\n".toList = .queue ⟨-1, 10, 50⟩ := by decide +kernel
    have hload : loadLine emptyConfig 1 "Q-1 10 50\n".toList = .error (.outOfBounds (-1)) := by
      rw [loadLine, hline]
      rfl
    have hloads : loadLines emptyConfig 0 ["Q-1 10 50\n".toList] = .error (.outOfBounds (-1)) := by
      rw [loadLines, hload]
      rfl
    have hlength : ("Q-1 10 50\n".toList).length = 10 := by decide
    rw [loadMlfqConfig_some, hlength, hread, hloads]
    rfl

end OsLab.Sched
