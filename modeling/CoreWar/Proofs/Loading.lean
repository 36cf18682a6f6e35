import CoreWar.Proofs.Bounds
import CoreWar.Proofs.Checks
import CoreWar.Proofs.Scheduling

namespace CoreWar

namespace Settings

structure Valid (settings : Settings) : Prop where
  coreSize_pos : 0 < settings.coreSize
  cyclesBeforeTie_pos : 0 < settings.cyclesBeforeTie
  instructionLimit_pos : 0 < settings.instructionLimit
  maxTasks_pos : 0 < settings.maxTasks
  minimumSeparation_pos : 0 < settings.minimumSeparation
  warriors_pos : 0 < settings.warriors
  distance : ∀ window, 0 < settings.distance window ∧
    settings.distance window ≤ settings.coreSize ∧ settings.distance window ∣ settings.coreSize
  separation : ∀ gap, settings.separation = .fixed gap → settings.minimumSeparation ≤ gap

theorem checkDistance_eq_ok_iff (settings : Settings) (window : Window) :
    settings.checkDistance window = .ok () ↔ 0 < settings.distance window ∧
      settings.distance window ≤ settings.coreSize ∧
      settings.distance window ∣ settings.coreSize := by
  simp only [checkDistance, throw, throwThe, MonadExceptOf.throw, bind, Except.bind, pure, Except.pure]
  rw [refuse_eq_ok_iff, refuse_eq_ok_iff, Nat.dvd_iff_mod_eq_zero]
  constructor
  · rintro ⟨hrange, hmod, _⟩
    exact ⟨by omega, by omega, by omega⟩
  · rintro ⟨hpos, hle, hmod⟩
    exact ⟨by omega, by omega, rfl⟩

theorem checkSeparation_eq_ok_iff (settings : Settings) :
    settings.checkSeparation = .ok () ↔
      ∀ gap, settings.separation = .fixed gap → settings.minimumSeparation ≤ gap := by
  rw [checkSeparation]
  cases settings.separation with
  | fixed gap =>
    rw [refuse_eq_ok_iff]
    simp
  | random => simp

theorem validate_eq_ok_iff (settings : Settings) :
    settings.validate = .ok () ↔ settings.Valid := by
  have hchecks : settings.validate = (
      if settings.coreSize = 0 then .error (.notPositive "core_size")
      else if settings.cyclesBeforeTie = 0 then .error (.notPositive "cycles_before_tie")
      else if settings.instructionLimit = 0 then .error (.notPositive "instruction_limit")
      else if settings.maxTasks = 0 then .error (.notPositive "max_num_tasks")
      else if settings.minimumSeparation = 0 then .error (.notPositive "minimum_separation")
      else if settings.warriors = 0 then .error .noWarriors
      else settings.checkDistance .read >>= fun _ =>
        settings.checkDistance .write >>= fun _ => settings.checkSeparation) := rfl
  simp only [hchecks, refuse_eq_ok_iff, check_eq_ok_iff, checkDistance_eq_ok_iff,
    checkSeparation_eq_ok_iff]
  constructor
  · rintro ⟨hsize, hcycles, hlimit, htasks, hminimum, hwarriors, hread, hwrite, hgap⟩
    refine ⟨by omega, by omega, by omega, by omega, by omega, by omega, ?_, hgap⟩
    intro window
    cases window with
    | read => exact hread
    | write => exact hwrite
  · intro h
    exact ⟨Nat.ne_of_gt h.coreSize_pos, Nat.ne_of_gt h.cyclesBeforeTie_pos,
      Nat.ne_of_gt h.instructionLimit_pos, Nat.ne_of_gt h.maxTasks_pos,
      Nat.ne_of_gt h.minimumSeparation_pos, Nat.ne_of_gt h.warriors_pos, h.distance .read,
      h.distance .write, h.separation⟩

end Settings

@[simp] theorem Core.size_ofSettings (settings : Settings) :
    (Core.ofSettings settings).size = settings.coreSize := by simp [ofSettings, size]

theorem Core.sound_ofSettings {settings : Settings} (h : settings.Valid)
    (hsize : settings.coreSize ≤ Core.maxSize) : (Core.ofSettings settings).Sound := by
  have hs := size_ofSettings settings
  have hd : ∀ window, (Core.ofSettings settings).distance window = settings.distance window := by
    intro window
    cases window <;> rfl
  constructor
  · rw [hs]; exact h.coreSize_pos
  · rw [hs]; exact hsize
  · intro window; rw [hd]; exact (h.distance window).1
  · intro window; rw [hd, hs]; exact (h.distance window).2.1

theorem checkPrograms_length {settings : Settings} {programs : List Program}
    (h : checkPrograms settings programs = .ok ()) : programs.length = settings.warriors := by
  rw [checkPrograms, refuse_eq_ok_iff] at h
  exact Decidable.not_not.mp h.1

namespace Battle

theorem loadWarriors_shape (maxTasks : Nat) (core : Core) (id : Nat)
    (entries : List (Program × Nat)) :
    (loadWarriors maxTasks core id entries).2.2.shape = core.shape := by
  induction entries generalizing core id with
  | nil => rfl
  | cons entry entries ih =>
    rw [loadWarriors]
    exact (ih _ _).trans (Core.shape_storeAll _ _ _)

theorem loadWarriors_ids (maxTasks : Nat) (core : Core) (id : Nat)
    (entries : List (Program × Nat)) :
    (loadWarriors maxTasks core id entries).1.map (·.id) = List.range' id entries.length := by
  induction entries generalizing core id with
  | nil => rfl
  | cons entry entries ih =>
    simp only [loadWarriors, List.map_cons, ih, List.length_cons, List.range'_succ]
    rfl

theorem exists_start_of_mem_loadWarriors {maxTasks : Nat} {core : Core} (h : 0 < core.size)
    {id : Nat} {entries : List (Program × Nat)} {warrior : Warrior}
    (hw : warrior ∈ (loadWarriors maxTasks core id entries).1) :
    ∃ number entry, entry < core.size ∧ warrior = .start number maxTasks entry := by
  induction entries generalizing core id with
  | nil => simp [loadWarriors] at hw
  | cons entry entries ih =>
    rw [loadWarriors] at hw
    obtain rfl | hw := List.mem_cons.mp hw
    · exact ⟨id, _, Core.advance_lt h _ _, rfl⟩
    · have hs := Core.size_eq_of_shape_eq (Core.shape_storeAll core
        (core.wrap (Int64.ofNat entry.2)) entry.1.code)
      obtain ⟨number, start, hlt, he⟩ := ih (by rw [hs]; exact h) hw
      exact ⟨number, start, by rw [← hs]; exact hlt, he⟩

/-- A match that was loaded has passed all checks, and stands as its programs were written. -/
theorem load_eq_ok {settings : Settings} {programs : List Program} {draws : Draws}
    {battle : Battle} {notices : List Notice}
    (h : load settings programs draws = .ok (battle, notices)) :
    settings.Valid ∧ checkPrograms settings programs = .ok () ∧
      ∃ offsets, placements settings draws = .ok offsets ∧
        battle = ⟨settings,
          (loadWarriors settings.maxTasks (.ofSettings settings) 0 (programs.zip offsets)).2.2,
          (loadWarriors settings.maxTasks (.ofSettings settings) 0 (programs.zip offsets)).1,
          offsets, 0⟩ := by
  rw [load, check_eq_ok_iff, check_eq_ok_iff] at h
  obtain ⟨hvalid, hprograms, hplaced⟩ := h
  refine ⟨?_, hprograms, ?_⟩
  · rw [← Settings.validate_eq_ok_iff]
    cases hv : settings.validate with
    | error fault =>
      rw [hv] at hvalid
      cases hvalid
    | ok u => rfl
  · cases hp : placements settings draws with
    | error e => simp [hp, bind, Except.bind] at hplaced
    | ok offsets =>
      simp only [hp, bind, Except.bind, pure, Except.pure, Except.ok.injEq, Prod.mk.injEq] at hplaced
      exact ⟨offsets, rfl, hplaced.1.symm⟩

theorem settings_of_load {settings : Settings} {programs : List Program} {draws : Draws}
    {battle : Battle} {notices : List Notice}
    (h : load settings programs draws = .ok (battle, notices)) : battle.settings = settings := by
  obtain ⟨_, _, offsets, _, rfl⟩ := load_eq_ok h
  rfl

end Battle

def Settings.duel : Settings where
  coreSize := 8
  cyclesBeforeTie := 20
  initial := .empty
  instructionLimit := 4
  maxTasks := 3
  minimumSeparation := 4
  readDistance := 8
  writeDistance := 4
  separation := .fixed 4
  warriors := 2

def Program.splitter : Program where
  code := [⟨.spl, .b, ⟨.direct, 0⟩, ⟨.preDecrement, 1⟩⟩,
    ⟨.mov, .i, ⟨.postIncrement, -1⟩, ⟨.indirect, 5⟩⟩]
  start := 0
  start_lt := by decide

def Program.imp : Program where
  code := [⟨.mov, .i, ⟨.direct, 0⟩, ⟨.direct, 1⟩⟩]
  start := 0
  start_lt := by decide

def Program.dud : Program where
  code := [.empty]
  start := 0
  start_lt := by decide

def Program.stumbler : Program where
  code := [⟨.jmp, .b, ⟨.direct, 1⟩, ⟨.immediate, 0⟩⟩, .empty]
  start := 0
  start_lt := by decide

end CoreWar
