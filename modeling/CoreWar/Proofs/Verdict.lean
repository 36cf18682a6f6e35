import CoreWar.Proofs.Loading

namespace CoreWar.Battle

theorem cycles_step (battle : Battle) (index : Nat) :
    (battle.step index).2.cycles = battle.cycles :=
  of_step (P := fun after => after.cycles = battle.cycles) rfl fun _ _ => rfl

theorem ids_step (battle : Battle) (index : Nat) :
    (battle.step index).2.warriors.map (·.id) = battle.warriors.map (·.id) :=
  of_step (P := fun after => after.warriors.map (·.id) = battle.warriors.map (·.id)) rfl
    ids_afterTask

theorem steps_frame (battle : Battle) (indices : List Nat) :
    (indices.foldl (fun battle index => (battle.step index).2) battle).cycles = battle.cycles ∧
    (indices.foldl (fun battle index => (battle.step index).2) battle).warriors.map (·.id) =
      battle.warriors.map (·.id) := by
  induction indices generalizing battle with
  | nil => exact ⟨rfl, rfl⟩
  | cons index indices ih =>
    obtain ⟨hcycles, hids⟩ := ih (battle.step index).2
    exact ⟨hcycles.trans (cycles_step battle index), hids.trans (ids_step battle index)⟩

theorem cycles_cycle (battle : Battle) : battle.cycle.1.cycles = battle.cycles + 1 := by
  rw [cycle_fst]
  exact congrArg (· + 1) (steps_frame battle _).1

theorem settings_cycle (battle : Battle) : battle.cycle.1.settings = battle.settings :=
  (settings_preserved battle.settings).cycle rfl

theorem ids_cycle_sublist (battle : Battle) :
    (battle.cycle.1.warriors.map (·.id)).Sublist (battle.warriors.map (·.id)) := by
  rw [cycle_fst, ← (steps_frame battle (List.range battle.warriors.length)).2]
  exact List.filter_sublist.map _

def AllAlive (battle : Battle) : Prop := ∀ warrior ∈ battle.warriors, warrior.tasks.toList ≠ []

theorem allAlive_cycle (battle : Battle) : battle.cycle.1.AllAlive := by
  rw [cycle_fst]
  intro warrior hw hempty
  have hdead := (Warrior.isDead_iff warrior).mpr hempty
  have halive := (List.mem_filter.mp hw).2
  rw [hdead] at halive
  contradiction

theorem afterCycles_succ (battle : Battle) (count : Nat) :
    battle.afterCycles (count + 1) = (battle.afterCycles count).cycle.1 := by
  induction count generalizing battle with
  | zero => rfl
  | succ count ih => exact ih battle.cycle.1

theorem cycles_afterCycles (battle : Battle) (count : Nat) :
    (battle.afterCycles count).cycles = battle.cycles + count := by
  induction count with
  | zero => rfl
  | succ count ih => rw [afterCycles_succ, cycles_cycle, ih]; omega

theorem settings_afterCycles (battle : Battle) (count : Nat) :
    (battle.afterCycles count).settings = battle.settings := by
  induction count with
  | zero => rfl
  | succ count ih => rw [afterCycles_succ, settings_cycle, ih]

theorem AllAlive.afterCycles {battle : Battle} (h : battle.AllAlive) (count : Nat) :
    (battle.afterCycles count).AllAlive := by
  cases count with
  | zero => exact h
  | succ count =>
    rw [afterCycles_succ]
    exact allAlive_cycle _

theorem ids_afterCycles_sublist (battle : Battle) {first second : Nat} (h : first ≤ second) :
    ((battle.afterCycles second).warriors.map (·.id)).Sublist
      ((battle.afterCycles first).warriors.map (·.id)) := by
  induction h with
  | refl => exact List.Sublist.refl _
  | step _ ih =>
    rw [afterCycles_succ]
    exact (ids_cycle_sublist _).trans ih

theorem outcome_cycles (battle : Battle) : battle.outcome.cycles = battle.cycles := by
  unfold outcome
  split
  · split <;> rfl
  · rfl

theorem outcome_win_iff (battle : Battle) (id : Nat) :
    (battle.outcome.status = .win ∧ battle.outcome.winner = some id) ↔
      1 < battle.settings.warriors ∧ ∃ winner, battle.warriors = [winner] ∧ winner.id = id := by
  unfold outcome
  split
  · next winner hw =>
    by_cases hc : 1 < battle.settings.warriors
    · simp [isContested, hc, hw]
    · simp [isContested, hc]
  · next hw =>
    have hnone : ¬ ∃ winner, battle.warriors = [winner] ∧ winner.id = id := by
      rintro ⟨winner, he, _⟩
      exact hw winner he
    simp [hnone]

theorem outcome_tie_iff (battle : Battle) :
    (battle.outcome.status = .tie ∧ battle.outcome.winner = none) ↔
      ¬ (1 < battle.settings.warriors ∧ battle.warriors.length = 1) := by
  unfold outcome
  split
  · next winner hw =>
    by_cases hc : 1 < battle.settings.warriors
    · simp [isContested, hc, hw]
    · simp [isContested, hc]
  · next hw =>
    have hmany : battle.warriors.length ≠ 1 := by
      intro hl
      obtain ⟨winner, he⟩ := List.length_eq_one_iff.mp hl
      exact hw winner he
    simp [hmany]

/-- Where a run stops: at the first cycle that finds the match over, or when none is left. -/
theorem exists_runCycles_eq {σ : Type} (record : σ → Notice → σ) (left : Nat) (battle : Battle)
    (seen : σ) :
    ∃ count, count ≤ left ∧ (runCycles record left battle seen).1 = battle.afterCycles count ∧
      (count = left ∨ (battle.afterCycles count).isOver = true) ∧
      ∀ fewer, fewer < count → (battle.afterCycles fewer).isOver = false := by
  induction left generalizing battle seen with
  | zero => exact ⟨0, Nat.le_refl _, rfl, .inl rfl, fun _ h => absurd h (Nat.not_lt_zero _)⟩
  | succ left ih =>
    rw [runCycles]
    by_cases ho : battle.isOver = true
    · rw [if_pos ho]
      exact ⟨0, Nat.zero_le _, rfl, .inr ho, fun _ h => absurd h (Nat.not_lt_zero _)⟩
    · rw [if_neg ho]
      obtain ⟨count, hle, hrun, hstop, hbefore⟩ :=
        ih battle.cycle.1 (battle.cycle.2.foldl record seen)
      refine ⟨count + 1, Nat.succ_le_succ hle, hrun, hstop.imp_left (congrArg (· + 1)), ?_⟩
      intro fewer hf
      cases fewer with
      | zero => exact Bool.eq_false_iff.mpr ho
      | succ fewer => exact hbefore fewer (Nat.lt_of_succ_lt_succ hf)

def Stopped (battle : Battle) : Prop :=
  battle.settings.cyclesBeforeTie ≤ battle.cycles ∨ battle.isOver = true

theorem exists_run_eq {σ : Type} (record : σ → Notice → σ) (battle : Battle) (seen : σ) :
    ∃ count, (battle.run record seen).2.1 = battle.afterCycles count ∧
      (battle.afterCycles count).Stopped ∧
      ∀ fewer, fewer < count → ¬ (battle.afterCycles fewer).Stopped := by
  obtain ⟨count, hle, hrun, hstop, hbefore⟩ := exists_runCycles_eq record
    (battle.settings.cyclesBeforeTie - battle.cycles) battle seen
  refine ⟨count, hrun, ?_, ?_⟩
  · rw [Stopped, settings_afterCycles, cycles_afterCycles]
    exact hstop.imp_left (fun h => by omega)
  · intro fewer hf
    rw [Stopped, settings_afterCycles, cycles_afterCycles, hbefore fewer hf]
    simp only [Bool.false_eq_true, or_false]
    omega

theorem run_of_stopped {σ : Type} (record : σ → Notice → σ) {battle : Battle}
    (h : battle.Stopped) (seen : σ) :
    battle.run record seen =
      (battle.outcome, battle, record seen (.decided battle.outcome)) := by
  have hrun : runCycles record (battle.settings.cyclesBeforeTie - battle.cycles) battle seen =
      (battle, seen) := by
    cases hleft : battle.settings.cyclesBeforeTie - battle.cycles with
    | zero => rfl
    | succ left =>
      have ho : battle.isOver = true := h.resolve_left (by omega)
      rw [runCycles]
      exact if_pos ho
  simp only [run, hrun]

def living (battle : Battle) : List Warrior := battle.warriors.filter (!·.isDead)

theorem AllAlive.living_eq {battle : Battle} (h : battle.AllAlive) :
    battle.living = battle.warriors := by
  apply List.filter_eq_self.mpr
  intro warrior hw
  have halive := mt (Warrior.isDead_iff warrior).mp (h warrior hw)
  simpa using halive

/-- The cycles are used up, at most one of several warriors lives, or a lone warrior does not. -/
def Finished (battle : Battle) : Prop :=
  battle.settings.cyclesBeforeTie ≤ battle.cycles ∨
    if 1 < battle.settings.warriors then battle.living.length ≤ 1 else battle.living = []

theorem AllAlive.finished_iff {battle : Battle} (h : battle.AllAlive) :
    battle.Finished ↔ battle.Stopped := by
  rw [Finished, Stopped, isOver, isContested, h.living_eq]
  by_cases hc : 1 < battle.settings.warriors <;> simp [hc]

theorem AllAlive.performAll {battle : Battle} (h : battle.AllAlive) {actions : List Action}
    (ha : ∀ action ∈ actions, ∀ index, action ≠ .step index) :
    (battle.performAll actions).AllAlive := by
  induction actions generalizing battle with
  | nil => exact h
  | cons action actions ih =>
    obtain ⟨hstep, hrest⟩ := List.forall_mem_cons.mp ha
    apply ih _ hrest
    cases action with
    | cycle => exact allAlive_cycle battle
    | step index => exact absurd rfl (hstep index)
    | executeAt address => exact h
    | poke address insn => exact h
    | run =>
      obtain ⟨count, hrun, _, _⟩ := exists_run_eq (fun seen _ => seen) battle ()
      rw [perform, hrun]
      exact h.afterCycles count

theorem allAlive_of_load {settings : Settings} {programs : List Program} {draws : Draws}
    {battle : Battle} {notices : List Notice}
    (h : load settings programs draws = .ok (battle, notices)) : battle.AllAlive := by
  obtain ⟨hvalid, _, offsets, _, rfl⟩ := load_eq_ok h
  have hpos : 0 < (Core.ofSettings settings).size := by
    rw [Core.size_ofSettings]
    exact hvalid.coreSize_pos
  intro warrior hw
  obtain ⟨number, entry, _, rfl⟩ := exists_start_of_mem_loadWarriors hpos hw
  simp [Warrior.start, Queue.toList_ofList]

/-- A run from a match whose listed warriors all live leaves it as the least number of cycles that
finishes it does. The verdict goes by the warriors that are left, no warrior comes back, and
another run changes nothing. All listed warriors live as long as none is stepped from outside. -/
theorem run_takes_least_cycles :
    (∀ {settings : Settings} {programs : List Program} {draws : Draws} {battle : Battle}
      {notices : List Notice} {actions : List Action},
      load settings programs draws = .ok (battle, notices) →
      (∀ action ∈ actions, ∀ index, action ≠ .step index) →
      ∀ warrior ∈ (battle.performAll actions).warriors, warrior.tasks.toList ≠ []) ∧
    ∀ {battle : Battle}, (∀ warrior ∈ battle.warriors, warrior.tasks.toList ≠ []) →
      ∀ {σ : Type} (record : σ → Notice → σ) (seen : σ),
        (∃ count, (battle.afterCycles count).Finished ∧
          (∀ fewer, fewer < count → ¬ (battle.afterCycles fewer).Finished) ∧
          (battle.run record seen).2.1 = battle.afterCycles count) ∧
        (∀ id, ((battle.run record seen).1.status = .win ∧
            (battle.run record seen).1.winner = some id) ↔
          1 < battle.settings.warriors ∧
            ∃ winner, (battle.run record seen).2.1.living = [winner] ∧ winner.id = id) ∧
        (((battle.run record seen).1.status = .tie ∧ (battle.run record seen).1.winner = none) ↔
          ¬ (1 < battle.settings.warriors ∧ (battle.run record seen).2.1.living.length = 1)) ∧
        (battle.run record seen).1.cycles = (battle.run record seen).2.1.cycles ∧
        (∀ first second id, first ≤ second →
          id ∉ (battle.afterCycles first).warriors.map (·.id) →
          id ∉ (battle.afterCycles second).warriors.map (·.id)) ∧
        ∀ again, (battle.run record seen).2.1.run record again =
          ((battle.run record seen).1, (battle.run record seen).2.1,
            record again (.decided (battle.run record seen).1)) := by
  refine ⟨fun hload hactions => (allAlive_of_load hload).performAll hactions, ?_⟩
  intro battle h σ record seen
  have halive : battle.AllAlive := h
  obtain ⟨count, hrun, hstop, hbefore⟩ := exists_run_eq record battle seen
  have hleft := (halive.afterCycles count).living_eq
  have hsettings := settings_afterCycles battle count
  rw [run_fst, hrun, hleft, ← hsettings]
  refine ⟨⟨count, ?_, ?_, rfl⟩, outcome_win_iff _, outcome_tie_iff _, outcome_cycles _, ?_,
    run_of_stopped record hstop⟩
  · exact (halive.afterCycles count).finished_iff.mpr hstop
  · intro fewer hf
    rw [(halive.afterCycles fewer).finished_iff]
    exact hbefore fewer hf
  · intro first second id hle habsent hpresent
    exact habsent ((ids_afterCycles_sublist battle hle).subset hpresent)

theorem run_takes_least_cycles_duel :
    ∃ battle notices, load .duel [.splitter, .imp] (fun _ => 0) = .ok (battle, notices) ∧
      ∃ count, ((battle.performAll [.cycle, .poke 5 .empty]).afterCycles count).Finished ∧
        (∀ fewer, fewer < count →
          ¬ ((battle.performAll [.cycle, .poke 5 .empty]).afterCycles fewer).Finished) ∧
        ((battle.performAll [.cycle, .poke 5 .empty]).run (fun seen _ => seen) ()).2.1 =
          (battle.performAll [.cycle, .poke 5 .empty]).afterCycles count := by
  have hload : load .duel [.splitter, .imp] (fun _ => 0) = .ok _ := rfl
  have hactions : ∀ action ∈ [Action.cycle, .poke 5 .empty], ∀ index, action ≠ .step index := by
    simp
  have halive := run_takes_least_cycles.1 hload hactions
  exact ⟨_, _, hload, (run_takes_least_cycles.2 halive (fun seen _ => seen) ()).1⟩

/-- The warrior of this number has a task, and no other warrior has one. -/
def SoleSurvivor (battle : Battle) (id : Nat) : Prop :=
  (∃ warrior ∈ battle.warriors, warrior.id = id ∧ warrior.tasks.toList ≠ []) ∧
    ∀ warrior ∈ battle.warriors, warrior.id ≠ id → warrior.tasks.toList = []

theorem soleSurvivor_iff {battle : Battle} {winner : Warrior} (h : battle.warriors = [winner]) :
    battle.SoleSurvivor winner.id ↔ winner.tasks.toList ≠ [] := by
  simp [SoleSurvivor, h]

/-- A win among several warriors goes to the sole survivor, except where a run starts with a list of
one warrior that has no task left. -/
theorem win_soleSurvivor_iff {settings : Settings} {programs : List Program} {draws : Draws}
    {battle : Battle} {notices : List Notice}
    (hload : load settings programs draws = .ok (battle, notices)) (actions : List Action)
    {σ : Type} (record : σ → Notice → σ) (seen : σ) {id cycles : Nat}
    (hwin : ((battle.performAll actions).run record seen).1 = ⟨.win, some id, cycles⟩) :
    1 < settings.warriors ∧
    (((battle.performAll actions).run record seen).2.1.SoleSurvivor id ↔
      ¬ ∃ corpse, (battle.performAll actions).warriors = [corpse] ∧ corpse.tasks.toList = []) := by
  have hsettings := (settings_performAll battle actions).trans (settings_of_load hload)
  obtain ⟨count, hrun, hstop, hbefore⟩ := exists_run_eq record (battle.performAll actions) seen
  have hfinal := settings_afterCycles (battle.performAll actions) count
  rw [run_fst, hrun] at hwin
  rw [hrun]
  have houtcome := outcome_win_iff ((battle.performAll actions).afterCycles count) id
  rw [hwin, hfinal, hsettings] at houtcome
  obtain ⟨hcontested, winner, hlist, rfl⟩ := houtcome.mp ⟨rfl, rfl⟩
  refine ⟨hcontested, ?_⟩
  rw [soleSurvivor_iff hlist]
  constructor
  · rintro halive ⟨corpse, hcorpse, hdead⟩
    -- A list of one warrior is over at once, so the winner is the corpse.
    have hover : (battle.performAll actions).Stopped := by
      right
      simp [isOver, isContested, hsettings, hcontested, hcorpse]
    cases count with
    | zero =>
      obtain rfl : winner = corpse := by simpa [afterCycles, hcorpse] using hlist.symm
      exact halive hdead
    | succ count => exact hbefore 0 (Nat.succ_pos count) hover
  · intro hcorpse
    cases count with
    | zero => exact fun hdead => hcorpse ⟨winner, hlist, hdead⟩
    | succ count =>
      rw [afterCycles_succ] at hlist
      apply allAlive_cycle ((battle.performAll actions).afterCycles count)
      rw [hlist]
      exact List.mem_singleton_self winner

theorem win_soleSurvivor_iff_imp :
    ∃ battle notices, load .duel [.dud, .imp] (fun _ => 0) = .ok (battle, notices) ∧
      ((battle.performAll [.step 1, .cycle]).run (fun seen _ => seen) ()).1 = ⟨.win, some 1, 1⟩ ∧
      ((battle.performAll [.step 1, .cycle]).run (fun seen _ => seen) ()).2.1.SoleSurvivor 1 := by
  have hload : load .duel [.dud, .imp] (fun _ => 0) = .ok _ := rfl
  refine ⟨_, _, hload, rfl, ?_⟩
  apply (win_soleSurvivor_iff hload [.step 1, .cycle] (fun seen _ => seen) () rfl).2.mpr
  rintro ⟨corpse, hlist, hdead⟩
  cases hlist
  revert hdead
  decide

/-- The stumbler outlives the dud, loses its last task to a step from outside, and still wins. -/
theorem win_without_survivor :
    ∃ battle notices, load .duel [.dud, .stumbler] (fun _ => 0) = .ok (battle, notices) ∧
      ((battle.performAll [.cycle, .step 0]).run (fun seen _ => seen) ()).1 = ⟨.win, some 1, 1⟩ ∧
      ¬ ((battle.performAll [.cycle, .step 0]).run (fun seen _ => seen) ()).2.1.SoleSurvivor 1 := by
  refine ⟨_, _, rfl, rfl, ?_⟩
  rintro ⟨⟨warrior, hw, _, ht⟩, _⟩
  revert warrior
  decide

end CoreWar.Battle
