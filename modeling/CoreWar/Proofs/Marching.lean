import CoreWar.Proofs.Labels
import CoreWar.Proofs.LoadedPrograms
import CoreWar.Proofs.Rounds
import CoreWar.Proofs.Verdict

namespace CoreWar

def Instruction.imp : Instruction := ⟨.mov, .i, ⟨.direct, 0⟩, ⟨.direct, 1⟩⟩

namespace Core

variable {core : Core}

theorem offset_zero (h : core.Sound) (window : Window) : core.offset window 0 = 0 := by
  have hpos := h.distance_pos window
  have hreach : Window.Reaches (core.distance window) (Int64.toInt 0) := by
    rw [Int64.toInt_zero]
    constructor <;> omega
  have hoffset := offset_of_reaches h hreach
  rw [Int64.toInt_zero] at hoffset
  omega

theorem offset_one (h : core.Sound) {window : Window} (hd : 2 ≤ core.distance window) :
    core.offset window 1 = 1 := by
  have hreach : Window.Reaches (core.distance window) (Int64.toInt 1) := by
    rw [Int64.toInt_one]
    constructor <;> omega
  have hoffset := offset_of_reaches h hreach
  rw [Int64.toInt_one] at hoffset
  omega

theorem execute_imp (h : core.Sound) (hwrite : 2 ≤ core.distance .write) {pc : Nat}
    (hpc : pc < core.size) (hf : core.fetch pc = .imp) :
    core.execute pc =
      (.continueAt (core.advance pc 1), core.store (core.advance pc 1) .imp) := by
  have ha : Field.a.operand (core.fetch pc) = ⟨.direct, 0⟩ := by
    rw [hf]
    rfl
  have hb : Field.b.operand (core.fetch pc) = ⟨.direct, 1⟩ := by
    rw [hf]
    rfl
  have hself : core.advance pc 0 = pc := Nat.mod_eq_of_lt hpc
  have hdecode : core.decode pc =
      (⟨pc, .imp, ⟨.imp, pc, pc⟩, core.targetAt pc (core.offset .read 1, 1)⟩, core) := by
    simp only [decode, resolve_direct ha, resolve_direct hb, offset_zero h, offset_one h hwrite,
      targetAt, hself, hf]
  rw [execute, hdecode]
  rfl

end Core

theorem Warrior.isDead_of_task {warrior : Warrior} {task : Task}
    (h : warrior.tasks.toList = [task]) : warrior.isDead = false := by
  rw [Bool.eq_false_iff, ne_eq, isDead_iff, h]
  exact List.cons_ne_nil _ _

namespace Battle

/-- A match with a lone warrior whose imp has made `count` steps. -/
structure Marching (settings : Settings) (count : Nat) (battle : Battle) : Prop where
  shape_eq : battle.core.shape = (Core.ofSettings settings).shape
  fetch_eq : ∀ address, address < settings.coreSize →
    battle.core.fetch address = if address ≤ count then .imp else settings.initial
  warriors_eq : ∃ warrior : Warrior, battle.warriors = [warrior] ∧ warrior.id = 0 ∧
    warrior.tasks.toList = [⟨0, count % settings.coreSize⟩]

theorem cycle_of_lone {battle : Battle} {warrior : Warrior} {task : Task} {next : Nat}
    (hlist : battle.warriors = [warrior]) (htasks : warrior.tasks.toList = [task])
    (hnext : (battle.core.execute task.address).1 = .continueAt next) :
    battle.cycle.1.core = (battle.core.execute task.address).2 ∧
      ∃ after : Warrior, battle.cycle.1.warriors = [after] ∧ after.id = warrior.id ∧
        after.tasks.toList = [{ task with address := next }] := by
  obtain ⟨rest, htake, hrest, _⟩ := Warrior.exists_take?_eq htasks
  have hfirst : battle.warriors[0]? = some warrior := by
    rw [hlist]
    rfl
  have hstep : (battle.step 0).2 = battle.afterTask 0 task rest :=
    congrArg Prod.snd (step_of_task hfirst htake)
  have hcycle : battle.cycle.1 = (battle.afterTask 0 task rest).endCycle.1 := by
    rw [cycle_fst, hlist, ← hstep]
    rfl
  have hafter : (battle.afterTask 0 task rest).warriors = [rest.requeue task (some next)] := by
    rw [afterTask, hlist, hnext]
    rfl
  have hqueue : (rest.requeue task (some next)).tasks.toList = [{ task with address := next }] := by
    rw [Warrior.toList_requeue, hrest]
    rfl
  have halive := Warrior.isDead_of_task hqueue
  refine ⟨by rw [hcycle]; rfl, rest.requeue task (some next), ?_, ?_, hqueue⟩
  · simp [hcycle, endCycle, hafter, halive]
  · obtain ⟨_, rfl, _⟩ := Warrior.take?_eq_some htake
    rfl

variable {settings : Settings} {battle : Battle} {count : Nat}

/-- One more step. Once the imp has gone around the core, there is nothing left to change. -/
theorem Marching.cycle (hsound : (Core.ofSettings settings).Sound)
    (hwrite : 2 ≤ settings.writeDistance) (h : battle.Marching settings count) :
    battle.cycle.1.Marching settings (count + 1) := by
  obtain ⟨hshape, hfetch, warrior, hlist, hid, htasks⟩ := h
  have hcore := hsound.of_shape_eq hshape
  have hsize : battle.core.size = settings.coreSize := by
    rw [Core.size_eq_of_shape_eq hshape, Core.size_ofSettings]
  have hpos : 0 < settings.coreSize := hsize ▸ hcore.size_pos
  have hdistance : 2 ≤ battle.core.distance .write := by
    rw [Core.distance_eq_of_shape_eq hshape]
    exact hwrite
  have hplace : count % settings.coreSize < settings.coreSize := Nat.mod_lt _ hpos
  have himp : battle.core.fetch (count % settings.coreSize) = .imp := by
    rw [hfetch _ hplace, if_pos (Nat.mod_le _ _)]
  have hahead : battle.core.advance (count % settings.coreSize) 1 =
      (count + 1) % settings.coreSize := by
    rw [Core.advance, hsize, Nat.mod_add_mod]
  have hexecute := Core.execute_imp hcore hdistance (by rw [hsize]; exact hplace) himp
  rw [hahead] at hexecute
  obtain ⟨hafter, after, hnext, hsame, hqueue⟩ :=
    cycle_of_lone hlist htasks (congrArg Prod.fst hexecute)
  rw [congrArg Prod.snd hexecute] at hafter
  refine ⟨?_, ?_, after, hnext, hsame.trans hid, hqueue⟩
  · rw [hafter, Core.shape_store, hshape]
  · intro address hlt
    rw [hafter, Core.fetch_store (by rw [hsize]; exact Nat.mod_lt _ hpos), hfetch address hlt]
    by_cases haround : count + 1 < settings.coreSize
    · rw [Nat.mod_eq_of_lt haround]
      by_cases hnew : count + 1 = address
      · rw [if_pos hnew, if_pos (by omega)]
      · rw [if_neg hnew]
        exact if_congr (by omega) rfl rfl
    · have hpassed : address ≤ count := by omega
      rw [if_pos hpassed, if_pos (Nat.le_succ_of_le hpassed), ite_self]

theorem Marching.afterCycles (hsound : (Core.ofSettings settings).Sound)
    (hwrite : 2 ≤ settings.writeDistance) (h : battle.Marching settings 0) (count : Nat) :
    (battle.afterCycles count).Marching settings count := by
  induction count with
  | zero => exact h
  | succ count ih =>
    rw [afterCycles_succ]
    exact ih.cycle hsound hwrite

section

variable {program : Program} {draws : Draws} {notices : List Notice}

theorem offsets_of_lone_load (hload : load settings [program] draws = .ok (battle, notices)) :
    battle.offsets = [0] := by
  obtain ⟨hvalid, hprograms, offsets, hplaced, rfl⟩ := load_eq_ok hload
  have hspread := Settings.spread_of_placements hvalid hplaced
  have hlength : offsets.length = 1 := hspread.length_eq.trans (checkPrograms_length hprograms).symm
  obtain ⟨offset, rfl⟩ := List.length_eq_one_iff.mp hlength
  cases hspread.head_eq
  rfl

theorem marching_of_load (hsize : settings.coreSize ≤ Core.maxSize) (hcode : program.code = [.imp])
    (hload : load settings [program] draws = .ok (battle, notices)) :
    battle.Marching settings 0 := by
  have hsettings := settings_of_load hload
  have hsound := sound_of_load hsize hload
  have hpos := hsound.valid.coreSize_pos
  have hfit : ∀ other ∈ [program], other.FoldsInto settings.coreSize := by
    intro other hm
    obtain rfl := List.mem_singleton.mp hm
    apply Program.foldsInto_of_length_le
    rw [Program.length, hcode, ← hsettings]
    exact hpos
  have hholds := holds_of_load hsize hload hfit
  have hoffsets := offsets_of_lone_load hload
  have hstart : program.start = 0 := by
    have hlt := program.start_lt
    rw [hcode] at hlt
    exact Nat.lt_one_iff.mp hlt
  have hentry : ([program].zip battle.offsets)[0]? = some (program, 0) := by
    rw [hoffsets]
    rfl
  refine ⟨?_, ?_, ?_⟩
  · rw [hsound.shape_eq, hsettings]
  · intro address hlt
    by_cases hzero : address = 0
    · rw [if_pos (Nat.le_of_eq hzero)]
      refine hholds.code 0 0 address .imp ⟨program, 0, hentry, ?_, ?_⟩
      · rw [hcode]
        rfl
      · rw [hzero]
        exact Nat.zero_mod _
    · rw [if_neg (by omega), ← hsettings]
      apply hholds.rest address (by rw [hsettings]; exact hlt)
      rintro i j insn ⟨other, offset, hi, hj, haddress⟩
      -- Only the first instruction of the only program is put anywhere.
      rw [hoffsets] at hi
      cases List.mem_singleton.mp (List.mem_of_getElem? hi)
      rw [hcode] at hj
      have hlast : j = 0 := Nat.lt_one_iff.mp (List.getElem?_eq_some_iff.mp hj).1
      rw [hlast, Nat.zero_mod] at haddress
      exact hzero haddress.symm
  · obtain ⟨warrior, hwarrior, hid, htasks⟩ := hholds.warriors 0 program 0 hentry
    obtain ⟨only, hlist⟩ := List.length_eq_one_iff.mp hholds.warriors_length
    rw [hlist] at hwarrior
    cases hwarrior
    refine ⟨warrior, hlist, hid, ?_⟩
    rw [htasks, hstart, hsettings]

theorem isOver_of_marching (hlone : battle.settings.warriors = 1)
    (h : battle.Marching settings count) : battle.isOver = false := by
  obtain ⟨warrior, hlist, _⟩ := h.warriors_eq
  simp [isOver, isContested, hlone, hlist]

end

theorem run_of_never_over {σ : Type} (record : σ → Notice → σ) (seen : σ)
    (hfresh : battle.cycles = 0) (h : ∀ count, (battle.afterCycles count).isOver = false) :
    (battle.run record seen).2.1 = battle.afterCycles battle.settings.cyclesBeforeTie := by
  have hstopped : ∀ count, (battle.afterCycles count).Stopped ↔
      battle.settings.cyclesBeforeTie ≤ count := by
    intro count
    rw [Stopped, settings_afterCycles, cycles_afterCycles, hfresh, h count, Nat.zero_add]
    simp
  obtain ⟨count, hrun, hstop, hbefore⟩ := exists_run_eq record battle seen
  have hle := (hstopped count).mp hstop
  have hge : ¬ battle.settings.cyclesBeforeTie < count := by
    intro hlt
    exact hbefore _ hlt ((hstopped _).mpr (Nat.le_refl _))
  rw [hrun, Nat.le_antisymm (Nat.not_lt.mp hge) hle]

theorem outcome_of_lone (hlone : battle.settings.warriors = 1) :
    battle.outcome = ⟨.tie, none, battle.cycles⟩ := by
  unfold outcome
  split
  · simp [isContested, hlone]
  · rfl

/-- Alone in its match, the imp never dies. After any number of cycles its only task is as many
cells ahead, around the core, each cell that it came by holds an imp and each other cell is as it
was initially. So the match is a tie after all its cycles. -/
theorem imp_marches {program : Program} {draws : Draws} {notices : List Notice}
    (hsize : settings.coreSize ≤ Core.maxSize) (hwrite : 2 ≤ settings.writeDistance)
    (hcode : program.code = [⟨.mov, .i, ⟨.direct, 0⟩, ⟨.direct, 1⟩⟩])
    (hload : load settings [program] draws = .ok (battle, notices)) :
    (∀ count, (battle.afterCycles count).core.size = settings.coreSize ∧
      (∀ address, address < settings.coreSize →
        (battle.afterCycles count).core.fetch address =
          if address ≤ count then ⟨.mov, .i, ⟨.direct, 0⟩, ⟨.direct, 1⟩⟩ else settings.initial) ∧
      ∃ warrior : Warrior, (battle.afterCycles count).warriors = [warrior] ∧ warrior.id = 0 ∧
        warrior.isDead = false ∧ warrior.tasks.toList = [⟨0, count % settings.coreSize⟩]) ∧
    ∀ {σ : Type} (record : σ → Notice → σ) (seen : σ),
      (battle.run record seen).1 = ⟨.tie, none, settings.cyclesBeforeTie⟩ ∧
      (battle.run record seen).2.1 = battle.afterCycles settings.cyclesBeforeTie := by
  obtain ⟨hvalid, hprograms, offsets, _, hbattle⟩ := load_eq_ok hload
  have hsettings := settings_of_load hload
  have hlone : battle.settings.warriors = 1 := by
    rw [hsettings]
    exact (checkPrograms_length hprograms).symm
  have hfresh : battle.cycles = 0 := by rw [hbattle]
  have hmarch := (marching_of_load hsize hcode hload).afterCycles
    (Core.sound_ofSettings hvalid hsize) hwrite
  constructor
  · intro count
    obtain ⟨warrior, hlist, hid, htasks⟩ := (hmarch count).warriors_eq
    refine ⟨?_, (hmarch count).fetch_eq, warrior, hlist, hid, Warrior.isDead_of_task htasks, htasks⟩
    rw [Core.size_eq_of_shape_eq (hmarch count).shape_eq, Core.size_ofSettings]
  · intro σ record seen
    have halways : ∀ count, (battle.afterCycles count).settings.warriors = 1 := by
      intro count
      rw [settings_afterCycles, hlone]
    have hrun := run_of_never_over record seen hfresh
      fun count => isOver_of_marching (halways count) (hmarch count)
    rw [run_fst, hrun, outcome_of_lone (halways _), cycles_afterCycles, hfresh, Nat.zero_add,
      hsettings]
    exact ⟨rfl, rfl⟩

end Battle

def Settings.blinkered : Settings where
  coreSize := 6
  cyclesBeforeTie := 20
  initial := ⟨.jmp, .b, ⟨.direct, 3⟩, ⟨.immediate, 0⟩⟩
  instructionLimit := 1
  maxTasks := 1
  minimumSeparation := 1
  readDistance := 1
  writeDistance := 2
  separation := .random
  warriors := 1

theorem Battle.imp_marches_blinkered :
    ∃ battle notices, Settings.blinkered.coreSize ≤ Core.maxSize ∧
      2 ≤ Settings.blinkered.writeDistance ∧
      Program.imp.code = [⟨.mov, .i, ⟨.direct, 0⟩, ⟨.direct, 1⟩⟩] ∧
      load .blinkered [.imp] (fun _ => 0) = .ok (battle, notices) ∧
      (battle.afterCycles 2).core.fetch 3 = ⟨.jmp, .b, ⟨.direct, 3⟩, ⟨.immediate, 0⟩⟩ ∧
      (battle.afterCycles 8).core.fetch 3 = ⟨.mov, .i, ⟨.direct, 0⟩, ⟨.direct, 1⟩⟩ ∧
      (∃ warrior : Warrior, (battle.afterCycles 8).warriors = [warrior] ∧
        warrior.tasks.toList = [⟨0, 2⟩]) ∧
      (battle.run (fun seen _ => seen) ()).1 = ⟨.tie, none, 20⟩ := by
  have hload : load .blinkered [.imp] (fun _ => 0) = .ok _ := rfl
  obtain ⟨hcycles, hrun⟩ := imp_marches (by decide) (by decide) rfl hload
  obtain ⟨_, _, warrior, hlist, _, _, htasks⟩ := hcycles 8
  exact ⟨_, _, by decide, by decide, rfl, hload, (hcycles 2).2.1 3 (by decide),
    (hcycles 8).2.1 3 (by decide), ⟨warrior, hlist, htasks⟩, (hrun (fun seen _ => seen) ()).1⟩

end CoreWar
