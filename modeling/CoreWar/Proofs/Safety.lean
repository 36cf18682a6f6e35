import CoreWar.Proofs.Guarded
import CoreWar.Proofs.Invariant

namespace CoreWar

def Core.storeFrom? (core : Core) (base : Pointer) (index : Nat) : List Instruction → Option Core
  | [] => some core
  | insn :: code => do
    let core ← core.store? (base.add index) insn
    core.storeFrom? base (index + 1) code

namespace Battle

def loadWarriors? (maxTasks : Nat) (core : Core) (id : Nat) :
    List (Program × Nat) → Option (List (Warrior Pointer) × Core)
  | [] => some ([], core)
  | (program, offset) :: rest => do
    let base ← core.pointer? (Int64.ofNat offset)
    let core ← core.storeFrom? base 0 program.code
    let (warriors, core) ← loadWarriors? maxTasks core (id + 1) rest
    return (.start id maxTasks (base.add program.start) :: warriors, core)

/-- Loads programs at their offsets. The tasks of the match hold pointers. -/
def load? (settings : Settings) (programs : List Program) (offsets : List Nat) :
    Option (Battle Pointer) := do
  let (warriors, core) ←
    loadWarriors? settings.maxTasks (.ofSettings settings) 0 (programs.zip offsets)
  return ⟨settings, core, warriors, offsets, 0⟩

def step? (battle : Battle Pointer) (index : Nat) : Option (Battle Pointer) :=
  match battle.warriors[index]? with
  | none => some battle
  | some warrior =>
    match warrior.take? with
    | none => some battle
    | some (task, rest) => do
      let _ ← battle.core.cell? task.address
      let (update, core) ← battle.core.execute? task.address
      return { battle with
        core
        warriors := battle.warriors.set index (rest.settle task update).2 }

def cycle? (battle : Battle Pointer) : Option (Battle Pointer) := do
  let battle ← (List.range battle.warriors.length).foldlM step? battle
  return battle.endCycle.1

def runCycles? : (left : Nat) → Battle Pointer → Option (Battle Pointer)
  | 0, battle => some battle
  | left + 1, battle =>
    if battle.isOver then
      some battle
    else do
      let battle ← battle.cycle?
      runCycles? left battle

/-- An action of `Battle.perform` on pointers, which gives up at the first guard that fails. -/
def perform? (battle : Battle Pointer) : Action → Option (Battle Pointer)
  | .cycle => battle.cycle?
  | .step index => battle.step? index
  | .executeAt address => do
    let pc ← battle.core.pointer? address
    let (_, core) ← battle.core.execute? pc
    return { battle with core }
  | .poke address insn => do
    let cell ← battle.core.pointer? address
    let core ← battle.core.store? cell insn
    return { battle with core }
  | .run => runCycles? (battle.settings.cyclesBeforeTie - battle.cycles) battle

def performAll? (battle : Battle Pointer) (actions : List Action) : Option (Battle Pointer) :=
  actions.foldlM perform? battle

end Battle

theorem Core.storeFrom?_eq {core : Core} {size : Nat} (h : core.SoundRing size) (base index : Nat)
    (code : List Instruction) :
    core.storeFrom? (.inRing size base) index code =
      some (core.storeAll (core.advance base index) code) := by
  induction code generalizing core index with
  | nil => rfl
  | cons insn code ih =>
    have hshape := shape_store core (core.advance base index) insn
    rw [storeFrom?, h.add_eq, store?_eq h (h.advance_lt base index), Option.bind_eq_bind,
      Option.bind_some, ih (h.of_shape_eq hshape), storeAll, advance_advance,
      advance_eq_of_shape_eq hshape]

namespace Battle

theorem loadWarriors?_eq {core : Core} {size : Nat} (h : core.SoundRing size) (maxTasks id : Nat)
    (entries : List (Program × Nat)) :
    loadWarriors? maxTasks core id entries =
      some ((loadWarriors maxTasks core id entries).1.map (Warrior.map (.inRing size)),
        (loadWarriors maxTasks core id entries).2.2) := by
  induction entries generalizing core id with
  | nil => rfl
  | cons entry entries ih =>
    have hbase : core.wrap (Int64.ofNat entry.2) < core.size := Core.wrap_lt h.sound.size_pos _
    have hself : core.advance (core.wrap (Int64.ofNat entry.2)) 0 =
        core.wrap (Int64.ofNat entry.2) := Nat.mod_eq_of_lt hbase
    have hrest := ih (h.of_shape_eq (Core.shape_storeAll core
      (core.wrap (Int64.ofNat entry.2)) entry.1.code)) (id + 1)
    simp only [loadWarriors?, Core.pointer?_eq h, h.pointer_eq, Core.storeFrom?_eq h, hself, hrest,
      h.add_eq, Option.bind_eq_bind, Option.bind_some]
    rfl

def pointed (battle : Battle) : Battle Pointer := battle.map (.inRing battle.settings.coreSize)

theorem map_address_pointed (battle : Battle) : battle.pointed.map Pointer.address = battle :=
  map_map_of_inverse (Pointer.inRing_address _) battle

theorem mem_pointed {battle : Battle} {warrior : Warrior Pointer} {task : Task Pointer}
    (hw : warrior ∈ battle.pointed.warriors) (ht : task ∈ warrior.tasks.toList) :
    ∃ before ∈ battle.warriors, ∃ placed ∈ before.tasks.toList,
      task = placed.map (.inRing battle.settings.coreSize) := by
  obtain ⟨before, hb, rfl⟩ := List.mem_map.mp hw
  rw [Warrior.map, Queue.toList_map] at ht
  obtain ⟨placed, hp, rfl⟩ := List.mem_map.mp ht
  exact ⟨before, hb, placed, hp, rfl⟩

theorem load?_eq {settings : Settings} {programs : List Program} {draws : Draws} {battle : Battle}
    {notices : List Notice} (hsize : settings.coreSize ≤ Core.maxSize)
    (hload : load settings programs draws = .ok (battle, notices)) :
    load? settings programs battle.offsets = some battle.pointed := by
  obtain ⟨hvalid, _, offsets, _, rfl⟩ := load_eq_ok hload
  have hring : (Core.ofSettings settings).SoundRing settings.coreSize :=
    ⟨Core.sound_ofSettings hvalid hsize, Core.size_ofSettings settings⟩
  rw [load?, loadWarriors?_eq hring]
  rfl

variable {battle : Battle}

theorem Sound.ring (h : battle.Sound) : battle.core.SoundRing battle.settings.coreSize :=
  ⟨h.core, h.size_eq⟩

theorem step?_eq (h : battle.Sound) (index : Nat) :
    battle.pointed.step? index = some (battle.step index).2.pointed := by
  have hmap : battle.pointed.warriors[index]? =
      battle.warriors[index]?.map (Warrior.map (.inRing battle.settings.coreSize)) :=
    List.getElem?_map
  unfold step?
  cases hw : battle.warriors[index]? with
  | none =>
    rw [hw] at hmap
    simp only [hmap, Option.map_none, step_of_absent hw]
  | some warrior =>
    have htake := Warrior.take?_map (Pointer.inRing battle.settings.coreSize) warrior
    rw [hw] at hmap
    cases ht : warrior.take? with
    | none =>
      rw [ht] at htake
      simp only [hmap, Option.map_some, htake, Option.map_none, step_of_dead hw ht]
    | some taken =>
      obtain ⟨task, rest⟩ := taken
      obtain ⟨tasks, _, hl⟩ := Warrior.take?_eq_some ht
      have hpc : task.address < battle.settings.coreSize :=
        (h.warriors warrior (List.mem_of_getElem? hw)).address_lt task (by simp [hl])
      have hcell := Core.cell?_eq h.ring hpc
      have hexecute := Core.execute?_eq h.ring hpc
      rw [ht] at htake
      simp only [hmap, Option.map_some, htake, step_of_task hw ht]
      change (battle.core.cell? (.inRing _ task.address) >>= fun _ =>
        battle.core.execute? (.inRing _ task.address) >>= _) = _
      simp only [hcell, hexecute, Option.bind_eq_bind, Option.bind_some, Warrior.settle_map]
      simp only [pointed, map, afterTask, List.map_set]
      rfl

theorem steps?_eq (h : battle.Sound) (indices : List Nat) :
    indices.foldlM step? battle.pointed =
      some (indices.foldl (fun battle index => (battle.step index).2) battle).pointed := by
  induction indices generalizing battle with
  | nil => rfl
  | cons index indices ih =>
    rw [List.foldlM_cons, step?_eq h, Option.bind_eq_bind, Option.bind_some]
    exact ih (sound_preserved.step battle index h)

theorem cycle?_eq (h : battle.Sound) : battle.pointed.cycle? = some battle.cycle.1.pointed := by
  have hlength : battle.pointed.warriors.length = battle.warriors.length := List.length_map _
  rw [cycle_fst, cycle?, hlength, steps?_eq h, Option.bind_eq_bind, Option.bind_some, pointed,
    endCycle_map]
  rfl

theorem runCycles?_eq {σ : Type} (record : σ → Notice → σ) (left : Nat) (h : battle.Sound)
    (seen : σ) :
    runCycles? left battle.pointed = some (runCycles record left battle seen).1.pointed := by
  induction left generalizing battle seen with
  | zero => rfl
  | succ left ih =>
    unfold runCycles? runCycles
    rw [pointed, isOver_map]
    split
    · rfl
    · rw [← pointed, cycle?_eq h, Option.bind_eq_bind, Option.bind_some]
      exact ih (sound_preserved.cycle h) _

theorem perform?_eq (h : battle.Sound) (action : Action) :
    battle.pointed.perform? action = some (battle.perform action).pointed := by
  have hwrap : ∀ address, battle.core.wrap address < battle.settings.coreSize := by
    intro address
    rw [← h.size_eq]
    exact Core.wrap_lt h.core.size_pos address
  cases action with
  | cycle => exact cycle?_eq h
  | step index => exact step?_eq h index
  | executeAt address =>
    change (battle.core.pointer? address >>= fun pc => battle.core.execute? pc >>= _) = _
    rw [Core.pointer?_eq h.ring, h.ring.pointer_eq, Option.bind_eq_bind, Option.bind_some,
      Core.execute?_eq h.ring (hwrap address)]
    rfl
  | poke address insn =>
    change (battle.core.pointer? address >>= fun cell => battle.core.store? cell insn >>= _) = _
    rw [Core.pointer?_eq h.ring, h.ring.pointer_eq, Option.bind_eq_bind, Option.bind_some,
      Core.store?_eq h.ring (hwrap address)]
    rfl
  | run => exact runCycles?_eq _ _ h ()

theorem sound_perform (h : battle.Sound) (action : Action) : (battle.perform action).Sound :=
  sound_preserved.performAll [action] h

theorem performAll?_eq (h : battle.Sound) (actions : List Action) :
    battle.pointed.performAll? actions = some (battle.performAll actions).pointed := by
  induction actions generalizing battle with
  | nil => rfl
  | cons action actions ih =>
    rw [performAll?, List.foldlM_cons, perform?_eq h, Option.bind_eq_bind, Option.bind_some]
    exact ih (sound_perform h action)

/-- The invariant of a match that was loaded, after any actions. The same match with pointers in
place of addresses, each reduced by the size that it carries, comes to the same state: no guard
fails, and every pointer carries the size of the core. -/
theorem performAll_safe {settings : Settings} {programs : List Program} {draws : Draws}
    {notices : List Notice} (hsize : settings.coreSize ≤ Core.maxSize)
    (hload : load settings programs draws = .ok (battle, notices)) (actions : List Action) :
    (battle.performAll actions).core.cells.size = settings.coreSize ∧
    (∀ warrior ∈ (battle.performAll actions).warriors,
      (∀ task ∈ warrior.tasks.toList, task.address < settings.coreSize) ∧
      warrior.tasks.toList.length ≤ settings.maxTasks ∧
      (warrior.tasks.toList.map (·.id)).Nodup ∧
      (∀ task ∈ warrior.tasks.toList, task.id < warrior.nextTask) ∧
      warrior.id < settings.warriors) ∧
    ((battle.performAll actions).warriors.map (·.id)).Pairwise (· < ·) ∧
    ∃ start finish : Battle Pointer,
      load? settings programs battle.offsets = some start ∧
      start.map Pointer.address = battle ∧
      start.performAll? actions = some finish ∧
      finish.map Pointer.address = battle.performAll actions ∧
      ∀ warrior ∈ finish.warriors, ∀ task ∈ warrior.tasks.toList,
        task.address.address < settings.coreSize ∧ task.address.size = settings.coreSize := by
  have hbefore := sound_of_load hsize hload
  have hafter := sound_preserved.performAll actions hbefore
  have hsettings := (settings_performAll battle actions).trans (settings_of_load hload)
  have hcells := hafter.size_eq
  have hwarrior := hafter.warriors
  rw [hsettings] at hcells hwarrior
  refine ⟨hcells, ?_, hafter.ids_lt, battle.pointed, (battle.performAll actions).pointed,
    load?_eq hsize hload, map_address_pointed _, performAll?_eq hbefore actions,
    map_address_pointed _, ?_⟩
  · intro warrior hw
    have hsound := hwarrior warrior hw
    have hid := hafter.id_lt warrior hw
    rw [hsettings] at hid
    exact ⟨hsound.address_lt, hsound.length_le, hsound.ids_nodup, hsound.id_lt, hid⟩
  · intro warrior hw task ht
    obtain ⟨before, hb, placed, hp, rfl⟩ := mem_pointed hw ht
    rw [hsettings]
    exact ⟨(hwarrior before hb).address_lt placed hp, rfl⟩

theorem performAll_safe_duel :
    ∃ battle notices, ∃ start finish : Battle Pointer,
      Settings.duel.coreSize ≤ Core.maxSize ∧
      load .duel [.splitter, .imp] (fun _ => 0) = .ok (battle, notices) ∧
      load? .duel [.splitter, .imp] battle.offsets = some start ∧
      start.performAll? [.cycle, .step 1, .poke (-1) .empty, .executeAt 100, .run] = some finish ∧
      finish.map Pointer.address =
        battle.performAll [.cycle, .step 1, .poke (-1) .empty, .executeAt 100, .run] ∧
      finish.warriors.map (·.tasks.toList) =
        [[⟨1, ⟨1, 8⟩⟩, ⟨2, ⟨0, 8⟩⟩], [⟨0, ⟨1, 8⟩⟩]] ∧
      ∀ warrior ∈ finish.warriors, ∀ task ∈ warrior.tasks.toList, task.address.size = 8 := by
  have hload : load .duel [.splitter, .imp] (fun _ => 0) = .ok _ := rfl
  obtain ⟨_, _, _, start, finish, hstart, _, hrun, hback, hsizes⟩ :=
    performAll_safe (by decide) hload [.cycle, .step 1, .poke (-1) .empty, .executeAt 100, .run]
  have htasks : ((load? .duel [.splitter, .imp] [0, 4]).bind fun battle =>
      battle.performAll? [.cycle, .step 1, .poke (-1) .empty, .executeAt 100, .run]).map
        (fun battle => battle.warriors.map (·.tasks.toList)) =
      some [[⟨1, ⟨1, 8⟩⟩, ⟨2, ⟨0, 8⟩⟩], [⟨0, ⟨1, 8⟩⟩]] := by decide +kernel
  have hplaced : load? .duel [.splitter, .imp] [0, 4] = some start := hstart
  rw [hplaced, Option.bind_some, hrun] at htasks
  exact ⟨_, _, start, finish, by decide, hload, hstart, hrun, hback, Option.some.inj htasks,
    fun warrior hw task ht => (hsizes warrior hw task ht).2⟩

end Battle

end CoreWar
