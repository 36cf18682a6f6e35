import CoreWar.Proofs.Invariant
import CoreWar.Proofs.LoadedPrograms
import CoreWar.Proofs.Recording

namespace CoreWar

def Report.spawns (report : Report) : Bool := report.update.spawn.isSome && !report.dropped

namespace Event

def history (events : List Event) (warrior task : Nat) : List Event :=
  events.filter fun event => event.warrior = warrior ∧ event.task = task

def spawners (events : List Event) (warrior : Nat) : List Event :=
  events.filter fun event => event.warrior = warrior ∧ event.spawns

/-- Each step of a task is where the one before sent the task. Its first step is where the warrior
started, or else where it was spawned: task `number + 1` by the spawning step `number`. -/
structure Consistent (entry : Nat → Option Nat) (events : List Event) : Prop where
  next : ∀ warrior task past earlier later future,
    history events warrior task = past ++ earlier :: later :: future →
    earlier.update.next = some later.pc
  last : ∀ warrior task past final future,
    history events warrior task = past ++ final :: future → final.update.next = none → future = []
  entry : ∀ warrior first rest, history events warrior 0 = first :: rest →
    entry warrior = some first.pc
  spawn : ∀ warrior number first rest, history events warrior (number + 1) = first :: rest →
    ∃ spawner, (spawners events warrior)[number]? = some spawner ∧
      spawner.update.spawn = some first.pc ∧ [spawner, first].Sublist events

def origin? (entry : Nat → Option Nat) (events : List Event) (warrior : Nat) : Nat → Option Nat
  | 0 => entry warrior
  | number + 1 => (spawners events warrior)[number]?.bind (·.update.spawn)

/-- Where the events tell that a task is. -/
def position? (entry : Nat → Option Nat) (events : List Event) (warrior task : Nat) : Option Nat :=
  match (history events warrior task).getLast? with
  | some last => last.update.next
  | none => origin? entry events warrior task

/-- All events are where the events before them tell. -/
def Foretold (entry : Nat → Option Nat) (events : List Event) : Prop :=
  ∀ past event future, events = past ++ event :: future →
    position? entry past event.warrior event.task = some event.pc

variable {entry : Nat → Option Nat} {events : List Event} {event : Event} {warrior task : Nat}

theorem history_append (events more : List Event) (warrior task : Nat) :
    history (events ++ more) warrior task =
      history events warrior task ++ history more warrior task :=
  List.filter_append _ _

theorem spawners_append (events more : List Event) (warrior : Nat) :
    spawners (events ++ more) warrior = spawners events warrior ++ spawners more warrior :=
  List.filter_append _ _

theorem exists_split_of_history {past future : List Event}
    (h : history events warrior task = past ++ event :: future) :
    ∃ before after, events = before ++ event :: after ∧ history before warrior task = past ∧
      event.warrior = warrior ∧ event.task = task := by
  obtain ⟨front, back, rfl, rfl, hback⟩ := List.filter_eq_append_iff.mp h
  obtain ⟨skipped, after, rfl, hskipped, hevent, _⟩ := List.filter_eq_cons_iff.mp hback
  have hnone : history skipped warrior task = [] := List.filter_eq_nil_iff.mpr hskipped
  refine ⟨front ++ skipped, after, by simp, ?_, of_decide_eq_true hevent⟩
  rw [history_append, hnone, List.append_nil]
  rfl

theorem position?_of_history_nil (h : history events warrior task = []) :
    position? entry events warrior task = origin? entry events warrior task := by
  rw [position?, h]
  rfl

theorem position?_of_history_concat {past : List Event}
    (h : history events warrior task = past ++ [event]) :
    position? entry events warrior task = event.update.next := by
  rw [position?, h, List.getLast?_concat]

theorem Foretold.next (h : Foretold entry events) {past future : List Event}
    {earlier later : Event}
    (hsteps : history events warrior task = past ++ earlier :: later :: future) :
    earlier.update.next = some later.pc := by
  rw [List.append_cons] at hsteps
  obtain ⟨before, after, hsplit, hpast, rfl, rfl⟩ := exists_split_of_history hsteps
  rw [← position?_of_history_concat hpast]
  exact h before later after hsplit

theorem Foretold.exists_origin (h : Foretold entry events) {first : Event} {rest : List Event}
    (hsteps : history events warrior task = first :: rest) :
    ∃ before after, events = before ++ first :: after ∧
      origin? entry before warrior task = some first.pc := by
  rw [← List.nil_append (first :: rest)] at hsteps
  obtain ⟨before, after, hsplit, hpast, rfl, rfl⟩ := exists_split_of_history hsteps
  refine ⟨before, after, hsplit, ?_⟩
  rw [← position?_of_history_nil hpast]
  exact h before first after hsplit

/-- What was foretold one event at a time holds of whole histories. -/
theorem Foretold.consistent (h : Foretold entry events) : Consistent entry events where
  next _ _ _ _ _ _ := h.next
  last warrior task past final future hsteps hdies := by
    cases future with
    | nil => rfl
    | cons later future =>
      rw [h.next hsteps] at hdies
      cases hdies
  entry warrior first rest hsteps := by
    obtain ⟨_, _, _, horigin⟩ := h.exists_origin hsteps
    exact horigin
  spawn warrior number first rest hsteps := by
    obtain ⟨before, after, rfl, horigin⟩ := h.exists_origin hsteps
    obtain ⟨spawner, hspawner, hspawn⟩ := Option.bind_eq_some_iff.mp horigin
    have hbefore : spawner ∈ before := (List.mem_filter.mp (List.mem_of_getElem? hspawner)).1
    refine ⟨spawner, ?_, hspawn, ?_⟩
    · rw [spawners_append, List.getElem?_append_left (List.getElem?_eq_some_iff.mp hspawner).1]
      exact hspawner
    · exact (List.singleton_sublist.mpr hbefore).append
        (List.singleton_sublist.mpr List.mem_cons_self)

theorem position?_append_self :
    position? entry (events ++ [event]) event.warrior event.task = event.update.next := by
  have hlast : history [event] event.warrior event.task = [event] := by simp [history]
  apply position?_of_history_concat
  rw [history_append, hlast]

theorem origin?_append {address : Nat} (h : origin? entry events warrior task = some address) :
    origin? entry (events ++ [event]) warrior task = some address := by
  cases task with
  | zero => exact h
  | succ number =>
    obtain ⟨spawner, hspawner, hspawn⟩ := Option.bind_eq_some_iff.mp h
    have hlt := (List.getElem?_eq_some_iff.mp hspawner).1
    rw [origin?, spawners_append, List.getElem?_append_left hlt, hspawner]
    exact hspawn

theorem position?_append_of_ne {address : Nat}
    (h : position? entry events warrior task = some address)
    (hne : ¬ (event.warrior = warrior ∧ event.task = task)) :
    position? entry (events ++ [event]) warrior task = some address := by
  have hhistory : history (events ++ [event]) warrior task = history events warrior task := by
    rw [history_append]
    simp [history, hne]
  rw [position?] at h ⊢
  rw [hhistory]
  cases hlast : (history events warrior task).getLast? with
  | some last =>
    rw [hlast] at h
    exact h
  | none =>
    rw [hlast] at h
    exact origin?_append h

theorem position?_append_spawned (hspawns : event.spawns = true)
    (hnew : history (events ++ [event]) event.warrior
      ((spawners events event.warrior).length + 1) = []) :
    position? entry (events ++ [event]) event.warrior
      ((spawners events event.warrior).length + 1) = event.update.spawn := by
  have hlast : spawners [event] event.warrior = [event] := by simp [spawners, hspawns]
  rw [position?_of_history_nil hnew, origin?, spawners_append, hlast, List.getElem?_concat_length]
  rfl

theorem Foretold.append (h : Foretold entry events)
    (hevent : position? entry events event.warrior event.task = some event.pc) :
    Foretold entry (events ++ [event]) := by
  intro past other future hsplit
  -- The event is the last one, or it was there before.
  obtain rfl | ⟨more, last, rfl⟩ := List.eq_nil_or_concat future
  · obtain ⟨rfl, he⟩ := List.append_inj' hsplit rfl
    cases he
    exact hevent
  · rw [List.concat_eq_append, ← List.cons_append, ← List.append_assoc] at hsplit
    exact h past other more (List.append_inj' hsplit rfl).1

end Event

namespace Warrior

open Event

theorem settle_spawns_cases (warrior : Warrior) (task : Task) (update : Update) :
    (warrior.settle task update).1.spawns = false ∧
        (warrior.settle task update).2 = warrior.requeue task update.next ∨
      ∃ address, update.spawn = some address ∧ (warrior.settle task update).1.spawns = true ∧
        (warrior.settle task update).2 = (warrior.requeue task update.next).spawn address := by
  unfold settle
  cases h : update.spawn with
  | none => exact .inl ⟨by simp [Report.spawns, h], rfl⟩
  | some address =>
    dsimp only
    split
    · exact .inr ⟨address, rfl, by simp [Report.spawns, h], rfl⟩
    · exact .inl ⟨by simp [Report.spawns], rfl⟩

/-- A warrior has numbered its tasks by the steps that spawned them, and its queue holds them where
the events tell. -/
structure Tracked (entry : Nat → Option Nat) (events : List Event) (warrior : Warrior) : Prop where
  nextTask_eq : warrior.nextTask = (spawners events warrior.id).length + 1
  task_lt : ∀ event ∈ events, event.warrior = warrior.id → event.task < warrior.nextTask
  position_eq : ∀ task ∈ warrior.tasks.toList,
    position? entry events warrior.id task.id = some task.address

variable {entry : Nat → Option Nat} {events : List Event} {event : Event} {size maxTasks : Nat}
  {warrior rest : Warrior} {task : Task} {update : Update}

theorem tracked_start {id address : Nat} (h : entry id = some address) :
    (start id maxTasks address).Tracked entry [] := by
  refine ⟨rfl, fun _ hm => absurd hm List.not_mem_nil, ?_⟩
  intro task ht
  rw [start, Queue.toList_ofList, List.mem_singleton] at ht
  subst ht
  exact h

theorem Tracked.append_of_ne (h : warrior.Tracked entry events) (hne : event.warrior ≠ warrior.id) :
    warrior.Tracked entry (events ++ [event]) := by
  have hspawners : spawners [event] warrior.id = [] := by simp [spawners, hne]
  refine ⟨?_, ?_, ?_⟩
  · rw [spawners_append, hspawners, List.append_nil]
    exact h.nextTask_eq
  · intro other ho hid
    obtain ho | ho := List.mem_append.mp ho
    · exact h.task_lt other ho hid
    · rw [List.mem_singleton.mp ho] at hid
      exact absurd hid hne
  · intro task ht
    exact position?_append_of_ne (h.position_eq task ht) fun hsame => hne hsame.1

theorem Tracked.position_requeue (h : warrior.Tracked entry events)
    (hs : warrior.Sound size maxTasks) (ht : warrior.take? = some (task, rest))
    (hid : event.warrior = warrior.id) (htask : event.task = task.id) :
    ∀ other ∈ (rest.requeue task event.update.next).tasks.toList,
      position? entry (events ++ [event]) warrior.id other.id = some other.address := by
  obtain ⟨tasks, rfl, hl⟩ := take?_eq_some ht
  have hids := hs.ids_nodup
  rw [hl, List.map_cons, List.nodup_cons] at hids
  intro other ho
  rw [toList_requeue, List.mem_append] at ho
  obtain ho | ho := ho
  · have hm : other ∈ warrior.tasks.toList := hl ▸ List.mem_cons_of_mem _ ho
    apply position?_append_of_ne (h.position_eq other hm)
    rintro ⟨_, hsame⟩
    exact hids.1 (htask.symm.trans hsame ▸ List.mem_map_of_mem ho)
  · obtain ⟨address, ha, rfl⟩ := Option.map_eq_some_iff.mp (Option.mem_toList.mp ho)
    rw [← ha, ← hid]
    dsimp only
    rw [← htask]
    exact position?_append_self

theorem Tracked.task_lt_append (h : warrior.Tracked entry events)
    (hs : warrior.Sound size maxTasks) (ht : warrior.take? = some (task, rest))
    (htask : event.task = task.id) :
    ∀ other ∈ events ++ [event], other.warrior = warrior.id → other.task < warrior.nextTask := by
  obtain ⟨tasks, rfl, hl⟩ := take?_eq_some ht
  intro other ho hid
  obtain ho | ho := List.mem_append.mp ho
  · exact h.task_lt other ho hid
  · rw [List.mem_singleton.mp ho, htask]
    exact hs.id_lt task (hl ▸ List.mem_cons_self)

theorem Tracked.requeue (h : warrior.Tracked entry events) (hs : warrior.Sound size maxTasks)
    (ht : warrior.take? = some (task, rest)) (hid : event.warrior = warrior.id)
    (htask : event.task = task.id) (hspawns : event.spawns = false) :
    (rest.requeue task event.update.next).Tracked entry (events ++ [event]) := by
  have hqueue := h.position_requeue hs ht hid htask
  have hlt := h.task_lt_append hs ht htask
  have hspawners : spawners [event] warrior.id = [] := by simp [spawners, hspawns]
  obtain ⟨tasks, rfl, _⟩ := take?_eq_some ht
  refine ⟨?_, ?_, ?_⟩
  · rw [requeue_nextTask, requeue_id, spawners_append, hspawners, List.append_nil]
    exact h.nextTask_eq
  · rw [requeue_nextTask, requeue_id]
    exact hlt
  · rw [requeue_id]
    exact hqueue

theorem Tracked.spawn (h : warrior.Tracked entry events) (hs : warrior.Sound size maxTasks)
    (ht : warrior.take? = some (task, rest)) (hid : event.warrior = warrior.id)
    (htask : event.task = task.id) (hspawns : event.spawns = true) {address : Nat}
    (ha : event.update.spawn = some address) :
    ((rest.requeue task event.update.next).spawn address).Tracked entry (events ++ [event]) := by
  have hqueue := h.position_requeue hs ht hid htask
  have hlt := h.task_lt_append hs ht htask
  have hspawners : spawners [event] warrior.id = [event] := by simp [spawners, hspawns, hid]
  obtain ⟨tasks, rfl, _⟩ := take?_eq_some ht
  -- No event is of the task that is numbered now.
  have hnew : history (events ++ [event]) event.warrior warrior.nextTask = [] := by
    apply List.filter_eq_nil_iff.mpr
    intro other ho hsame
    obtain ⟨hother, hnumber⟩ := of_decide_eq_true hsame
    exact absurd hnumber (Nat.ne_of_lt (hlt other ho (hother.trans hid)))
  refine ⟨?_, ?_, ?_⟩ <;> simp only [Warrior.spawn, requeue_nextTask, requeue_id]
  · rw [spawners_append, hspawners, List.length_append, List.length_singleton, h.nextTask_eq]
  · intro other ho hother
    exact Nat.lt_succ_of_lt (hlt other ho hother)
  · intro other ho
    rw [Queue.toList_push, List.mem_append, List.mem_singleton] at ho
    obtain ho | rfl := ho
    · exact hqueue other ho
    · rw [h.nextTask_eq, ← hid] at hnew ⊢
      rw [position?_append_spawned hspawns hnew, ha]

/-- The event of a task accounts for what has become of the queue. -/
theorem Tracked.settle (h : warrior.Tracked entry events) (hs : warrior.Sound size maxTasks)
    (ht : warrior.take? = some (task, rest)) (hid : event.warrior = warrior.id)
    (hreport : event.toReport = (rest.settle task update).1) :
    (rest.settle task update).2.Tracked entry (events ++ [event]) := by
  obtain ⟨dropped, hfields⟩ := exists_settle_fst_eq rest task update
  have htask : event.task = task.id := congrArg Report.task (hreport.trans hfields)
  obtain rfl : event.update = update := congrArg Report.update (hreport.trans hfields)
  obtain ⟨hspawns, hafter⟩ | ⟨address, ha, hspawns, hafter⟩ :=
    settle_spawns_cases rest task event.update
  · rw [hafter]
    exact h.requeue hs ht hid htask (hreport ▸ hspawns)
  · rw [hafter]
    exact h.spawn hs ht hid htask (hreport ▸ hspawns) ha

end Warrior

namespace Battle

open Event

variable {entry : Nat → Option Nat} {battle : Battle} {events : List Event}

/-- Of a match and its events so far: the queues and the events agree, all events were foretold and
none is of a later cycle than the next. -/
structure Tracks (entry : Nat → Option Nat) (battle : Battle) (events : List Event) : Prop where
  coreSize_pos : 0 < battle.settings.coreSize
  size_eq : battle.core.size = battle.settings.coreSize
  ids_lt : (battle.warriors.map (·.id)).Pairwise (· < ·)
  sound : ∀ warrior ∈ battle.warriors,
    warrior.Sound battle.settings.coreSize battle.settings.maxTasks
  tracked : ∀ warrior ∈ battle.warriors, warrior.Tracked entry events
  foretold : Foretold entry events
  cycle_le : ∀ event ∈ events, event.cycle ≤ battle.cycles
  cycles_le : (events.map (·.cycle)).Pairwise (· ≤ ·)

theorem mem_set_cases {warriors : List Warrior} {index : Nat} {warrior changed other : Warrior}
    (hids : (warriors.map (·.id)).Nodup) (hw : warriors[index]? = some warrior)
    (ho : other ∈ warriors.set index changed) :
    other = changed ∨ other ∈ warriors ∧ other.id ≠ warrior.id := by
  obtain ⟨place, hplace⟩ := List.mem_iff_getElem?.mp ho
  by_cases he : index = place
  · subst he
    rw [List.getElem?_set_self (List.getElem?_eq_some_iff.mp hw).1] at hplace
    exact .inl (Option.some.inj hplace).symm
  · rw [List.getElem?_set_ne he] at hplace
    refine .inr ⟨List.mem_of_getElem? hplace, ?_⟩
    intro hsame
    have hlt : index < (warriors.map (·.id)).length := by
      rw [List.length_map]
      exact (List.getElem?_eq_some_iff.mp hw).1
    apply he
    rw [← List.getElem?_inj hlt hids, List.getElem?_map, List.getElem?_map, hw, hplace,
      Option.map_some, Option.map_some, hsame]

theorem Tracks.afterTask (h : battle.Tracks entry events) {index : Nat} {warrior rest : Warrior}
    {task : Task} (hw : battle.warriors[index]? = some warrior)
    (ht : warrior.take? = some (task, rest)) :
    (battle.afterTask index task rest).Tracks entry (events ++ [battle.taskEvent task rest]) := by
  have hm := List.mem_of_getElem? hw
  have hsound := h.sound warrior hm
  have htracked := h.tracked warrior hm
  have hids := ids_afterTask hw ht
  have hwithin := Core.execute_within (h.size_eq ▸ h.coreSize_pos) task.address
  rw [h.size_eq] at hwithin
  obtain ⟨tasks, hrest, hl⟩ := Warrior.take?_eq_some ht
  have hid : (battle.taskEvent task rest).warrior = warrior.id := by rw [taskEvent, hrest]
  have hnodup : (battle.warriors.map (·.id)).Nodup := h.ids_lt.imp Nat.ne_of_lt
  refine ⟨h.coreSize_pos, (Core.size_execute _ _).trans h.size_eq, ?_, ?_, ?_, ?_, ?_, ?_⟩
  · rw [hids]
    exact h.ids_lt
  · intro other ho
    obtain rfl | ⟨ho, _⟩ := mem_set_cases hnodup hw ho
    · exact hsound.settle ht hwithin
    · exact h.sound other ho
  · intro other ho
    obtain rfl | ⟨ho, hne⟩ := mem_set_cases hnodup hw ho
    · exact htracked.settle hsound ht hid rfl
    · exact (h.tracked other ho).append_of_ne (hid ▸ hne.symm)
  · apply h.foretold.append
    rw [hid, taskEvent_task, taskEvent_pc]
    exact htracked.position_eq task (hl ▸ List.mem_cons_self)
  · intro event he
    obtain he | he := List.mem_append.mp he
    · exact h.cycle_le event he
    · rw [List.mem_singleton.mp he]
      exact Nat.le_refl _
  · rw [List.map_append, List.pairwise_append]
    refine ⟨h.cycles_le, List.pairwise_singleton _ _, ?_⟩
    intro cycle hc last hlast
    obtain ⟨event, he, rfl⟩ := List.mem_map.mp hc
    rw [List.map_singleton, List.mem_singleton] at hlast
    subst hlast
    exact h.cycle_le event he

/-- One move keeps the match and its events in agreement. -/
theorem Tracks.play (h : battle.Tracks entry events) (move : Move) :
    (battle.play move).Tracks entry (events ++ (battle.event? move).toList) := by
  cases move with
  | step index =>
    obtain ⟨hnone, hsame, _⟩ | ⟨warrior, task, rest, hw, ht, hevent, hplay⟩ :=
      play_step_cases battle index
    · rw [hnone, hsame, Option.toList_none, List.append_nil]
      exact h
    · rw [hevent, hplay]
      exact h.afterTask hw ht
  | endCycle =>
    rw [event?, Option.toList_none, List.append_nil]
    refine ⟨h.coreSize_pos, h.size_eq, h.ids_lt.sublist (List.filter_sublist.map _), ?_, ?_,
      h.foretold, fun event he => Nat.le_succ_of_le (h.cycle_le event he), h.cycles_le⟩
    · intro warrior hw
      exact h.sound warrior (List.mem_filter.mp hw).1
    · intro warrior hw
      exact h.tracked warrior (List.mem_filter.mp hw).1
  | executeAt address =>
    rw [event?, Option.toList_none, List.append_nil]
    exact ⟨h.coreSize_pos, (Core.size_execute _ _).trans h.size_eq, h.ids_lt, h.sound, h.tracked,
      h.foretold, h.cycle_le, h.cycles_le⟩
  | poke address insn =>
    rw [event?, Option.toList_none, List.append_nil]
    exact ⟨h.coreSize_pos, (Core.size_store _ _ _).trans h.size_eq, h.ids_lt, h.sound, h.tracked,
      h.foretold, h.cycle_le, h.cycles_le⟩

theorem Tracks.playAll (h : battle.Tracks entry events) (moves : List Move) :
    (battle.playAll moves).Tracks entry (events ++ battle.events moves) := by
  induction moves generalizing battle events with
  | nil =>
    rw [Battle.events, List.append_nil]
    exact h
  | cons move moves ih =>
    rw [Battle.events, ← List.append_assoc]
    exact ih (h.play move)

def startAddress? (battle : Battle) (programs : List Program) (number : Nat) : Option Nat :=
  (programs.zip battle.offsets)[number]?.map fun (program, offset) =>
    battle.core.advance (battle.core.wrap (Int64.ofNat offset)) program.start

variable {settings : Settings} {programs : List Program} {draws : Draws} {notices : List Notice}

theorem tracks_of_load (h : load settings programs draws = .ok (battle, notices)) :
    battle.Tracks (battle.startAddress? programs) [] := by
  obtain ⟨hvalid, _, offsets, _, rfl⟩ := load_eq_ok h
  have hids := loadWarriors_ids settings.maxTasks (.ofSettings settings) 0 (programs.zip offsets)
  have hshape := loadWarriors_shape settings.maxTasks (.ofSettings settings) 0
    (programs.zip offsets)
  have hsize := Core.size_eq_of_shape_eq hshape
  have hpos : 0 < (Core.ofSettings settings).size := by
    rw [Core.size_ofSettings]
    exact hvalid.coreSize_pos
  refine ⟨hvalid.coreSize_pos, hsize.trans (Core.size_ofSettings settings), ?_, ?_, ?_, ?_, ?_, ?_⟩
  · dsimp only
    rw [hids]
    exact List.pairwise_lt_range'
  · intro warrior hw
    obtain ⟨number, entry, hlt, rfl⟩ := exists_start_of_mem_loadWarriors hpos hw
    rw [Core.size_ofSettings] at hlt
    exact Warrior.sound_start number hvalid.maxTasks_pos hlt
  · intro warrior hw
    obtain ⟨i, hi⟩ := List.mem_iff_getElem?.mp hw
    have hlt : i < (programs.zip offsets).length := by
      have hlength := congrArg List.length hids
      rw [List.length_map, List.length_range'] at hlength
      rw [← hlength]
      exact (List.getElem?_eq_some_iff.mp hi).1
    obtain ⟨⟨program, offset⟩, hentry⟩ : ∃ placed, (programs.zip offsets)[i]? = some placed :=
      ⟨_, List.getElem?_eq_getElem hlt⟩
    rw [getElem?_loadWarriors_start hentry, Nat.zero_add] at hi
    cases hi
    apply Warrior.tracked_start
    rw [startAddress?, hentry, Option.map_some]
    dsimp only
    rw [Core.advance_eq_of_shape_eq hshape, Core.wrap_eq_of_shape_eq hshape]
  · intro past event future hsplit
    simp at hsplit
  · exact fun _ hm => absurd hm List.not_mem_nil
  · exact List.Pairwise.nil

theorem tracks_trace (h : load settings programs draws = .ok (battle, notices))
    (actions : List Action) :
    (battle.performAll actions).Tracks (battle.startAddress? programs) (battle.trace actions) := by
  rw [trace_eq, ← playAll_moves]
  exact (tracks_of_load h).playAll (battle.moves actions)

theorem startAddress?_eq (hsize : settings.coreSize ≤ Core.maxSize)
    (h : load settings programs draws = .ok (battle, notices)) {number : Nat} {program : Program}
    {offset : Nat} (hprogram : (programs.zip battle.offsets)[number]? = some (program, offset)) :
    battle.startAddress? programs number = some ((offset + program.start) % settings.coreSize) := by
  have hcore := (tracks_of_load h).size_eq
  rw [settings_of_load h] at hcore
  obtain ⟨hvalid, _, offsets, hplaced, rfl⟩ := load_eq_ok h
  have hlt := (Settings.spread_of_placements hvalid hplaced).lt_of_mem_zip hvalid programs _
    (List.mem_of_getElem? hprogram)
  rw [startAddress?, hprogram, Option.map_some]
  dsimp only at hcore ⊢
  rw [Core.wrap_ofNat (by rw [hcore]; exact hsize) (by rw [hcore]; exact hlt), Core.advance, hcore]

/-- What is recorded of a match is consistent, whatever is done to the match. All that is done comes
down to moves, and the events are those of the moves: each comes from a step that found the recorded
instruction at the recorded address, and the events before it come from the moves before. Cycle
numbers never decrease, and a cycle that starts with no dead warrior listed adds one event for each
warrior, in the order of their numbers. -/
theorem trace_consistent (hload : load settings programs draws = .ok (battle, notices))
    (actions : List Action) :
    Consistent (battle.startAddress? programs) (battle.trace actions) ∧
    (∀ number program offset, settings.coreSize ≤ Core.maxSize →
      (programs.zip battle.offsets)[number]? = some (program, offset) →
      battle.startAddress? programs number = some ((offset + program.start) % settings.coreSize)) ∧
    battle.playAll (battle.moves actions) = battle.performAll actions ∧
    battle.events (battle.moves actions) = battle.trace actions ∧
    (∀ past event future, battle.trace actions = past ++ event :: future →
      ∃ before index after, battle.moves actions = before ++ .step index :: after ∧
        battle.events before = past ∧ ((battle.playAll before).step index).1 = .ok event ∧
        event.insn = (battle.playAll before).core.fetch event.pc) ∧
    ((battle.trace actions).map (·.cycle)).Pairwise (· ≤ ·) ∧
    ((∀ warrior ∈ (battle.performAll actions).warriors, warrior.tasks.toList ≠ []) →
      ∃ added, battle.trace (actions ++ [.cycle]) = battle.trace actions ++ added ∧
        added.map (·.warrior) = (battle.performAll actions).warriors.map (·.id) ∧
        (added.map (·.warrior)).Pairwise (· < ·) ∧
        ∀ event ∈ added, event.cycle = (battle.performAll actions).cycles) := by
  have htracks := tracks_trace hload actions
  refine ⟨htracks.foretold.consistent, fun _ _ _ hsize => startAddress?_eq hsize hload,
    playAll_moves battle actions, (trace_eq battle actions).symm, ?_, htracks.cycles_le, ?_⟩
  · intro past event future hsplit
    rw [trace_eq] at hsplit
    obtain ⟨before, move, after, hmoves, hpast, hevent⟩ := exists_move_of_events_eq hsplit
    cases move with
    | step index =>
      refine ⟨before, index, after, hmoves, hpast, ?_, insn_of_event? hevent⟩
      exact (event?_step_eq_some_iff _ _ _).mp hevent
    | endCycle => cases hevent
    | executeAt address => cases hevent
    | poke address insn => cases hevent
  · intro halive
    obtain ⟨hwarriors, hcycle⟩ := AllAlive.trace_cycle halive
    refine ⟨_, trace_append battle actions [.cycle], hwarriors, ?_, hcycle⟩
    rw [hwarriors]
    exact htracks.ids_lt

end Battle

def Program.brood : Program where
  code := [⟨.spl, .b, ⟨.direct, 0⟩, ⟨.immediate, 0⟩⟩, ⟨.spl, .b, ⟨.direct, 0⟩, ⟨.immediate, 0⟩⟩,
    .empty]
  start := 0
  start_lt := by decide

def Action.medley : List Action := [.cycle, .step 0, .poke 7 .empty, .cycle, .executeAt 3, .run]

/-- The brood reaches its limit and drops a task before it spawns task 3. -/
theorem Battle.trace_consistent_brood :
    ∃ battle notices, load .duel [.brood, .imp] (fun _ => 0) = .ok (battle, notices) ∧
      (∃ event ∈ battle.trace Action.medley, event.warrior = 0 ∧ event.dropped = true) ∧
      (Event.spawners (battle.trace Action.medley) 0).map (·.update.spawn) =
        [some 0, some 1, some 1] ∧
      (Event.history (battle.trace Action.medley) 0 3).map (·.pc) = [1, 2, 3, 4, 5, 6, 7] ∧
      Event.Consistent (battle.startAddress? [.brood, .imp]) (battle.trace Action.medley) := by
  have hload : load .duel [.brood, .imp] (fun _ => 0) = .ok _ := rfl
  exact ⟨_, _, hload, by decide, by decide, by decide, (trace_consistent hload Action.medley).1⟩

end CoreWar
