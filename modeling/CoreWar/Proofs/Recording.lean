import CoreWar.Proofs.Verdict

namespace CoreWar

/-- The least changes of a match. -/
inductive Move where
  | step (index : Nat)
  | endCycle
  | executeAt (address : Int64)
  | poke (address : Int64) (insn : Instruction)
  deriving DecidableEq

theorem Warrior.exists_settle_fst_eq (warrior : Warrior) (task : Task) (update : Update) :
    ∃ dropped, (warrior.settle task update).1 = ⟨task.id, task.address, update, dropped⟩ := by
  unfold settle
  cases update.spawn with
  | none => exact ⟨false, rfl⟩
  | some address =>
    dsimp only
    split
    · exact ⟨false, rfl⟩
    · exact ⟨true, rfl⟩

namespace Battle

def play (battle : Battle) : Move → Battle
  | .step index => (battle.step index).2
  | .endCycle => battle.endCycle.1
  | .executeAt address => (battle.executeAt address).2
  | .poke address insn => battle.poke address insn

def event? (battle : Battle) : Move → Option Event
  | .step index => (battle.step index).1.toOption
  | .endCycle => none
  | .executeAt _ => none
  | .poke _ _ => none

theorem event?_step_eq_some_iff (battle : Battle) (index : Nat) (event : Event) :
    battle.event? (.step index) = some event ↔ (battle.step index).1 = .ok event := by
  rw [event?]
  cases (battle.step index).1 <;> simp [Except.toOption]

def playAll (battle : Battle) (moves : List Move) : Battle := moves.foldl play battle

def events (battle : Battle) : List Move → List Event
  | [] => []
  | move :: moves => (battle.event? move).toList ++ (battle.play move).events moves

def taskEvent (battle : Battle) (task : Task) (rest : Warrior) : Event where
  toReport := (rest.settle task (battle.core.execute task.address).1).1
  cycle := battle.cycles
  warrior := rest.id
  insn := battle.core.fetch task.address

theorem taskEvent_task (battle : Battle) (task : Task) (rest : Warrior) :
    (battle.taskEvent task rest).task = task.id := by
  obtain ⟨dropped, hreport⟩ := rest.exists_settle_fst_eq task (battle.core.execute task.address).1
  exact congrArg Report.task hreport

theorem taskEvent_pc (battle : Battle) (task : Task) (rest : Warrior) :
    (battle.taskEvent task rest).pc = task.address := by
  obtain ⟨dropped, hreport⟩ := rest.exists_settle_fst_eq task (battle.core.execute task.address).1
  exact congrArg Report.pc hreport

/-- A step runs the first task of a listed warrior and brings its event, or there is none and
nothing happens. -/
theorem play_step_cases (battle : Battle) (index : Nat) :
    (battle.event? (.step index) = none ∧ battle.play (.step index) = battle ∧
      ∀ warrior, battle.warriors[index]? = some warrior → warrior.tasks.toList = []) ∨
    ∃ warrior task rest, battle.warriors[index]? = some warrior ∧
      warrior.take? = some (task, rest) ∧
      battle.event? (.step index) = some (battle.taskEvent task rest) ∧
      battle.play (.step index) = battle.afterTask index task rest := by
  simp only [event?, play]
  cases hw : battle.warriors[index]? with
  | none =>
    rw [step_of_absent hw]
    exact .inl ⟨rfl, rfl, nofun⟩
  | some warrior =>
    cases ht : warrior.take? with
    | none =>
      rw [step_of_dead hw ht]
      refine .inl ⟨rfl, rfl, ?_⟩
      rintro _ ⟨rfl⟩
      exact (Queue.pop?_eq_none_iff _).mp (Option.map_eq_none_iff.mp ht)
    | some taken =>
      obtain ⟨task, rest⟩ := taken
      rw [step_of_task hw ht, Warrior.settle_id]
      exact .inr ⟨warrior, task, rest, rfl, ht, rfl, rfl⟩

theorem insn_of_event? {battle : Battle} {index : Nat} {event : Event}
    (h : battle.event? (.step index) = some event) : event.insn = battle.core.fetch event.pc := by
  obtain ⟨hnone, _⟩ | ⟨_, task, rest, _, _, hevent, _⟩ := play_step_cases battle index
  · rw [hnone] at h
    cases h
  · rw [hevent] at h
    cases h
    rw [taskEvent_pc]
    rfl

theorem playAll_append (battle : Battle) (moves more : List Move) :
    battle.playAll (moves ++ more) = (battle.playAll moves).playAll more :=
  List.foldl_append

theorem events_append (battle : Battle) (moves more : List Move) :
    battle.events (moves ++ more) = battle.events moves ++ (battle.playAll moves).events more := by
  induction moves generalizing battle with
  | nil => rfl
  | cons move moves ih => simp only [List.cons_append, events, ih, List.append_assoc]; rfl

theorem exists_move_of_events_eq {battle : Battle} {moves : List Move} {past future : List Event}
    {event : Event} (h : battle.events moves = past ++ event :: future) :
    ∃ before move after, moves = before ++ move :: after ∧ battle.events before = past ∧
      (battle.playAll before).event? move = some event := by
  induction moves generalizing battle past with
  | nil => simp [events] at h
  | cons move moves ih =>
    rw [events] at h
    cases he : battle.event? move with
    | none =>
      rw [he] at h
      obtain ⟨before, other, after, rfl, hpast, hevent⟩ := ih h
      refine ⟨move :: before, other, after, rfl, ?_, hevent⟩
      rw [events, he, hpast]
      rfl
    | some first =>
      rw [he] at h
      cases past with
      | nil =>
        obtain ⟨rfl, _⟩ := List.cons.inj h
        exact ⟨[], move, moves, rfl, rfl, he⟩
      | cons other past =>
        obtain ⟨rfl, hrest⟩ := List.cons.inj h
        obtain ⟨before, other, after, rfl, hpast, hevent⟩ := ih hrest
        refine ⟨move :: before, other, after, rfl, ?_, hevent⟩
        rw [events, he, hpast]
        rfl

def cycleMoves (battle : Battle) : List Move :=
  (List.range battle.warriors.length).map .step ++ [.endCycle]

def runMoves : (left : Nat) → Battle → List Move
  | 0, _ => []
  | left + 1, battle =>
    if battle.isOver then [] else battle.cycleMoves ++ runMoves left battle.cycle.1

def actionMoves (battle : Battle) : Action → List Move
  | .cycle => battle.cycleMoves
  | .step index => [.step index]
  | .executeAt address => [.executeAt address]
  | .poke address insn => [.poke address insn]
  | .run => runMoves (battle.settings.cyclesBeforeTie - battle.cycles) battle

def moves (battle : Battle) : List Action → List Move
  | [] => []
  | action :: actions => battle.actionMoves action ++ (battle.perform action).moves actions

theorem playAll_cycleMoves (battle : Battle) :
    battle.playAll battle.cycleMoves = battle.cycle.1 := by
  have hsteps : ∀ indices : List Nat, battle.playAll (indices.map .step) =
      indices.foldl (fun battle index => (battle.step index).2) battle :=
    fun _ => List.foldl_map
  rw [cycleMoves, playAll_append, cycle_fst, hsteps]
  rfl

theorem playAll_runMoves {σ : Type} (record : σ → Notice → σ) (left : Nat) (battle : Battle)
    (seen : σ) : battle.playAll (runMoves left battle) = (runCycles record left battle seen).1 := by
  induction left generalizing battle seen with
  | zero => rfl
  | succ left ih =>
    rw [runMoves, runCycles]
    split
    · rfl
    · rw [playAll_append, playAll_cycleMoves]
      exact ih _ _

theorem playAll_actionMoves (battle : Battle) (action : Action) :
    battle.playAll (battle.actionMoves action) = battle.perform action := by
  cases action with
  | cycle => exact playAll_cycleMoves battle
  | step index => rfl
  | executeAt address => rfl
  | poke address insn => rfl
  | run => exact playAll_runMoves _ _ _ _

theorem playAll_moves (battle : Battle) (actions : List Action) :
    battle.playAll (battle.moves actions) = battle.performAll actions := by
  induction actions generalizing battle with
  | nil => rfl
  | cons action actions ih =>
    rw [moves, playAll_append, playAll_actionMoves, ih]
    rfl

end Battle

def Notice.event? : Notice → Option Event
  | .stepped event => some event
  | _ => none

def keepStep (seen : List Event) (notice : Notice) : List Event := seen ++ notice.event?.toList

theorem foldl_keepStep (notices : List Notice) (seen : List Event) :
    notices.foldl keepStep seen = seen ++ notices.filterMap Notice.event? := by
  induction notices generalizing seen with
  | nil => simp
  | cons notice notices ih =>
    rw [List.foldl_cons, ih, keepStep, List.append_assoc]
    cases h : notice.event? <;> simp [h]

@[simp] theorem Event.filterMap_notices (event : Event) :
    event.notices.filterMap Notice.event? = [event] := by
  unfold Event.notices
  split <;> rfl

namespace Battle

/-- What is recorded after an action, where `seen` was before it. -/
def record (battle : Battle) (seen : List Event) : Action → List Event
  | .cycle => battle.cycle.2.foldl keepStep seen
  | .step index => seen ++ (battle.step index).1.toOption.toList
  | .executeAt _ => seen
  | .poke _ _ => seen
  | .run => (battle.run keepStep seen).2.2

def recordAll (battle : Battle) (seen : List Event) : List Action → List Event
  | [] => seen
  | action :: actions => (battle.perform action).recordAll (battle.record seen action) actions

/-- What is recorded of a match from the beginning. -/
def trace (battle : Battle) (actions : List Action) : List Event := battle.recordAll [] actions

theorem filterMap_turn (battle : Battle) (index : Nat) :
    (battle.turn index).2.filterMap Notice.event? = (battle.event? (.step index)).toList := by
  simp only [turn, event?]
  obtain ⟨error | event, after⟩ := battle.step index
  · rfl
  · exact Event.filterMap_notices event

theorem filterMap_turns (battle : Battle) (indices : List Nat) :
    (battle.turns indices).2.filterMap Notice.event? = battle.events (indices.map .step) := by
  induction indices generalizing battle with
  | nil => rfl
  | cons index indices ih =>
    rw [List.map_cons, events, ← filterMap_turn, play, ← turn_fst, ← ih, ← List.filterMap_append]
    rfl

theorem filterMap_cycle (battle : Battle) :
    battle.cycle.2.filterMap Notice.event? = battle.events battle.cycleMoves := by
  have hdeaths : ∀ after : Battle, after.endCycle.2.filterMap Notice.event? = [] := by
    intro after
    simp [endCycle, List.filterMap_map, Function.comp_def, Notice.event?]
  rw [cycleMoves, events_append, ← filterMap_turns]
  simp only [cycle, List.filterMap_append, hdeaths]
  rfl

theorem runCycles_snd (left : Nat) (battle : Battle) (seen : List Event) :
    (runCycles keepStep left battle seen).2 = seen ++ battle.events (runMoves left battle) := by
  induction left generalizing battle seen with
  | zero => exact (List.append_nil seen).symm
  | succ left ih =>
    rw [runMoves, runCycles]
    split
    · exact (List.append_nil seen).symm
    · rw [events_append, playAll_cycleMoves, ← filterMap_cycle, ← List.append_assoc,
        ← foldl_keepStep]
      exact ih _ _

theorem record_eq (battle : Battle) (seen : List Event) (action : Action) :
    battle.record seen action = seen ++ battle.events (battle.actionMoves action) := by
  cases action with
  | cycle => rw [record, foldl_keepStep, filterMap_cycle]; rfl
  | step index => simp [record, actionMoves, events, event?]
  | executeAt address => exact (List.append_nil seen).symm
  | poke address insn => exact (List.append_nil seen).symm
  | run =>
    -- The verdict is noticed last, and it is not a step.
    have hrun : battle.record seen .run = (runCycles keepStep
        (battle.settings.cyclesBeforeTie - battle.cycles) battle seen).2 ++ [] := rfl
    rw [hrun, List.append_nil, runCycles_snd]
    rfl

theorem recordAll_eq (battle : Battle) (seen : List Event) (actions : List Action) :
    battle.recordAll seen actions = seen ++ battle.events (battle.moves actions) := by
  induction actions generalizing battle seen with
  | nil => exact (List.append_nil seen).symm
  | cons action actions ih =>
    rw [recordAll, ih, record_eq, moves, events_append, playAll_actionMoves, List.append_assoc]

/-- A recorder has exactly the events of the moves. -/
theorem trace_eq (battle : Battle) (actions : List Action) :
    battle.trace actions = battle.events (battle.moves actions) :=
  recordAll_eq battle [] actions

theorem moves_append (battle : Battle) (actions more : List Action) :
    battle.moves (actions ++ more) =
      battle.moves actions ++ (battle.performAll actions).moves more := by
  induction actions generalizing battle with
  | nil => rfl
  | cons action actions ih => simp only [List.cons_append, moves, ih, List.append_assoc]; rfl

theorem trace_append (battle : Battle) (actions more : List Action) :
    battle.trace (actions ++ more) =
      battle.trace actions ++ (battle.performAll actions).trace more := by
  simp only [trace_eq, moves_append, events_append, playAll_moves]

theorem cycle_of_mem_events_steps {battle : Battle} {indices : List Nat} {event : Event}
    (h : event ∈ battle.events (indices.map .step)) : event.cycle = battle.cycles := by
  induction indices generalizing battle with
  | nil => simp [events] at h
  | cons index indices ih =>
    rw [List.map_cons, events, List.mem_append, Option.mem_toList] at h
    obtain h | h := h
    · obtain ⟨hnone, _⟩ | ⟨_, task, rest, _, _, hevent, _⟩ := play_step_cases battle index
      · rw [hnone] at h
        cases h
      · rw [hevent] at h
        cases h
        rfl
    · exact (ih h).trans (cycles_step battle index)

theorem map_warrior_events_steps {battle : Battle} {indices : List Nat} (hnodup : indices.Nodup)
    (h : ∀ index ∈ indices, ∃ warrior, battle.warriors[index]? = some warrior ∧
      warrior.tasks.toList ≠ []) :
    (battle.events (indices.map .step)).map (·.warrior) =
      indices.filterMap fun index => (battle.warriors.map (·.id))[index]? := by
  induction indices generalizing battle with
  | nil => rfl
  | cons index indices ih =>
    rw [List.nodup_cons] at hnodup
    rw [List.forall_mem_cons] at h
    obtain ⟨⟨warrior, hw, halive⟩, hrest⟩ := h
    obtain ⟨_, _, hdead⟩ | ⟨_, task, rest, hw', ht, hevent, hplay⟩ := play_step_cases battle index
    · exact absurd (hdead warrior hw) halive
    cases hw.symm.trans hw'
    obtain ⟨tasks, rfl, _⟩ := Warrior.take?_eq_some ht
    -- The turn of one warrior leaves the others as they are.
    have hothers : ∀ other ∈ indices, ∃ warrior,
        (battle.play (.step index)).warriors[other]? = some warrior ∧
          warrior.tasks.toList ≠ [] := by
      intro other ho
      have hne : index ≠ other := fun he => hnodup.1 (he ▸ ho)
      rw [hplay, afterTask, List.getElem?_set_ne hne]
      exact hrest other ho
    have hids : (battle.play (.step index)).warriors.map (·.id) = battle.warriors.map (·.id) :=
      ids_step battle index
    have hid : (battle.warriors.map (·.id))[index]? = some warrior.id := by
      rw [List.getElem?_map, hw]
      rfl
    rw [List.map_cons, events, hevent, List.map_append, ih hnodup.2 hothers, hids,
      List.filterMap_cons_some hid]
    rfl

theorem filterMap_getElem?_range (numbers : List Nat) :
    (List.range numbers.length).filterMap (fun index => numbers[index]?) = numbers := by
  induction numbers with
  | nil => rfl
  | cons number numbers ih =>
    rw [List.length_cons, List.range_succ_eq_map, List.filterMap_cons, List.filterMap_map]
    exact congrArg (number :: ·) ih

theorem AllAlive.trace_cycle {battle : Battle} (h : battle.AllAlive) :
    (battle.trace [.cycle]).map (·.warrior) = battle.warriors.map (·.id) ∧
      ∀ event ∈ battle.trace [.cycle], event.cycle = battle.cycles := by
  have htrace : battle.trace [.cycle] =
      battle.events ((List.range battle.warriors.length).map .step) := by
    simp [trace_eq, moves, actionMoves, cycleMoves, events_append, events, event?]
  rw [htrace]
  refine ⟨?_, fun event => cycle_of_mem_events_steps⟩
  rw [map_warrior_events_steps List.nodup_range]
  · have hrange := filterMap_getElem?_range (battle.warriors.map (·.id))
    rwa [List.length_map] at hrange
  · intro index hi
    have hlt := List.mem_range.mp hi
    exact ⟨_, List.getElem?_eq_getElem hlt, h _ (List.getElem_mem hlt)⟩

end Battle

end CoreWar
