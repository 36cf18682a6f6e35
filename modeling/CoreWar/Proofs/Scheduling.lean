import CoreWar.Battle.Basic

namespace CoreWar

namespace Warrior

theorem isDead_iff (warrior : Warrior) : warrior.isDead = true ↔ warrior.tasks.toList = [] := by
  rw [← List.length_eq_zero_iff, Queue.length_toList]
  simp [isDead, Queue.isEmpty]

theorem take?_eq_some {warrior rest : Warrior} {task : Task}
    (h : warrior.take? = some (task, rest)) :
    ∃ tasks, rest = { warrior with tasks } ∧ warrior.tasks.toList = task :: tasks.toList := by
  obtain ⟨⟨popped, tasks⟩, hp, he⟩ := Option.map_eq_some_iff.mp h
  simp only [Prod.mk.injEq] at he
  obtain ⟨rfl, rfl⟩ := he
  exact ⟨tasks, rfl, Queue.toList_of_pop? hp⟩

theorem toList_requeue (warrior : Warrior) (task : Task) (next : Option Nat) :
    (warrior.requeue task next).tasks.toList =
      warrior.tasks.toList ++ (next.map fun address => { task with address }).toList := by
  cases next with
  | none => simp [requeue]
  | some address => simp [requeue, Queue.toList_push]

@[simp] theorem requeue_id (warrior : Warrior) (task : Task) (next : Option Nat) :
    (warrior.requeue task next).id = warrior.id := by cases next <;> rfl

@[simp] theorem requeue_nextTask (warrior : Warrior) (task : Task) (next : Option Nat) :
    (warrior.requeue task next).nextTask = warrior.nextTask := by cases next <;> rfl

@[simp] theorem requeue_maxTasks (warrior : Warrior) (task : Task) (next : Option Nat) :
    (warrior.requeue task next).maxTasks = warrior.maxTasks := by cases next <;> rfl

theorem toList_spawn (warrior : Warrior) (address : Nat) :
    (warrior.spawn address).tasks.toList = warrior.tasks.toList ++ [⟨warrior.nextTask, address⟩] :=
  Queue.toList_push _ _

/-- After a task is queued again, a task that it spawned is queued too if there is room. -/
theorem settle_cases (warrior : Warrior) (task : Task) (update : Update) :
    (warrior.settle task update).2 = warrior.requeue task update.next ∨
      ∃ address, update.spawn = some address ∧
        (warrior.requeue task update.next).tasks.size < warrior.maxTasks ∧
        (warrior.settle task update).2 = (warrior.requeue task update.next).spawn address := by
  unfold settle
  cases update.spawn with
  | none => exact .inl rfl
  | some address =>
    simp only [requeue_maxTasks]
    split
    · next h => exact .inr ⟨address, rfl, h, rfl⟩
    · exact .inl rfl

theorem mem_toList_settle {warrior : Warrior} {task other : Task} {update : Update}
    (h : other ∈ (warrior.settle task update).2.tasks.toList) :
    other ∈ warrior.tasks.toList ∨ update.next = some other.address ∨
      update.spawn = some other.address := by
  have hq : ∀ queued ∈ (warrior.requeue task update.next).tasks.toList,
      queued ∈ warrior.tasks.toList ∨ update.next = some queued.address := by
    intro queued hm
    rw [toList_requeue, List.mem_append] at hm
    obtain hm | hm := hm
    · exact .inl hm
    · obtain ⟨address, ha, rfl⟩ := Option.map_eq_some_iff.mp (Option.mem_toList.mp hm)
      exact .inr ha
  obtain hs | ⟨address, ha, _, hs⟩ := settle_cases warrior task update <;> rw [hs] at h
  · exact (hq other h).imp_right .inl
  · rw [toList_spawn, List.mem_append, List.mem_singleton] at h
    obtain h | rfl := h
    · exact (hq other h).imp_right .inl
    · exact .inr (.inr ha)

@[simp] theorem settle_id (warrior : Warrior) (task : Task) (update : Update) :
    (warrior.settle task update).2.id = warrior.id := by
  obtain h | ⟨address, _, _, h⟩ := settle_cases warrior task update <;> rw [h]
  · exact requeue_id _ _ _
  · exact requeue_id _ _ _

end Warrior

namespace Battle

/-- The match after the warrior at `index`, which is `rest` without its task, has run the task. -/
def afterTask (battle : Battle) (index : Nat) (task : Task) (rest : Warrior) : Battle :=
  { battle with
    core := (battle.core.execute task.address).2
    warriors := battle.warriors.set index
      (rest.settle task (battle.core.execute task.address).1).2 }

theorem step_of_absent {battle : Battle} {index : Nat} (h : battle.warriors[index]? = none) :
    battle.step index = (.error (.unknownWarrior index), battle) := by
  simp only [step, h]

theorem step_of_dead {battle : Battle} {index : Nat} {warrior : Warrior}
    (h : battle.warriors[index]? = some warrior) (ht : warrior.take? = none) :
    battle.step index = (.error (.deadWarrior warrior.id), battle) := by
  simp only [step, h, ht]

theorem step_of_task {battle : Battle} {index : Nat} {warrior rest : Warrior} {task : Task}
    (h : battle.warriors[index]? = some warrior) (ht : warrior.take? = some (task, rest)) :
    battle.step index =
      (.ok {
        toReport := (rest.settle task (battle.core.execute task.address).1).1
        cycle := battle.cycles
        warrior := (rest.settle task (battle.core.execute task.address).1).2.id
        insn := battle.core.fetch task.address }, battle.afterTask index task rest) := by
  simp only [step, h, ht]
  rfl

/-- A step leaves the match alone, or it runs the first task of a listed warrior. -/
theorem step_cases (battle : Battle) (index : Nat) :
    (battle.step index).2 = battle ∨
      ∃ warrior task rest, battle.warriors[index]? = some warrior ∧
        warrior.take? = some (task, rest) ∧
        (battle.step index).2 = battle.afterTask index task rest := by
  cases hw : battle.warriors[index]? with
  | none => exact .inl (congrArg Prod.snd (step_of_absent hw))
  | some warrior =>
    cases ht : warrior.take? with
    | none => exact .inl (congrArg Prod.snd (step_of_dead hw ht))
    | some taken =>
      exact .inr ⟨warrior, taken.1, taken.2, rfl, ht, congrArg Prod.snd (step_of_task hw ht)⟩

/-- What the match has before a step, and after any task it may run, it has after the step. -/
theorem of_step {P : Battle → Prop} {battle : Battle} {index : Nat} (hb : P battle)
    (ht : ∀ {warrior task rest}, battle.warriors[index]? = some warrior →
      warrior.take? = some (task, rest) → P (battle.afterTask index task rest)) :
    P (battle.step index).2 := by
  obtain hs | ⟨warrior, task, rest, hw, htake, hs⟩ := step_cases battle index
  · rw [hs]
    exact hb
  · rw [hs]
    exact ht hw htake

theorem map_id_set {warriors : List Warrior} {index : Nat} {warrior changed : Warrior}
    (h : warriors[index]? = some warrior) (hid : changed.id = warrior.id) :
    (warriors.set index changed).map (·.id) = warriors.map (·.id) := by
  obtain ⟨hi, rfl⟩ := List.getElem?_eq_some_iff.mp h
  have hset := List.set_getElem_self (show index < (warriors.map (·.id)).length by simpa using hi)
  rw [List.getElem_map] at hset
  rw [List.map_set, hid]
  exact hset

theorem ids_afterTask {battle : Battle} {index : Nat} {warrior rest : Warrior} {task : Task}
    (hw : battle.warriors[index]? = some warrior) (ht : warrior.take? = some (task, rest)) :
    (battle.afterTask index task rest).warriors.map (·.id) = battle.warriors.map (·.id) := by
  obtain ⟨tasks, rfl, _⟩ := Warrior.take?_eq_some ht
  exact map_id_set hw (Warrior.settle_id _ _ _)

theorem turn_fst (battle : Battle) (index : Nat) : (battle.turn index).1 = (battle.step index).2 := by
  unfold turn
  obtain ⟨error | event, after⟩ := battle.step index <;> rfl

theorem turns_fst (battle : Battle) (indices : List Nat) :
    (battle.turns indices).1 = indices.foldl (fun battle index => (battle.step index).2) battle := by
  induction indices generalizing battle with
  | nil => rfl
  | cons index indices ih =>
    rw [List.foldl_cons, ← turn_fst, ← ih]
    rfl

theorem cycle_fst (battle : Battle) :
    battle.cycle.1 = ((List.range battle.warriors.length).foldl
      (fun battle index => (battle.step index).2) battle).endCycle.1 := by
  rw [← turns_fst]
  rfl

theorem run_fst {σ : Type} (record : σ → Notice → σ) (battle : Battle) (seen : σ) :
    (battle.run record seen).1 = (battle.run record seen).2.1.outcome := rfl

def afterCycles (battle : Battle) : Nat → Battle
  | 0 => battle
  | count + 1 => battle.cycle.1.afterCycles count

end Battle

inductive Action where
  | cycle
  | step (index : Nat)
  | executeAt (address : Int64)
  | poke (address : Int64) (insn : Instruction)
  | run
  deriving DecidableEq

namespace Battle

/-- The match after an action. What is noticed meanwhile goes nowhere. -/
def perform (battle : Battle) : Action → Battle
  | .cycle => battle.cycle.1
  | .step index => (battle.step index).2
  | .executeAt address => (battle.executeAt address).2
  | .poke address insn => battle.poke address insn
  | .run => (battle.run (fun seen _ => seen) ()).2.1

def performAll (battle : Battle) (actions : List Action) : Battle := actions.foldl perform battle

/-- What the least changes of a match preserve. -/
structure Preserved (P : Battle → Prop) : Prop where
  step : ∀ battle index, P battle → P (battle.step index).2
  endCycle : ∀ battle, P battle → P battle.endCycle.1
  executeAt : ∀ battle address, P battle → P (battle.executeAt address).2
  poke : ∀ battle address insn, P battle → P (battle.poke address insn)

namespace Preserved

variable {P : Battle → Prop}

theorem steps (h : Preserved P) (indices : List Nat) {battle : Battle} (hb : P battle) :
    P (indices.foldl (fun battle index => (battle.step index).2) battle) := by
  induction indices generalizing battle with
  | nil => exact hb
  | cons index indices ih => exact ih (h.step battle index hb)

theorem cycle (h : Preserved P) {battle : Battle} (hb : P battle) : P battle.cycle.1 := by
  rw [cycle_fst]
  exact h.endCycle _ (h.steps _ hb)

theorem runCycles (h : Preserved P) {σ : Type} (record : σ → Notice → σ) (left : Nat)
    {battle : Battle} (seen : σ) (hb : P battle) : P (runCycles record left battle seen).1 := by
  induction left generalizing battle seen with
  | zero => exact hb
  | succ left ih =>
    rw [Battle.runCycles]
    split
    · exact hb
    · exact ih _ (h.cycle hb)

theorem run (h : Preserved P) {σ : Type} (record : σ → Notice → σ) {battle : Battle} (seen : σ)
    (hb : P battle) : P (battle.run record seen).2.1 :=
  h.runCycles record _ seen hb

theorem performAll (h : Preserved P) (actions : List Action) {battle : Battle} (hb : P battle) :
    P (battle.performAll actions) := by
  induction actions generalizing battle with
  | nil => exact hb
  | cons action actions ih =>
    apply ih
    cases action with
    | cycle => exact h.cycle hb
    | step index => exact h.step battle index hb
    | executeAt address => exact h.executeAt battle address hb
    | poke address insn => exact h.poke battle address insn hb
    | run => exact h.run _ () hb

end Preserved

theorem settings_preserved (settings : Settings) :
    Preserved fun battle => battle.settings = settings where
  step _ _ h := of_step (P := fun battle => battle.settings = settings) h fun _ _ => h
  endCycle _ h := h
  executeAt _ _ h := h
  poke _ _ _ h := h

theorem settings_performAll (battle : Battle) (actions : List Action) :
    (battle.performAll actions).settings = battle.settings :=
  (settings_preserved battle.settings).performAll actions rfl

end Battle

end CoreWar
