import CoreWar.Proofs.Loading
import CoreWar.Proofs.Rotation

namespace CoreWar

namespace Battle

def TasksInside (battle : Battle) : Prop :=
  ∀ warrior ∈ battle.warriors, ∀ task ∈ warrior.tasks.toList, task.address < battle.core.size

theorem TasksInside.afterTask {battle : Battle} (h : battle.TasksInside) {index : Nat}
    {warrior rest : Warrior} {task : Task} (hw : battle.warriors[index]? = some warrior)
    (ht : warrior.take? = some (task, rest)) : (battle.afterTask index task rest).TasksInside := by
  obtain ⟨tasks, rfl, hl⟩ := Warrior.take?_eq_some ht
  have hinside := h warrior (List.mem_of_getElem? hw)
  have hpos := Nat.zero_lt_of_lt (hinside task (by simp [hl]))
  have hu := Core.execute_within hpos task.address
  intro other ho moved hm
  change moved.address < (battle.core.execute task.address).2.size
  rw [Core.size_execute]
  obtain ho | rfl := List.mem_or_eq_of_mem_set ho
  · exact h other ho moved hm
  · obtain hm | hm | hm := Warrior.mem_toList_settle hm
    · exact hinside moved (by rw [hl]; exact List.mem_cons_of_mem _ hm)
    · exact hu.next_lt _ hm
    · exact hu.spawn_lt _ hm

theorem tasksInside_preserved : Preserved TasksInside where
  step _ _ h := of_step h h.afterTask
  endCycle battle h := by
    intro warrior hw
    exact h warrior (List.mem_filter.mp hw).1
  executeAt battle address h := by
    intro warrior hw task ht
    change task.address < (battle.core.execute _).2.size
    rw [Core.size_execute]
    exact h warrior hw task ht
  poke battle address insn h := by
    intro warrior hw task ht
    change task.address < (battle.core.store _ insn).size
    rw [Core.size_store]
    exact h warrior hw task ht

def rotate (battle : Battle) (shift : Nat) : Battle :=
  { battle with
    core := battle.core.rotate shift
    warriors := battle.warriors.map (Warrior.map (shiftAddress battle.core.size shift)) }

theorem afterTask_rotate {battle : Battle} (shift index : Nat) {task : Task} (rest : Warrior)
    (ht : task.address < battle.core.size) :
    (battle.rotate shift).afterTask index (task.map (shiftAddress battle.core.size shift))
        (rest.map (shiftAddress battle.core.size shift)) =
      (battle.afterTask index task rest).rotate shift := by
  have hexecute := Core.execute_rotate shift ht
  simp only [afterTask, rotate, Task.map, hexecute, Core.size_execute, List.map_set]
  rw [← Warrior.settle_map]
  rfl

theorem step_rotate {battle : Battle} (h : battle.TasksInside) (shift index : Nat) :
    ((battle.rotate shift).step index).2 = (battle.step index).2.rotate shift := by
  have hmap : (battle.rotate shift).warriors[index]? =
      battle.warriors[index]?.map (Warrior.map (shiftAddress battle.core.size shift)) :=
    List.getElem?_map
  cases hw : battle.warriors[index]? with
  | none =>
    rw [hw] at hmap
    rw [step_of_absent hw, step_of_absent hmap]
  | some warrior =>
    rw [hw] at hmap
    have htake := Warrior.take?_map (shiftAddress battle.core.size shift) warrior
    cases ht : warrior.take? with
    | none =>
      rw [ht] at htake
      rw [step_of_dead hw ht, step_of_dead hmap htake]
    | some taken =>
      obtain ⟨task, rest⟩ := taken
      rw [ht] at htake
      obtain ⟨tasks, _, hl⟩ := Warrior.take?_eq_some ht
      have hlt := h warrior (List.mem_of_getElem? hw) task (by simp [hl])
      rw [step_of_task hw ht, step_of_task hmap htake]
      exact afterTask_rotate shift index rest hlt

theorem steps_rotate {battle : Battle} (h : battle.TasksInside) (shift : Nat) (indices : List Nat) :
    indices.foldl (fun battle index => (battle.step index).2) (battle.rotate shift) =
      (indices.foldl (fun battle index => (battle.step index).2) battle).rotate shift := by
  induction indices generalizing battle with
  | nil => rfl
  | cons index indices ih =>
    rw [List.foldl_cons, List.foldl_cons, step_rotate h]
    exact ih (tasksInside_preserved.step battle index h)

theorem endCycle_rotate (battle : Battle) (shift : Nat) :
    (battle.rotate shift).endCycle.1 = battle.endCycle.1.rotate shift := by
  simp only [endCycle, rotate, List.filter_map]
  rfl

theorem cycle_rotate {battle : Battle} (h : battle.TasksInside) (shift : Nat) :
    (battle.rotate shift).cycle.1 = battle.cycle.1.rotate shift := by
  have hlength : (battle.rotate shift).warriors.length = battle.warriors.length :=
    List.length_map _
  rw [cycle_fst, cycle_fst, hlength, steps_rotate h, endCycle_rotate]

theorem afterCycles_rotate {battle : Battle} (h : battle.TasksInside) (shift count : Nat) :
    (battle.rotate shift).afterCycles count = (battle.afterCycles count).rotate shift := by
  induction count generalizing battle with
  | zero => rfl
  | succ count ih =>
    rw [afterCycles, cycle_rotate h]
    exact ih (tasksInside_preserved.cycle h)

theorem isOver_rotate (battle : Battle) (shift : Nat) :
    (battle.rotate shift).isOver = battle.isOver := by
  simp only [isOver, rotate, List.length_map, List.isEmpty_map]
  rfl

theorem outcome_rotate (battle : Battle) (shift : Nat) :
    (battle.rotate shift).outcome = battle.outcome := by
  obtain ⟨settings, core, warriors, offsets, cycles⟩ := battle
  match warriors with
  | [] => rfl
  | [winner] => rfl
  | first :: second :: others => rfl

theorem runCycles_rotate {σ : Type} (record : σ → Notice → σ) (left : Nat) {battle : Battle}
    (h : battle.TasksInside) (shift : Nat) (seen seen' : σ) :
    (runCycles record left (battle.rotate shift) seen).1 =
      (runCycles record left battle seen').1.rotate shift := by
  -- The notices of the two runs differ, so what was seen has to differ too.
  induction left generalizing battle seen seen' with
  | zero => rfl
  | succ left ih =>
    rw [runCycles, runCycles, isOver_rotate]
    by_cases ho : battle.isOver
    · rw [if_pos ho, if_pos ho]
    · rw [if_neg ho, if_neg ho]
      have hcycle := cycle_rotate h shift
      rw [← Prod.eta (battle.rotate shift).cycle, hcycle]
      exact ih (tasksInside_preserved.cycle h) _ _

/-- Moving all cells and all tasks on by `shift` cells commutes with any number of cycles, and a
whole run has the same outcome and leaves the same match so much further on. -/
theorem rotate_commutes {battle : Battle}
    (h : ∀ warrior ∈ battle.warriors, ∀ task ∈ warrior.tasks.toList,
      task.address < battle.core.size) (shift : Nat) :
    (∀ count, (battle.rotate shift).afterCycles count = (battle.afterCycles count).rotate shift) ∧
    ∀ {σ : Type} (record : σ → Notice → σ) (seen : σ),
      ((battle.rotate shift).run record seen).1 = (battle.run record seen).1 ∧
      ((battle.rotate shift).run record seen).2.1 = (battle.run record seen).2.1.rotate shift := by
  refine ⟨afterCycles_rotate h shift, ?_⟩
  intro σ record seen
  have hrun : ((battle.rotate shift).run record seen).2.1 =
      (battle.run record seen).2.1.rotate shift := runCycles_rotate record _ h shift seen seen
  refine ⟨?_, hrun⟩
  rw [run_fst, run_fst, hrun, outcome_rotate]

theorem rotate_commutes_duel :
    ∃ battle notices, load .duel [.splitter, .imp] (fun _ => 0) = .ok (battle, notices) ∧
      (∀ warrior ∈ battle.warriors, ∀ task ∈ warrior.tasks.toList,
        task.address < battle.core.size) ∧
      (battle.rotate 5).afterCycles 7 = (battle.afterCycles 7).rotate 5 ∧
      ((battle.rotate 5).run (fun seen _ => seen) ()).1 =
        (battle.run (fun seen _ => seen) ()).1 := by
  refine ⟨_, _, rfl, by decide, ?_, ?_⟩
  · exact (rotate_commutes (by decide) 5).1 7
  · exact ((rotate_commutes (by decide) 5).2 (fun seen _ => seen) ()).1

end Battle

end CoreWar
