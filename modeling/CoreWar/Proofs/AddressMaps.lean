import CoreWar.Battle.Basic

namespace CoreWar

variable {α β : Type}

namespace Queue

def map (f : α → β) (queue : Queue α) : Queue β where
  front := queue.front.map f
  back := queue.back.map f
  size := queue.size
  size_eq := by simp only [queue.size_eq, List.length_map]

theorem toList_map (f : α → β) (queue : Queue α) : (queue.map f).toList = queue.toList.map f := by
  simp [toList, map]

theorem map_map_of_inverse {f : α → β} {g : β → α} (h : ∀ a, g (f a) = a) (queue : Queue α) :
    (queue.map f).map g = queue := by
  simp [map, Function.comp_def, h]

theorem pop?_map (f : α → β) (queue : Queue α) :
    (queue.map f).pop? = queue.pop?.map fun (a, rest) => (f a, rest.map f) := by
  obtain ⟨front, back, size, h⟩ := queue
  cases front with
  | cons a front => rfl
  | nil =>
    simp only [pop?, map, List.map_nil, ← List.map_reverse]
    cases back.reverse with
    | nil => rfl
    | cons a rest => simp [ofList]

end Queue

def Target.map (f : α → β) (target : Target α) : Target β :=
  ⟨target.insn, f target.read, f target.write⟩

def Decoded.map (f : α → β) (d : Decoded α) : Decoded β := ⟨f d.pc, d.insn, d.a.map f, d.b.map f⟩

@[simp] theorem Decoded.map_insn (f : α → β) (d : Decoded α) : (d.map f).insn = d.insn := rfl

@[simp] theorem Decoded.map_source (f : α → β) (d : Decoded α) : (d.map f).source = d.source := rfl

@[simp] theorem Decoded.map_target (f : α → β) (d : Decoded α) : (d.map f).target = d.target := rfl

def Update.map (f : α → β) (update : Update α) : Update β :=
  ⟨update.next.map f, update.spawn.map f⟩

def Task.map (f : α → β) (task : Task α) : Task β := ⟨task.id, f task.address⟩

namespace Warrior

def map (f : α → β) (warrior : Warrior α) : Warrior β :=
  ⟨warrior.id, warrior.tasks.map (Task.map f), warrior.nextTask, warrior.maxTasks⟩

variable (f : α → β) (warrior : Warrior α)

theorem take?_map :
    (warrior.map f).take? = warrior.take?.map fun (task, rest) => (task.map f, rest.map f) := by
  change ((warrior.tasks.map (Task.map f)).pop?.map _) = _
  rw [Queue.pop?_map, take?, Option.map_map, Option.map_map]
  rfl

theorem requeue_map (task : Task α) (next : Option α) :
    (warrior.map f).requeue (task.map f) (next.map f) = (warrior.requeue task next).map f := by
  cases next <;> rfl

theorem settle_map (task : Task α) (update : Update α) :
    ((warrior.map f).settle (task.map f) (update.map f)).2 =
      (warrior.settle task update).2.map f := by
  unfold settle Update.map
  rw [requeue_map]
  cases update.spawn with
  | none => rfl
  | some address =>
    simp only [Option.map_some]
    by_cases hroom : (warrior.requeue task update.next).tasks.size <
        (warrior.requeue task update.next).maxTasks
    · rw [if_pos hroom]
      exact congrArg Prod.snd (if_pos hroom)
    · rw [if_neg hroom]
      exact congrArg Prod.snd (if_neg hroom)

theorem map_map_of_inverse {f : α → β} {g : β → α} (h : ∀ a, g (f a) = a) (warrior : Warrior α) :
    (warrior.map f).map g = warrior := by
  have htask : ∀ task : Task α, (task.map f).map g = task := by
    intro task
    simp only [Task.map, h]
  simp only [map, Queue.map_map_of_inverse htask]

end Warrior

namespace Battle

def map (f : α → β) (battle : Battle α) : Battle β :=
  ⟨battle.settings, battle.core, battle.warriors.map (Warrior.map f), battle.offsets, battle.cycles⟩

theorem map_map_of_inverse {f : α → β} {g : β → α} (h : ∀ a, g (f a) = a) (battle : Battle α) :
    (battle.map f).map g = battle := by
  simp [map, Function.comp_def, Warrior.map_map_of_inverse h]

theorem endCycle_map (f : α → β) (battle : Battle α) :
    (battle.map f).endCycle.1 = battle.endCycle.1.map f := by
  simp only [endCycle, map, List.filter_map]
  rfl

theorem isOver_map (f : α → β) (battle : Battle α) : (battle.map f).isOver = battle.isOver := by
  have hlength : (battle.map f).warriors.length = battle.warriors.length := List.length_map _
  have hempty : (battle.map f).warriors.isEmpty = battle.warriors.isEmpty := List.isEmpty_map
  simp only [isOver, hlength, hempty]
  rfl

end Battle

end CoreWar
