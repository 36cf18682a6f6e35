import CoreWar.Battle.Error
import CoreWar.Core.Step
import CoreWar.Queue

namespace CoreWar

structure Task (Address : Type := Nat) where
  id : Nat
  address : Address
  deriving DecidableEq

structure Warrior (Address : Type := Nat) where
  id : Nat
  tasks : Queue (Task Address)
  nextTask : Nat
  maxTasks : Nat

structure Report (Address : Type := Nat) where
  task : Nat
  pc : Address
  update : Update Address
  dropped : Bool
  deriving DecidableEq

namespace Warrior

variable {Address : Type}

def start (id maxTasks : Nat) (entry : Address) : Warrior Address :=
  ⟨id, .ofList [⟨0, entry⟩], 1, maxTasks⟩

def isDead (warrior : Warrior Address) : Bool := warrior.tasks.isEmpty

def take? (warrior : Warrior Address) : Option (Task Address × Warrior Address) :=
  warrior.tasks.pop?.map fun (task, tasks) => (task, { warrior with tasks })

def requeue (warrior : Warrior Address) (task : Task Address) : Option Address → Warrior Address
  | some next => { warrior with tasks := warrior.tasks.push { task with address := next } }
  | none => warrior

def spawn (warrior : Warrior Address) (address : Address) : Warrior Address :=
  { warrior with
    tasks := warrior.tasks.push ⟨warrior.nextTask, address⟩
    nextTask := warrior.nextTask + 1 }

/-- Queues what has become of a task that was taken from the queue. -/
def settle (warrior : Warrior Address) (task : Task Address) (update : Update Address) :
    Report Address × Warrior Address :=
  let warrior := warrior.requeue task update.next
  match update.spawn with
  | none => (⟨task.id, task.address, update, false⟩, warrior)
  | some address =>
    if warrior.tasks.size < warrior.maxTasks then
      (⟨task.id, task.address, update, false⟩, warrior.spawn address)
    else
      (⟨task.id, task.address, update, true⟩, warrior)

/-- Runs the next task. `f` tells what a task does that runs at an address. -/
def runTask (warrior : Warrior Address) (f : Address → Update Address) :
    Except BattleError (Report Address) × Warrior Address :=
  match warrior.take? with
  | none => (.error (.deadWarrior warrior.id), warrior)
  | some (task, rest) =>
    let (report, rest) := rest.settle task (f task.address)
    (.ok report, rest)

end Warrior

end CoreWar
