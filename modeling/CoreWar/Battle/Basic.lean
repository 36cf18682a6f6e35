import CoreWar.Battle.Event
import CoreWar.Battle.Placement

namespace CoreWar

structure Battle (Address : Type := Nat) where
  settings : Settings
  core : Core
  warriors : List (Warrior Address)
  offsets : List Nat
  cycles : Nat

namespace Battle

def loadWarriors (maxTasks : Nat) (core : Core) (id : Nat) :
    List (Program × Nat) → List Warrior × List Notice × Core
  | [] => ([], [], core)
  | (program, offset) :: rest =>
    let base := core.wrap (Int64.ofNat offset)
    let warrior := Warrior.start id maxTasks (core.advance base program.start)
    let (warriors, notices, core) :=
      loadWarriors maxTasks (core.storeAll base program.code) (id + 1) rest
    (warrior :: warriors, .loading id program.metadata.name offset :: notices, core)

def load (settings : Settings) (programs : List Program) (draws : Draws) :
    Except BattleError (Battle × List Notice) := do
  settings.validate.mapError .invalidSettings
  checkPrograms settings programs
  let offsets ← placements settings draws
  let (warriors, notices, core) :=
    loadWarriors settings.maxTasks (Core.ofSettings settings) 0 (programs.zip offsets)
  return (⟨settings, core, warriors, offsets, 0⟩, notices)

def step (battle : Battle) (index : Nat) : Except BattleError Event × Battle :=
  match battle with
  | ⟨settings, core, warriors, offsets, cycles⟩ =>
    match warriors[index]? with
    | none => (.error (.unknownWarrior index), ⟨settings, core, warriors, offsets, cycles⟩)
    | some warrior =>
      match warrior.take? with
      | none => (.error (.deadWarrior warrior.id), ⟨settings, core, warriors, offsets, cycles⟩)
      | some (task, rest) =>
        let insn := core.fetch task.address
        let (update, core) := core.execute task.address
        let (report, rest) := rest.settle task update
        (.ok { toReport := report, cycle := cycles, warrior := rest.id, insn },
          ⟨settings, core, warriors.set index rest, offsets, cycles⟩)

/-- Executes the instruction at an address outside of any task. -/
def executeAt (battle : Battle) (address : Int64) : Update × Battle :=
  match battle with
  | ⟨settings, core, warriors, offsets, cycles⟩ =>
    let (update, core) := core.execute (core.wrap address)
    (update, ⟨settings, core, warriors, offsets, cycles⟩)

def poke (battle : Battle) (address : Int64) (insn : Instruction) : Battle :=
  { battle with core := battle.core.store (battle.core.wrap address) insn }

def turn (battle : Battle) (index : Nat) : Battle × List Notice :=
  match battle.step index with
  | (.ok event, battle) => (battle, event.notices)
  | (.error error, battle) => (battle, [.fault battle.cycles error])

def turns (battle : Battle) : List Nat → Battle × List Notice
  | [] => (battle, [])
  | index :: indices =>
    let (battle, notices) := battle.turn index
    let (battle, more) := battle.turns indices
    (battle, notices ++ more)

def endCycle {Address : Type} (battle : Battle Address) : Battle Address × List Notice :=
  let notices := (battle.warriors.filter (·.isDead)).map fun warrior =>
    .death warrior.id battle.cycles
  ({ battle with
    warriors := battle.warriors.filter (!·.isDead)
    cycles := battle.cycles + 1 }, notices)

def cycle (battle : Battle) : Battle × List Notice :=
  let (battle, notices) := battle.turns (List.range battle.warriors.length)
  let (battle, deaths) := battle.endCycle
  (battle, notices ++ deaths)

def isContested {Address : Type} (battle : Battle Address) : Bool := 1 < battle.settings.warriors

def isOver {Address : Type} (battle : Battle Address) : Bool :=
  if battle.isContested then battle.warriors.length ≤ 1 else battle.warriors.isEmpty

def outcome (battle : Battle) : Outcome :=
  match battle.warriors with
  | [winner] =>
    if battle.isContested then ⟨.win, some winner.id, battle.cycles⟩ else ⟨.tie, none, battle.cycles⟩
  | _ => ⟨.tie, none, battle.cycles⟩

/-- Runs at most so many cycles. All that is noticed goes through `record`. -/
def runCycles {σ : Type} (record : σ → Notice → σ) : (left : Nat) → Battle → σ → Battle × σ
  | 0, battle, seen => (battle, seen)
  | left + 1, battle, seen =>
    if battle.isOver then
      (battle, seen)
    else
      let (battle, notices) := battle.cycle
      runCycles record left battle (notices.foldl record seen)

def run {σ : Type} (record : σ → Notice → σ) (battle : Battle) (seen : σ) : Outcome × Battle × σ :=
  let left := battle.settings.cyclesBeforeTie - battle.cycles
  let (battle, seen) := runCycles record left battle seen
  let outcome := battle.outcome
  (outcome, battle, record seen (.decided outcome))

end Battle

end CoreWar
