import CoreWar.Battle.Warrior
import CoreWar.Log.Level

namespace CoreWar

/-- A step of a task. `insn` is the cell at its address just before. -/
structure Event extends Report where
  cycle : Nat
  warrior : Nat
  insn : Instruction
  deriving DecidableEq

namespace Event

def text (event : Event) : String :=
  s!"cycle {event.cycle} warrior {event.warrior} task {event.task} @"
    ++ Text.padLeft 5 '0' (toString event.pc) ++ ": " ++ event.insn.text
    ++ (match event.update.next with
      | some next => s!" -> {next}"
      | none => " -> died")
    ++ (match event.update.spawn with
      | some spawn => s!", spawn {spawn}" ++ (if event.dropped then " (dropped)" else "")
      | none => "")

end Event

inductive Status where
  | win | tie
  deriving DecidableEq

def Status.text : Status → String
  | win => "WIN"
  | tie => "TIE"

structure Outcome where
  status : Status
  winner : Option Nat
  cycles : Nat
  deriving DecidableEq

def Outcome.text (outcome : Outcome) : String :=
  match outcome.winner with
  | some id => s!"{outcome.status.text} warrior {id} after {outcome.cycles} cycles"
  | none => s!"{outcome.status.text} after {outcome.cycles} cycles"

inductive Notice where
  | loading (id : Nat) (name : Option String) (offset : Nat)
  | stepped (event : Event)
  | taskLimit (event : Event)
  | fault (cycle : Nat) (error : BattleError)
  | death (id cycle : Nat)
  | decided (outcome : Outcome)
  deriving DecidableEq

namespace Notice

def level : Notice → Log.Level
  | loading .. | death .. | decided _ => .info
  | stepped _ | taskLimit _ => .debug
  | fault .. => .warn

def message : Notice → String
  | loading id (some name) offset => s!"loading warrior {id} ({name}) at {offset}"
  | loading id none offset => s!"loading warrior {id} at {offset}"
  | stepped event => event.text
  | taskLimit event => s!"{event.text}: task limit reached"
  | fault cycle error => s!"cycle {cycle}: {error.message}"
  | death id cycle => s!"warrior {id} died at cycle {cycle}"
  | decided outcome => outcome.text

end Notice

/-- A step is noticed after a dropped task. -/
def Event.notices (event : Event) : List Notice :=
  if event.dropped then [.taskLimit event, .stepped event] else [.stepped event]

end CoreWar
