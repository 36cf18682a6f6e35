import CoreWar.Settings

namespace CoreWar

inductive BattleError where
  | deadWarrior (id : Nat)
  | invalidSettings (fault : SettingsFault)
  | warriorCount (expected actual : Nat)
  | programTooLong (id length limit : Nat)
  | programOverlaps (id length gap : Nat)
  | coreTooSmall (coreSize warriors gap : Nat)
  | unknownWarrior (index : Nat)
  /-- No word from this position on can be used, so the search for one has no end. -/
  | drawsRejected (position : Nat)
  deriving DecidableEq

def BattleError.message : BattleError → String
  | deadWarrior id => s!"warrior {id} has no tasks left to execute"
  | invalidSettings fault => s!"invalid options: {fault.message}"
  | warriorCount expected actual => s!"expected {expected} warriors, got {actual}"
  | programTooLong id length limit => s!"warrior {id} has {length} instructions, limit is {limit}"
  | programOverlaps id length gap =>
    s!"warrior {id} has {length} instructions but warriors are only {gap} apart"
  | coreTooSmall size warriors gap => s!"core of size {size} cannot hold {warriors} warriors {gap} apart"
  | unknownWarrior index => s!"no warrior at index {index}"
  | drawsRejected position => s!"no usable draw from position {position} on"

end CoreWar
