import CoreWar.Battle.Error
import CoreWar.Program
import CoreWar.Random.Draws

namespace CoreWar

/-- The offsets of `count` warriors that follow one at `offset`. -/
def randomOffsets (draws : Draws) (gap slack : Nat) :
    (count offset position : Nat) → Except BattleError (List Nat)
  | 0, _, _ => .ok []
  | count + 1, offset, position =>
    match draws.uniform slack position with
    | none => .error (.drawsRejected position)
    | some (extra, position) =>
      let next := offset + gap + extra
      (randomOffsets draws gap slack count next position).map (next :: ·)

def placements (settings : Settings) (draws : Draws) : Except BattleError (List Nat) :=
  let count := settings.warriors
  let needed := count * settings.gap
  if settings.coreSize < needed then
    .error (.coreTooSmall settings.coreSize count settings.gap)
  else
    match settings.separation with
    | .fixed gap => .ok ((List.range count).map (· * gap))
    | .random =>
      let slack := (settings.coreSize - needed) / (count - 1)
      (randomOffsets draws settings.gap slack (count - 1) 0 0).map (0 :: ·)

/-- Refuses the first program, from number `id` on, that is too long. Only a lone warrior may
reach beyond the gap. -/
def checkLengths (settings : Settings) (alone : Bool) (id : Nat) :
    List Program → Except BattleError Unit
  | [] => .ok ()
  | program :: programs =>
    if settings.instructionLimit < program.length then
      .error (.programTooLong id program.length settings.instructionLimit)
    else if !alone && settings.gap < program.length then
      .error (.programOverlaps id program.length settings.gap)
    else
      checkLengths settings alone (id + 1) programs

def checkPrograms (settings : Settings) (programs : List Program) : Except BattleError Unit :=
  if programs.length ≠ settings.warriors then
    .error (.warriorCount settings.warriors programs.length)
  else
    checkLengths settings (programs.length ≤ 1) 0 programs

end CoreWar
