import CoreWar.Instruction.Basic
import CoreWar.Text.Case

namespace CoreWar

inductive Separation where
  | fixed (gap : Nat)
  | random
  deriving DecidableEq

def Separation.text : Separation → String
  | fixed gap => toString gap
  | random => "random"

/-- An instruction reads and writes cells within two windows around itself. -/
inductive Window where
  | read | write
  deriving DecidableEq

def Window.name : Window → String
  | read => "read_distance"
  | write => "write_distance"

structure Settings where
  coreSize : Nat
  cyclesBeforeTie : Nat
  initial : Instruction
  instructionLimit : Nat
  maxTasks : Nat
  minimumSeparation : Nat
  readDistance : Nat
  writeDistance : Nat
  separation : Separation
  warriors : Nat
  deriving DecidableEq

inductive SettingsFault where
  | notPositive (name : String)
  | noWarriors
  | distanceOutOfRange (window : Window) (distance coreSize : Nat)
  | distanceNotDivisor (window : Window) (distance coreSize : Nat)
  | separationTooSmall (gap minimum : Nat)
  deriving DecidableEq

def SettingsFault.message : SettingsFault → String
  | notPositive name => s!"{name} must be positive"
  | noWarriors => "num_warriors must be at least 1"
  | distanceOutOfRange window distance size => s!"{window.name} {distance} must be in 1..={size}"
  | distanceNotDivisor window distance size =>
    s!"{window.name} {distance} must divide core_size {size}"
  | separationTooSmall gap minimum => s!"separation {gap} is below minimum_separation {minimum}"

namespace Settings

def icws86 : Settings where
  coreSize := 8192
  cyclesBeforeTie := 100000
  initial := .empty
  instructionLimit := 300
  maxTasks := 64
  minimumSeparation := 300
  readDistance := 8192
  writeDistance := 8192
  separation := .random
  warriors := 2

def koth : Settings where
  coreSize := 8000
  cyclesBeforeTie := 80000
  initial := ⟨.dat, .f, ⟨.direct, 0⟩, ⟨.direct, 0⟩⟩
  instructionLimit := 100
  maxTasks := 8000
  minimumSeparation := 100
  readDistance := 8000
  writeDistance := 8000
  separation := .random
  warriors := 2

def preset? (name : String) : Option Settings :=
  if Text.sameName name "icws86" then some icws86
  else if Text.sameName name "koth" then some koth
  else none

def distance (settings : Settings) : Window → Nat
  | .read => settings.readDistance
  | .write => settings.writeDistance

/-- The least distance from one warrior to the next. -/
def gap (settings : Settings) : Nat :=
  match settings.separation with
  | .fixed gap => gap
  | .random => settings.minimumSeparation

/-- The cells divide into whole windows, so that an offset folded into a window stays put when it
is folded again. -/
def checkDistance (settings : Settings) (window : Window) : Except SettingsFault Unit := do
  let distance := settings.distance window
  if distance = 0 ∨ settings.coreSize < distance then
    throw (.distanceOutOfRange window distance settings.coreSize)
  if settings.coreSize % distance ≠ 0 then
    throw (.distanceNotDivisor window distance settings.coreSize)

def checkSeparation (settings : Settings) : Except SettingsFault Unit :=
  match settings.separation with
  | .fixed gap =>
    if gap < settings.minimumSeparation then
      .error (.separationTooSmall gap settings.minimumSeparation)
    else
      .ok ()
  | .random => .ok ()

def validate (settings : Settings) : Except SettingsFault Unit := do
  if settings.coreSize = 0 then throw (.notPositive "core_size")
  if settings.cyclesBeforeTie = 0 then throw (.notPositive "cycles_before_tie")
  if settings.instructionLimit = 0 then throw (.notPositive "instruction_limit")
  if settings.maxTasks = 0 then throw (.notPositive "max_num_tasks")
  if settings.minimumSeparation = 0 then throw (.notPositive "minimum_separation")
  if settings.warriors = 0 then throw .noWarriors
  settings.checkDistance .read
  settings.checkDistance .write
  settings.checkSeparation

end Settings

end CoreWar
