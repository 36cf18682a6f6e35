import CoreWar.Text.Blank
import CoreWar.Text.Case

namespace CoreWar.Log

inductive Level where
  | debug | info | warn | error
  deriving DecidableEq

namespace Level

def all : List Level := [debug, info, warn, error]

def name : Level → String
  | debug => "DEBUG"
  | info => "INFO"
  | warn => "WARN"
  | error => "ERROR"

def severity (level : Level) : Nat := all.idxOf level

/-- White space around a name does not count. -/
def ofName? (name : String) : Option Level :=
  all.find? fun level => Text.sameName (String.ofList (Text.trim name.toList)) level.name

end Level

/-- The least severe level that is logged, or none if nothing is. -/
abbrev Threshold := Option Level

namespace Threshold

def standard : Threshold := some .info

def enables (threshold : Threshold) (level : Level) : Bool :=
  match threshold with
  | some least => least.severity ≤ level.severity
  | none => false

/-- The threshold that a setting asks for, and the setting itself if it means nothing. -/
def ofSetting : Option String → Threshold × Option String
  | none => (standard, none)
  | some value =>
    if Text.sameName (String.ofList (Text.trim value.toList)) "off" then
      (none, none)
    else
      match Level.ofName? value with
      | some level => (some level, none)
      | none => (standard, some value)

end Threshold

end CoreWar.Log
