import CoreWar.Calendar
import CoreWar.Log.Level

namespace CoreWar.Log

structure Line where
  level : Level
  message : String
  deriving DecidableEq

structure Style where
  color : Bool := false
  showLevel : Bool := true

def escape (code : String) : String := "\x1b[" ++ code ++ "m"

def Level.color : Level → String
  | debug => escape "36"
  | info => ""
  | warn => escape "1" ++ escape "33"
  | error => escape "1" ++ escape "31"

def Line.text (style : Style) (stamp : Option Stamp) (line : Line) : String :=
  let label := if style.showLevel then s!"[{line.level.name}] " else ""
  let text := (stamp.map (·.text)).getD "" ++ label ++ line.message ++ "\n"
  if style.color then escape "0" ++ line.level.color ++ text ++ escape "0" else text

end CoreWar.Log
