import CoreWar.Assembly.Assemble
import CoreWar.Assembly.Diagnostic
import CoreWar.Log.Line

namespace CoreWar.Command

/-- What is at a path may be there and still not open, so that only some answers of `read` decide
`contains`. -/
structure Workspace where
  read : String → Except FileFault ByteArray
  contains : String → Bool
  contains_of_ok : ∀ {path bytes}, read path = .ok bytes → contains path = true
  contains_of_isDirectory : ∀ {path}, read path = .error .isDirectory → contains path = true
  contains_of_notFound : ∀ {path}, read path = .error .notFound → contains path = false

namespace Workspace

/-- Where reading leaves open whether something is at a path, `probe` tells. -/
def ofAnswers (read : String → Except FileFault ByteArray) (probe : String → Bool) : Workspace where
  read := read
  contains path :=
    match read path with
    | .ok _ | .error .isDirectory => true
    | .error .notFound => false
    | .error _ => probe path
  contains_of_ok h := by rw [h]
  contains_of_isDirectory h := by rw [h]
  contains_of_notFound h := by rw [h]

def readText (files : Workspace) (path : String) : Except FileFault String := do
  match String.fromUTF8? (← files.read path) with
  | some text => return text
  | none => throw .notText

/-- Assembles the source in a file. What is wrong with the source is logged; a file that cannot be
read is left to the caller. -/
def assemble (files : Workspace) (path : String) : Except SourceError Program × List Log.Line :=
  match files.readText path with
  | .error fault => (.error (.unreadable path fault), [])
  | .ok source =>
    match Program.assemble source with
    | .ok program => (.ok program, [])
    | .error error => (.error error, [⟨.error, error.diagnostic path source⟩])

end Workspace

end CoreWar.Command
