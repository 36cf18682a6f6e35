import CoreWar.Command.Assembler
import CoreWar.Command.MatchRunner
import CoreWar.Random.ChaCha
import Std.Time.DateTime

open CoreWar CoreWar.Command

namespace CoreWar.Main

def faultOf : IO.Error → FileFault
  | .noFileOrDirectory .. => .notFound
  | .inappropriateType _ 20 _ => .notDirectory
  | .inappropriateType .. => .isDirectory
  | error => .other (toString error)

def isThere (path : String) : IO Bool := do
  try
    discard (IO.FS.realPath path)
    return true
  catch _ =>
    return false

def openFiles (paths : List String) : IO Workspace := do
  let entries ← paths.mapM fun (path : String) => do
    let contents ← try
      pure (Except.ok (← IO.FS.readBinFile path))
    catch error =>
      pure (Except.error (faultOf error))
    return (path, contents, ← isThere path)
  return .ofAnswers (fun path => ((entries.lookup path).map (·.1)).getD (.error .notFound))
    (fun path => ((entries.lookup path).map (·.2)).getD false)

/-- A stream of draws from the operating system, of limited length. -/
def entropy : IO Draws := do
  let bytes ← IO.getRandomBytes 8192
  return fun position =>
    (List.range 8).foldl (fun word i =>
      word * 256 + (bytes.data.getD ((position * 8 + i) % bytes.size) 0).toUInt64) 0

def now : IO Stamp := do
  let time ← Std.Time.Timestamp.now
  return ⟨time.toSecondsSinceUnixEpoch.val.toNat, (time.toMillisecondsSinceUnixEpoch.val % 1000).toNat⟩

def finish (transcript : Transcript) : IO UInt32 := do
  let stderr ← IO.getStderr
  let style : Log.Style := { color := ← stderr.isTty }
  for output in transcript.stderr do
    stderr.putStr (output.text style (some (← now)))
  (← IO.getStdout).putStr transcript.stdout
  return transcript.exit

def conclude : Ending → IO UInt32
  | .done transcript => finish transcript
  | .writing path text reply => do
    let fault ← try
      IO.FS.writeFile path text
      pure none
    catch error =>
      pure (some (faultOf error))
    finish (reply fault)

end CoreWar.Main

open CoreWar.Main in
def main (arguments : List String) : IO UInt32 := do
  let setting ← IO.getEnv logSettingName
  match arguments with
  | "redcode" :: words =>
    let files ← openFiles words
    finish (MatchRunner.run files ChaCha.draws (← entropy) ⟨"redcode", words, setting⟩)
  | "redasm" :: words =>
    conclude (Assembler.run (← openFiles words) ⟨"redasm", words, setting⟩)
  | _ =>
    IO.eprintln "expected redcode or redasm"
    return 1
