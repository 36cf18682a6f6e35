import CoreWar.Command.Workspace

namespace CoreWar.Command

structure Invocation where
  program : String
  arguments : List String
  logSetting : Option String

inductive Output where
  | logged (line : Log.Line)
  | printed (text : String)
  deriving DecidableEq

def Output.text (style : Log.Style) (stamp : Option Stamp) : Output → String
  | logged line => line.text style stamp
  | printed text => text

structure Transcript where
  exit : UInt32
  stdout : String := ""
  stderr : List Output := []
  deriving DecidableEq

def Transcript.errors (transcript : Transcript) (style : Log.Style) : String :=
  String.join (transcript.stderr.map (·.text style none))

def Transcript.after (output : List Output) (transcript : Transcript) : Transcript :=
  { transcript with stderr := output ++ transcript.stderr }

inductive Ending where
  | done (transcript : Transcript)
  | writing (path text : String) (reply : Option FileFault → Transcript)

def logged (threshold : Log.Threshold) (lines : List Log.Line) : List Output :=
  (lines.filter fun line => threshold.enables line.level).map .logged

def logSettingName : String := "REDCODE_LOG"

/-- The threshold of a command, and a warning if the setting for it means nothing. -/
def Invocation.threshold (invocation : Invocation) : Log.Threshold × List Output :=
  match Log.Threshold.ofSetting invocation.logSetting with
  | (threshold, none) => (threshold, [])
  | (threshold, some value) =>
    (threshold, logged threshold [⟨.warn, s!"ignoring unknown {logSettingName} value '{value}'"⟩])

structure Refusal where
  message : Option String
  showsUsage : Bool
  exit : UInt32

def Refusal.transcript (refusal : Refusal) (threshold : Log.Threshold) (usage : String) :
    Transcript where
  exit := refusal.exit
  stderr := logged threshold (refusal.message.toList.map (⟨.error, ·⟩)) ++
    (if refusal.showsUsage then [.printed (usage ++ "\n")] else [])

namespace Refusal

def help : Refusal := ⟨none, true, 0⟩

def noArguments : Refusal := ⟨none, true, 1⟩

def missingValue (flag : String) : Refusal := ⟨some s!"{flag} requires an argument", false, 1⟩

def unexpected (argument : String) : Refusal :=
  ⟨some s!"Unexpected argument: {argument}\n", true, 1⟩

end Refusal

end CoreWar.Command
