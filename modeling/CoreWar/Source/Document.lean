import CoreWar.Source.Error
import CoreWar.Source.Line
import CoreWar.Source.Metadata
import CoreWar.Text.Lines

namespace CoreWar.Source

/-- The records of the lines from number `line` on. The labels in `waiting`, the first of which
stands on line `since`, have no record yet. -/
def readRecords (line : Nat) (waiting : List String) (since : Nat) :
    List (List Char) → Except SourceError (List Record)
  | [] => .ok (if waiting.isEmpty then [] else [⟨waiting, some since, .finish none⟩])
  | text :: texts =>
    match Line.read (!waiting.isEmpty) text with
    | .error refusal => .error (.malformed line refusal.column refusal.fault)
    | .ok none => readRecords (line + 1) waiting since texts
    | .ok (some ⟨labels, none⟩) =>
      readRecords (line + 1) (waiting ++ labels) (if waiting.isEmpty then line else since) texts
    | .ok (some ⟨labels, some body⟩) =>
      (readRecords (line + 1) [] since texts).map (⟨waiting ++ labels, some line, body⟩ :: ·)

def readMetadata (texts : List (List Char)) : Metadata :=
  (texts.filterMap comment?).foldl Metadata.addComment {}

structure Document where
  records : List Record
  metadata : Metadata
  deriving DecidableEq

def Document.read (source : String) : Except SourceError Document :=
  let texts := Text.lines source.toList
  (readRecords 1 [] 0 texts).map fun records => ⟨records, readMetadata texts⟩

def readDraftText (text : String) : Except SourceError Draft :=
  match readInstruction text.toList with
  | .ok draft => .ok draft
  | .error refusal => .error (.malformed 1 refusal.column refusal.fault)

end CoreWar.Source
