import CoreWar.Text.Blank
import CoreWar.Text.Case

namespace CoreWar

structure Metadata where
  name : Option String := none
  author : Option String := none
  version : Option String := none
  date : Option String := none
  strategy : Option String := none
  deriving DecidableEq

namespace Metadata

inductive Key where
  | name | author | version | date | strategy
  deriving DecidableEq

def Key.all : List Key := [name, author, version, date, strategy]

def Key.text : Key → String
  | name => "name"
  | author => "author"
  | version => "version"
  | date => "date"
  | strategy => "strategy"

def Key.ofText? (text : String) : Option Key := all.find? fun key => Text.sameName text key.text

def get (metadata : Metadata) : Key → Option String
  | .name => metadata.name
  | .author => metadata.author
  | .version => metadata.version
  | .date => metadata.date
  | .strategy => metadata.strategy

/-- Strategies add up, one to a line. Of the other entries the last one stands. -/
def put (metadata : Metadata) (key : Key) (value : String) : Metadata :=
  match key with
  | .name => { metadata with name := some value }
  | .author => { metadata with author := some value }
  | .version => { metadata with version := some value }
  | .date => { metadata with date := some value }
  | .strategy =>
    match metadata.strategy with
    | some text => { metadata with strategy := some (text ++ "\n" ++ value) }
    | none => { metadata with strategy := some value }

def set? (metadata : Metadata) (key value : String) : Option Metadata :=
  (Key.ofText? key).map fun key => metadata.put key (String.ofList (Text.trim value.toList))

/-- Reads a comment as a key and, after white space, its value. Unknown keys are passed over. -/
def addComment (metadata : Metadata) (comment : List Char) : Metadata :=
  let text := Text.trim comment
  let key := text.takeWhile (!Text.isBlank ·)
  let value := text.dropWhile (!Text.isBlank ·)
  (metadata.set? (String.ofList key) (String.ofList value)).getD metadata

end Metadata

end CoreWar
