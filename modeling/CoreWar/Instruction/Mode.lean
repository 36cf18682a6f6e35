import CoreWar.Text.Case

namespace CoreWar

inductive Mode where
  | immediate | direct | indirect | preDecrement | postIncrement
  deriving DecidableEq

namespace Mode

def all : List Mode := [immediate, direct, indirect, preDecrement, postIncrement]

def sigil : Mode → Char
  | immediate => '#'
  | direct => '$'
  | indirect => '@'
  | preDecrement => '<'
  | postIncrement => '>'

def ofSigil? (c : Char) : Option Mode := all.find? (·.sigil == c)

def isIndirect : Mode → Bool
  | immediate | direct => false
  | _ => true

end Mode

inductive Modifier where
  | a | b | ab | ba | f | x | i
  deriving DecidableEq

namespace Modifier

def all : List Modifier := [a, b, ab, ba, f, x, i]

def name : Modifier → String
  | a => "A"
  | b => "B"
  | ab => "AB"
  | ba => "BA"
  | f => "F"
  | x => "X"
  | i => "I"

def ofName? (name : String) : Option Modifier :=
  all.find? fun modifier => Text.sameName name modifier.name

end Modifier

end CoreWar
