import CoreWar.Operator
import CoreWar.Text.Case

namespace CoreWar

inductive Opcode where
  | dat | mov | add | sub | mul | div | mod | jmp | jmz | jmn | djn | cmp | slt | spl
  deriving DecidableEq

namespace Opcode

def all : List Opcode :=
  [dat, mov, add, sub, mul, div, mod, jmp, jmz, jmn, djn, cmp, slt, spl]

def mnemonic : Opcode → String
  | dat => "DAT"
  | mov => "MOV"
  | add => "ADD"
  | sub => "SUB"
  | mul => "MUL"
  | div => "DIV"
  | mod => "MOD"
  | jmp => "JMP"
  | jmz => "JMZ"
  | jmn => "JMN"
  | djn => "DJN"
  | cmp => "CMP"
  | slt => "SLT"
  | spl => "SPL"

def code (opcode : Opcode) : Nat := all.idxOf opcode

def ofCode? (code : Nat) : Option Opcode := all[code]?

def ofMnemonic? (name : String) : Option Opcode :=
  all.find? fun opcode => Text.sameName name opcode.mnemonic

def operator? : Opcode → Option Operator
  | add => some .add
  | sub => some .sub
  | mul => some .mul
  | div => some .div
  | mod => some .mod
  | _ => none

end Opcode

end CoreWar
