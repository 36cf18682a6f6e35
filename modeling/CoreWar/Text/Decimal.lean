namespace CoreWar.Text

def signed (n : Int64) : String :=
  if n < 0 then "-" ++ toString n.toInt.natAbs else toString n.toInt.natAbs

def padLeft (width : Nat) (c : Char) (s : String) : String :=
  String.ofList (List.replicate (width - s.length) c) ++ s

def numeral (digits : List Char) : Nat := Nat.ofDigitChars 10 digits 0

/-- Reads digits, at least one, after an optional plus sign. Numbers from `bound` on are refused. -/
def readNumber? (bound : Nat) (s : String) : Option Nat :=
  let digits := match s.toList with
    | '+' :: cs => cs
    | cs => cs
  if !digits.isEmpty && digits.all Char.isDigit && numeral digits < bound then
    some (numeral digits)
  else
    none

end CoreWar.Text
