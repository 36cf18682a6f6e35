namespace CoreWar.Text

def lowerCase (s : String) : List Char := s.toList.map Char.toLower

def sameName (s t : String) : Bool := lowerCase s == lowerCase t

end CoreWar.Text
