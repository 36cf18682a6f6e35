namespace CoreWar

abbrev Draws := Nat → UInt64

namespace Draws

def maxWord : Nat := UInt64.size - 1

/-- Words below this divide evenly among `range` numbers. -/
def acceptLimit (range : Nat) : Nat := maxWord - maxWord % range

/-- The first word below `limit` from `position` on, and the position after it. The search goes on
for as long as it takes; it has no result if there is no such word. -/
def firstBelow (draws : Draws) (limit position : Nat) : Option (Nat × Nat) :=
  if (draws position).toNat < limit then
    some ((draws position).toNat, position + 1)
  else
    draws |>.firstBelow limit (position + 1)
partial_fixpoint

/-- A number from 0 to `bound`, each as likely as any other, and the position after the words that
were used up. -/
def uniform (draws : Draws) (bound position : Nat) : Option (Nat × Nat) :=
  if bound = maxWord then
    some ((draws position).toNat, position + 1)
  else
    (draws.firstBelow (acceptLimit (bound + 1)) position).map fun (word, position) =>
      (word % (bound + 1), position)

end Draws

end CoreWar
