import CoreWar.Random.Draws

namespace CoreWar.ChaCha

structure Row where
  w0 : UInt32
  w1 : UInt32
  w2 : UInt32
  w3 : UInt32

namespace Row

def zip (f : UInt32 → UInt32 → UInt32) (x y : Row) : Row :=
  ⟨f x.w0 y.w0, f x.w1 y.w1, f x.w2 y.w2, f x.w3 y.w3⟩

def rotateBits (n : UInt32) (x : Row) : Row :=
  let rotate (w : UInt32) := (w <<< n) ||| (w >>> (32 - n))
  ⟨rotate x.w0, rotate x.w1, rotate x.w2, rotate x.w3⟩

def shift (x : Row) : Row := ⟨x.w1, x.w2, x.w3, x.w0⟩

end Row

structure State where
  a : Row
  b : Row
  c : Row
  d : Row

namespace State

def columnRound (s : State) : State :=
  let a := s.a.zip (· + ·) s.b
  let d := (s.d.zip (· ^^^ ·) a).rotateBits 16
  let c := s.c.zip (· + ·) d
  let b := (s.b.zip (· ^^^ ·) c).rotateBits 12
  let a := a.zip (· + ·) b
  let d := (d.zip (· ^^^ ·) a).rotateBits 8
  let c := c.zip (· + ·) d
  let b := (b.zip (· ^^^ ·) c).rotateBits 7
  ⟨a, b, c, d⟩

/-- Brings the diagonals into the columns. -/
def slant (s : State) : State := ⟨s.a, s.b.shift, s.c.shift.shift, s.d.shift.shift.shift⟩

def unslant (s : State) : State := ⟨s.a, s.b.shift.shift.shift, s.c.shift.shift, s.d.shift⟩

def doubleRound (s : State) : State := s.columnRound.slant.columnRound.unslant

def add (s t : State) : State :=
  ⟨s.a.zip (· + ·) t.a, s.b.zip (· + ·) t.b, s.c.zip (· + ·) t.c, s.d.zip (· + ·) t.d⟩

def rows (s : State) : List Row := [s.a, s.b, s.c, s.d]

end State

structure Key where
  upper : Row
  lower : Row

def constants : Row := ⟨0x61707865, 0x3320646e, 0x79622d32, 0x6b206574⟩

/-- Eight rounds, and the input added to their result. -/
def block (key : Key) (counter : UInt64) : State :=
  let input : State :=
    ⟨constants, key.upper, key.lower, ⟨counter.toUInt32, (counter >>> 32).toUInt32, 0, 0⟩⟩
  (input.doubleRound.doubleRound.doubleRound.doubleRound).add input

/-- The eight draws that a block holds; the first of two words is the lower half. -/
def blockDraws (state : State) : List UInt64 :=
  let join (low high : UInt32) := low.toUInt64 ||| (high.toUInt64 <<< 32)
  state.rows.flatMap fun row => [join row.w0 row.w1, join row.w2 row.w3]

def seedStep (state : UInt64) : UInt64 := state * 6364136223846793005 + 11634580027462260723

def seedWord (state : UInt64) : UInt32 :=
  let x := (((state >>> 18) ^^^ state) >>> 27).toUInt32
  let n := (state >>> 59).toUInt32
  (x >>> n) ||| (x <<< (32 - n))

def seedRow (state : UInt64) : Row × UInt64 :=
  let s0 := seedStep state
  let s1 := seedStep s0
  let s2 := seedStep s1
  let s3 := seedStep s2
  (⟨seedWord s0, seedWord s1, seedWord s2, seedWord s3⟩, s3)

def Key.ofSeed (seed : UInt64) : Key :=
  let (upper, state) := seedRow seed
  ⟨upper, (seedRow state).1⟩

def draws (seed : UInt64) : Draws :=
  let key := Key.ofSeed seed
  fun position => (blockDraws (block key (position / 8).toUInt64)).getD (position % 8) 0

end CoreWar.ChaCha
