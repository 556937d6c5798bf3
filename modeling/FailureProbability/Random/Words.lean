/-!
# Random words

Two generators of 64-bit words, each a value that yields the next word and its successor: the ChaCha
block function with twelve rounds run as a counter, and xoshiro256++. Both are seeded from one
64-bit number.

Words and their arithmetic wrap as those of the machine do. A generator is a value, so that a stream
begins anew by being seeded anew and never by being set back. Nothing is stated of the words
themselves: not how long it takes until they repeat, and not how they are distributed.
-/

namespace FailureProbability.Random

/-! ## ChaCha -/

/-- One row of the four-by-four state of the block function. -/
structure Row where
  a : UInt32
  b : UInt32
  c : UInt32
  d : UInt32

namespace Row

def zip (f : UInt32 → UInt32 → UInt32) (x y : Row) : Row :=
  ⟨f x.a y.a, f x.b y.b, f x.c y.c, f x.d y.d⟩

def shift (x : Row) : Row := ⟨x.b, x.c, x.d, x.a⟩

def toList (x : Row) : List UInt32 := [x.a, x.b, x.c, x.d]

end Row

/-- A word turned to the left by `n` binary places, `0 < n < 32`. -/
def turnLeft (n : UInt32) (w : UInt32) : UInt32 := (w <<< n) ||| (w >>> (32 - n))

def xorTurn (n : UInt32) (x y : UInt32) : UInt32 := turnLeft n (x ^^^ y)

structure Square where
  r0 : Row
  r1 : Row
  r2 : Row
  r3 : Row

namespace Square

def columns (s : Square) : Square :=
  let a := s.r0.zip (· + ·) s.r1
  let d := s.r3.zip (xorTurn 16) a
  let c := s.r2.zip (· + ·) d
  let b := s.r1.zip (xorTurn 12) c
  let a := a.zip (· + ·) b
  let d := d.zip (xorTurn 8) a
  let c := c.zip (· + ·) d
  let b := b.zip (xorTurn 7) c
  ⟨a, b, c, d⟩

/-- A round on the columns and a round on the diagonals. -/
def doubleRound (s : Square) : Square :=
  let t := s.columns
  let u := columns ⟨t.r0, t.r1.shift, t.r2.shift.shift, t.r3.shift.shift.shift⟩
  ⟨u.r0, u.r1.shift.shift.shift, u.r2.shift.shift, u.r3.shift⟩

/-- The sixteen words of a block: the state after twelve rounds added to the state before. -/
def block (s : Square) : List UInt32 :=
  let t := s.doubleRound.doubleRound.doubleRound.doubleRound.doubleRound.doubleRound
  (t.r0.zip (· + ·) s.r0).toList ++ (t.r1.zip (· + ·) s.r1).toList ++
    (t.r2.zip (· + ·) s.r2).toList ++ (t.r3.zip (· + ·) s.r3).toList

end Square

/-- A key, the number of the next block and the words left of the current one. -/
structure Keystream where
  lower : Row
  upper : Row
  counter : UInt64
  left : List UInt32

namespace Keystream

def nextBlock (k : Keystream) : List UInt32 :=
  Square.block
    ⟨⟨0x61707865, 0x3320646e, 0x79622d32, 0x6b206574⟩, k.lower, k.upper,
      ⟨k.counter.toUInt32, (k.counter >>> 32).toUInt32, 0, 0⟩⟩

def join (low high : UInt32) : UInt64 := low.toUInt64 ||| (high.toUInt64 <<< 32)

def next (k : Keystream) : UInt64 × Keystream :=
  match k.left with
  | low :: high :: rest => (join low high, { k with left := rest })
  | _ =>
    match k.nextBlock with
    | low :: high :: rest =>
      (join low high, { k with counter := k.counter + 1, left := rest })
    | _ => (0, k)

/-- The state of the congruential sequence from which a key is taken, one step on. -/
def keyStep (state : UInt64) : UInt64 := state * 6364136223846793005 + 11634580027462260723

def keyWord (state : UInt64) : UInt32 :=
  let x := (((state >>> 18) ^^^ state) >>> 27).toUInt32
  let n := (state >>> 59).toUInt32
  (x >>> n) ||| (x <<< ((32 - n) % 32))

def seeded (seed : UInt64) : Keystream :=
  let s1 := keyStep seed
  let s2 := keyStep s1
  let s3 := keyStep s2
  let s4 := keyStep s3
  let s5 := keyStep s4
  let s6 := keyStep s5
  let s7 := keyStep s6
  let s8 := keyStep s7
  ⟨⟨keyWord s1, keyWord s2, keyWord s3, keyWord s4⟩,
    ⟨keyWord s5, keyWord s6, keyWord s7, keyWord s8⟩, 0, []⟩

end Keystream

/-! ## Xoshiro -/

structure Xoshiro where
  s0 : UInt64
  s1 : UInt64
  s2 : UInt64
  s3 : UInt64

namespace Xoshiro

/-- A word turned to the left by `n` binary places, `0 < n < 64`. -/
def turnLeft (n w : UInt64) : UInt64 := (w <<< n) ||| (w >>> (64 - n))

def next (g : Xoshiro) : UInt64 × Xoshiro :=
  let s2 := g.s2 ^^^ g.s0
  let s3 := g.s3 ^^^ g.s1
  (turnLeft 23 (g.s0 + g.s3) + g.s0,
    ⟨g.s0 ^^^ s3, g.s1 ^^^ s2, s2 ^^^ (g.s1 <<< 17), turnLeft 45 s3⟩)

/-- The increment of the sequence from which the words of a seed are mixed. -/
def mixStep : UInt64 := 0x9e3779b97f4a7c15

def mix (state : UInt64) : UInt64 :=
  let z := (state ^^^ (state >>> 30)) * 0xbf58476d1ce4e5b9
  let z := (z ^^^ (z >>> 27)) * 0x94d049bb133111eb
  z ^^^ (z >>> 31)

def seeded (seed : UInt64) : Xoshiro :=
  ⟨mix (seed + mixStep), mix (seed + 2 * mixStep), mix (seed + 3 * mixStep),
    mix (seed + 4 * mixStep)⟩

end Xoshiro

/-! ## Either of them -/

inductive Generator where
  | chacha
  | xoshiro
  deriving Repr, BEq, DecidableEq

inductive Words where
  | chacha (state : Keystream)
  | xoshiro (state : Xoshiro)

namespace Words

def seeded (generator : Generator) (seed : UInt64) : Words :=
  match generator with
  | .chacha => .chacha (Keystream.seeded seed)
  | .xoshiro => .xoshiro (Xoshiro.seeded seed)

def next : Words → UInt64 × Words
  | .chacha k => let (w, k) := k.next; (w, .chacha k)
  | .xoshiro g => let (w, g) := g.next; (w, .xoshiro g)

end Words

end FailureProbability.Random
