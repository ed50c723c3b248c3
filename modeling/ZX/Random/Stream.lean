/-!
# A stream of random words

The ChaCha cipher with twelve rounds as a generator. The key is eight words that a permuted
congruential generator draws from a 64-bit seed; the block counter starts at zero and the nonce is
zero. The words of a block are handed out in order.
-/
namespace ZX.Random

-- Powers of numbers are those of the core library.
attribute [local instance(high)] instPowNat

abbrev Block := Vector UInt32 16

def rotateLeft (x : UInt32) (n : UInt32) : UInt32 := (x <<< n) ||| (x >>> (32 - n))

def quarterRound (a b c d : Fin 16) (s : Block) : Block :=
  let s := s.set a (s[a] + s[b])
  let s := s.set d (rotateLeft (s[d] ^^^ s[a]) 16)
  let s := s.set c (s[c] + s[d])
  let s := s.set b (rotateLeft (s[b] ^^^ s[c]) 12)
  let s := s.set a (s[a] + s[b])
  let s := s.set d (rotateLeft (s[d] ^^^ s[a]) 8)
  let s := s.set c (s[c] + s[d])
  s.set b (rotateLeft (s[b] ^^^ s[c]) 7)

/-- A round on the columns and a round on the diagonals. -/
def doubleRound (s : Block) : Block :=
  let s := quarterRound 0 4 8 12 s
  let s := quarterRound 1 5 9 13 s
  let s := quarterRound 2 6 10 14 s
  let s := quarterRound 3 7 11 15 s
  let s := quarterRound 0 5 10 15 s
  let s := quarterRound 1 6 11 12 s
  let s := quarterRound 2 7 8 13 s
  quarterRound 3 4 9 14 s

structure Stream where
  key : Vector UInt32 8
  counter : UInt64
  /-- Words of the current block that are still to come. -/
  pending : List UInt32

namespace Stream

def initialBlock (key : Vector UInt32 8) (counter : UInt64) : Block :=
  let constants : Vector UInt32 4 := #v[0x61707865, 0x3320646e, 0x79622d32, 0x6b206574]
  let position : Vector UInt32 4 := #v[counter.toUInt32, (counter >>> 32).toUInt32, 0, 0]
  constants ++ key ++ position

/-- Twelve rounds, and the initial block added to the result. -/
def block (key : Vector UInt32 8) (counter : UInt64) : Block :=
  let start := initialBlock key counter
  let mixed := (List.range 6).foldl (fun s _ => doubleRound s) start
  mixed.zipWith (· + ·) start

def seedStep (state : UInt64) : UInt64 := state * 6364136223846793005 + 11634580027462260723

/-- The output permutation: a shift that depends on the state, then a rotation that does. -/
def seedWord (state : UInt64) : UInt32 :=
  let x := (((state >>> 18) ^^^ state) >>> 27).toUInt32
  let n := (state >>> 59).toUInt32
  (x >>> n) ||| (x <<< ((32 - n) % 32))

def seedWords : Nat → UInt64 → List UInt32
  | 0, _ => []
  | n + 1, state => seedWord (seedStep state) :: seedWords n (seedStep state)

def ofSeed (seed : UInt64) : Stream :=
  let words := seedWords 8 seed
  ⟨Vector.ofFn fun i => words.getD i 0, 0, []⟩

def next (s : Stream) : UInt32 × Stream :=
  match s.pending with
  | w :: rest => (w, { s with pending := rest })
  | [] =>
      let words := (block s.key s.counter).toList
      (words.headD 0, { s with counter := s.counter + 1, pending := words.tail })

/-- Two words, the low one first. -/
def nextWide (s : Stream) : UInt64 × Stream :=
  let (low, s) := s.next
  let (high, s) := s.next
  (low.toUInt64 ||| (high.toUInt64 <<< 32), s)

/-- A fraction in `[0, 1)` from the upper 24 bits of a word. -/
def nextFraction (s : Stream) : Float32 × Stream :=
  let (w, s) := s.next
  ((w >>> 8).toFloat32 / 16777216, s)

/-- A number below `range` from words below `size`. The product of a word and the range is cut at
the size; when the lower part may hide a carry, a second word decides it. -/
def nextBelow (size range : Nat) (draw : Stream → Nat × Stream) (s : Stream) : Nat × Stream :=
  let (w, s) := draw s
  let product := w * range
  let result := product / size
  let low := product % size
  if low > size - range then
    let (w, s) := draw s
    let carry := if low + w * range / size ≥ size then 1 else 0
    (result + carry, s)
  else
    (result, s)

def nextNarrowBelow (range : Nat) (s : Stream) : Nat × Stream :=
  nextBelow 4294967296 range (fun s => let (w, s) := s.next; (w.toNat, s)) s

def nextWideBelow (range : Nat) (s : Stream) : Nat × Stream :=
  nextBelow 18446744073709551616 range (fun s => let (w, s) := s.nextWide; (w.toNat, s)) s

/-- A number below a bound, from one word if the bound fits into it. -/
def nextIndex (bound : Nat) (s : Stream) : Nat × Stream :=
  if bound < 2 ^ (32 : Nat) then s.nextNarrowBelow bound else s.nextWideBelow bound

end Stream

end ZX.Random
