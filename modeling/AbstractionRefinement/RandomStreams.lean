/-!
# Reproducible random streams

A random order of exploration relies on a source of indices that a seed determines
and that stays in range.  The source of the runs is an endless stream of words.  The
seed is expanded by a linear
congruential generator with permuted output into a key of eight words, and the
stream is the key stream of an eight-round ARX block function that is applied
to the key and a running counter.  Numbers below a limit are drawn without bias
by rejection.
-/

namespace AbstractionRefinement

/-- A source of random indices: its state for a seed, and the draw of an index below
a positive limit. -/
class IndexSource (γ : Type) where
  ofSeed : Nat → γ
  drawBelow : γ → Nat → Nat × γ
  drawBelow_lt (source : γ) {limit : Nat} : 0 < limit → (drawBelow source limit).1 < limit

/-- A position in the stream of a key. -/
structure RandomStream where
  key : List UInt32
  /-- Number of words drawn so far. -/
  position : Nat
deriving DecidableEq, Inhabited

namespace RandomStream

def rotateLeft (word : UInt32) (count : UInt32) : UInt32 :=
  (word <<< count) ||| (word >>> (32 - count))

/-- The word of a generator state: its high bits, mixed and rotated. -/
def permuteOutput (state : UInt64) : UInt32 :=
  let mixed := (((state >>> 18) ^^^ state) >>> 27).toUInt32
  let count := (state >>> 59).toUInt32
  (mixed >>> count) ||| (mixed <<< ((32 - count) &&& 31))

/-- The given number of words from a generator state on. -/
def expandSeed : Nat → UInt64 → List UInt32
  | 0, _ => []
  | count + 1, state =>
      let state := state * 6364136223846793005 + 11634580027462260723
      permuteOutput state :: expandSeed count state

/-- The stream of a seed. -/
def ofSeed (seed : UInt64) : RandomStream :=
  ⟨expandSeed 8 seed, 0⟩

/-- Mix four words of a block. -/
def quarterRound (block : Array UInt32) (a b c d : Nat) : Array UInt32 :=
  let x := block.getD a 0
  let y := block.getD b 0
  let z := block.getD c 0
  let w := block.getD d 0
  let x := x + y
  let w := rotateLeft (w ^^^ x) 16
  let z := z + w
  let y := rotateLeft (y ^^^ z) 12
  let x := x + y
  let w := rotateLeft (w ^^^ x) 8
  let z := z + w
  let y := rotateLeft (y ^^^ z) 7
  (((block.setIfInBounds a x).setIfInBounds b y).setIfInBounds c z).setIfInBounds d w

/-- Two rounds: the columns of the block, then its diagonals. -/
def doubleRound (block : Array UInt32) : Array UInt32 :=
  [(0, 4, 8, 12), (1, 5, 9, 13), (2, 6, 10, 14), (3, 7, 11, 15),
    (0, 5, 10, 15), (1, 6, 11, 12), (2, 7, 8, 13), (3, 4, 9, 14)].foldl
    (fun block (a, b, c, d) => quarterRound block a b c d)
    block

/-- The fixed words at the start of every block. -/
def blockConstants : List UInt32 :=
  [0x61707865, 0x3320646e, 0x79622d32, 0x6b206574]

/-- The words of the key stream at a counter. -/
def keyStreamBlock (key : List UInt32) (counter : UInt64) : Array UInt32 :=
  let start : Array UInt32 :=
    (blockConstants ++ key ++
      [counter.toUInt32, (counter >>> 32).toUInt32, 0, 0]).toArray
  let mixed := (List.range 4).foldl (fun block _ => doubleRound block) start
  (List.zipWith (· + ·) mixed.toList start.toList).toArray

/-- The word at a position of the stream. -/
def wordAt (stream : RandomStream) (position : Nat) : UInt32 :=
  (keyStreamBlock stream.key (.ofNat (position / 16))).getD (position % 16) 0

/-- Draw two words, the low one first. -/
def nextWord (stream : RandomStream) : UInt64 × RandomStream :=
  let low := (stream.wordAt stream.position).toUInt64
  let high := (stream.wordAt (stream.position + 1)).toUInt64
  (low ||| (high <<< 32), { stream with position := stream.position + 2 })

/-- Draw words until one is accepted, at most the given number of times. -/
def drawBelowWithin (limit accepted : Nat) : Nat → RandomStream → Nat × RandomStream
  | 0, stream => (0, stream)
  | attempts + 1, stream =>
      let (word, stream) := stream.nextWord
      let product := word.toNat * limit
      if product % Nat.pow 2 64 ≤ accepted then (product / Nat.pow 2 64, stream)
      else drawBelowWithin limit accepted attempts stream

/-- Draw a number below a positive limit.  A word is accepted with a probability
of at least one half. -/
def drawBelow (stream : RandomStream) (limit : Nat) : Nat × RandomStream :=
  let accepted := limit * Nat.pow 2 (63 - limit.log2) - 1
  drawBelowWithin limit accepted 256 stream

/-- A drawn number is below the limit, whatever the words of the stream are. -/
theorem drawBelowWithin_lt {limit : Nat} (positive : 0 < limit) (accepted attempts : Nat)
    (stream : RandomStream) : (drawBelowWithin limit accepted attempts stream).1 < limit := by
  induction attempts generalizing stream with
  | zero => exact positive
  | succ attempts ih =>
      rw [drawBelowWithin]
      dsimp only
      split
      · apply Nat.div_lt_of_lt_mul
        exact Nat.mul_lt_mul_of_pos_right stream.nextWord.1.toNat_lt positive
      · exact ih _

@[default_instance]
instance : IndexSource RandomStream where
  ofSeed seed := .ofSeed (.ofNat seed)
  drawBelow := drawBelow
  drawBelow_lt stream _ positive := drawBelowWithin_lt positive _ _ stream

end RandomStream

end AbstractionRefinement
