/-!
# The 64-bit Mersenne twister

A pseudo-random sequence of words: 312 seed words, then a linear recurrence over them. The words
that are handed out are the words of the recurrence, tempered.
-/

namespace CircuitLayout.Twister

/-- The distance over which the recurrence reaches back. -/
def degree : Nat := 312

/-- The next seed word after the one at a place, as the seeding fills its first `degree` places. -/
def nextSeed (place : Nat) (word : UInt64) : UInt64 :=
  let mixed : UInt64 := word ^^^ (word >>> 62)
  (6364136223846793005 : UInt64) * mixed + UInt64.ofNat (place + 1)

/-- Appends seed words until the wanted number is added. -/
def fillSeed : Nat → UInt64 → Array UInt64 → Array UInt64
  | 0, _, words => words
  | fuel + 1, word, words =>
    let next := nextSeed (words.size - 1) word
    fillSeed fuel next (words.push next)

/-- The seed words that grow from one word. -/
def seedWords (seed : UInt64) : Array UInt64 := fillSeed (degree - 1) seed #[seed]

/-- The word that the recurrence puts at `degree` places behind a given one. -/
def recur (words : Array UInt64) (place : Nat) : UInt64 :=
  let high := words.getD place 0 &&& 0xFFFFFFFF80000000
  let low := words.getD (place + 1) 0 &&& 0x7FFFFFFF
  let joined := high ||| low
  let twisted := (joined >>> 1) ^^^ (if joined &&& 1 = 1 then 0xB5026F5AA96619E9 else 0)
  words.getD (place + 156) 0 ^^^ twisted

/-- Appends words of the recurrence. -/
def extend : Nat → Array UInt64 → Array UInt64
  | 0, words => words
  | fuel + 1, words => extend fuel (words.push (recur words (words.size - degree)))

/-- Mixes the bits of a word before it is handed out. -/
def temper (word : UInt64) : UInt64 :=
  let word := word ^^^ ((word >>> 29) &&& 0x5555555555555555)
  let word := word ^^^ ((word <<< 17) &&& 0x71D67FFFEDA60000)
  let word := word ^^^ ((word <<< 37) &&& 0xFFF7EEE000000000)
  word ^^^ (word >>> 43)

/-- The first words of the sequence that grows from a seed. -/
def draw (seed : UInt64) (count : Nat) : List UInt64 :=
  ((extend count (seedWords seed)).toList.drop degree).map temper

end CircuitLayout.Twister
