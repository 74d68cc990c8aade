import LogicCircuit.Expr.Generator

/-!
# Random choices from words

A `Generator` whose choices are read off a stream of 64-bit words, and a stream that a seed
starts. A draw of a number may turn words down. It is given so many words that it may take, and
finds no number if all of them are turned down. None of this decides which expressions there are:
it is one way to answer the choices.
-/

namespace LogicCircuit

namespace RandomExpr

section Words

variable {σ : Type} (draw : σ → UInt64 × σ)

/-- The words below this bound make up one part in `d` of all words. -/
def oneIn (d : Nat) : UInt64 := (1 / Float.ofNat d * 18446744073709551616).toUInt64

/-- A draw that is true once in `d` times. -/
def chance (d : Nat) (s : σ) : Bool × σ :=
  let (word, s) := draw s
  (word < oneIn d, s)

/-- A draw of a bit: the highest of a word. -/
def bit (s : σ) : Bool × σ :=
  let (word, s) := draw s
  (word ≥ 0x8000000000000000, s)

/-- The high word of a product is below the other factor. -/
theorem high_lt (word : UInt64) {n : Nat} (hn : 0 < n) : (word.toNat * n) >>> 64 < n := by
  have hproduct : word.toNat * n < 2 ^ 64 * n := Nat.mul_lt_mul_of_pos_right word.toNat_lt hn
  rw [Nat.shiftRight_eq_div_pow]
  exact Nat.div_lt_of_lt_mul hproduct

/-- A draw of a number below `n` from so many words at most: the high word of a product with `n`,
unless the low word is in the part of its range that would favour some numbers. -/
def below {n : Nat} (hn : 0 < n) : (tries : Nat) → σ → Option (Fin n × σ)
  | 0, _ => none
  | tries + 1, s =>
    let (word, s) := draw s
    let product := word.toNat * n
    -- the greatest multiple of n by a power of two that 64 bits hold, less one
    let zone := (n <<< (63 - n.log2)) - 1
    if product % (1 <<< 64) ≤ zone then some (⟨product >>> 64, high_lt word hn⟩, s)
    else below hn tries s

/-- The generator that reads its choices off words. No number is below zero. -/
def generator (tries : Nat) : Generator σ where
  chance := chance draw
  bit := bit draw
  below n s := if hn : 0 < n then below draw hn tries s else none

end Words

/-- The state of a stream of words: four words. -/
structure Stream where
  s0 : UInt64
  s1 : UInt64
  s2 : UInt64
  s3 : UInt64
  deriving DecidableEq, Repr

/-- A word with its bits moved up by `k` places and around. -/
def rotate (word : UInt64) (k : UInt64) : UInt64 := word <<< k ||| word >>> (64 - k)

/-- The next word of a stream. -/
def Stream.next (s : Stream) : UInt64 × Stream :=
  let word := rotate (s.s0 + s.s3) 23 + s.s0
  let a := s.s2 ^^^ s.s0
  let b := s.s3 ^^^ s.s1
  (word, ⟨s.s0 ^^^ b, s.s1 ^^^ a, a ^^^ (s.s1 <<< 17), rotate b 45⟩)

/-- The next state of the counter that spreads a seed. -/
def spread (s : UInt64) : UInt64 := s * 6364136223846793005 + 11634580027462260723

/-- The 32 bits that a state of the counter gives. -/
def mixed (s : UInt64) : UInt64 :=
  let x := (((s >>> 18) ^^^ s) >>> 27) &&& 0xFFFFFFFF
  let k := s >>> 59
  ((x >>> k) ||| (x <<< (32 - k))) &&& 0xFFFFFFFF

/-- The 64 bits that two states of the counter give, and the second state. -/
def seedWord (s : UInt64) : UInt64 × UInt64 :=
  let low := spread s
  let high := spread low
  (mixed low ||| (mixed high <<< 32), high)

/-- The stream that a seed starts. -/
def Stream.ofSeed (seed : UInt64) : Stream :=
  let (s0, seed) := seedWord seed
  let (s1, seed) := seedWord seed
  let (s2, seed) := seedWord seed
  let (s3, _) := seedWord seed
  ⟨s0, s1, s2, s3⟩

/-- The number of words that may be drawn for a number; fewer than half of all words are turned
down. -/
def patience : Nat := 1000

end RandomExpr

/-- The expression that a seed gives, over at most so many variables and of at most some depth.
There is none without variables. -/
def randomExpr? (breadth depth : Nat) (seed : UInt64) : Option Expr :=
  (RandomExpr.generator RandomExpr.Stream.next RandomExpr.patience).expr? breadth depth
    (.ofSeed seed)

end LogicCircuit
