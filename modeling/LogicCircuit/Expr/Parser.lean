import LogicCircuit.Expr.Token

/-!
# Parsing

Operators bind in three strengths: OR and NOR least, then XOR, then AND and NAND; a negation binds
most. Operators of one strength group to the left. The parser reads tokens one by one. For each
parenthesis that is open it keeps a `Frame`: what stands to the left of the next operand at each
strength. So the state after any tokens says what may come next, and the first token without a
move is the one to blame.
-/

namespace LogicCircuit

/-- What waits for the next operand inside one parenthesis. -/
structure Frame where
  /-- The left side of a pending OR or NOR. -/
  orLeft : Option (Expr × BinaryOp)
  /-- The left side of a pending XOR. -/
  xorLeft : Option Expr
  /-- The left side of a pending AND or NAND. -/
  andLeft : Option (Expr × BinaryOp)
  /-- The number of pending negations. -/
  nots : Nat
  deriving DecidableEq, Repr

namespace Frame

/-- Nothing waits at the start and behind an opening parenthesis. -/
def fresh : Frame := ⟨none, none, none, 0⟩

/-- An expression negated so many times. -/
def negate : Nat → Expr → Expr
  | 0, e => e
  | n + 1, e => .not (negate n e)

/-- The right side of an operator joined to the left side that waits for it. -/
def join : Option (Expr × BinaryOp) → Expr → Expr
  | none, e => e
  | some (left, op), e => .binary op left e

/-- The operand that a primary expression completes, with its negations and a pending AND or NAND.
-/
def factor (f : Frame) (e : Expr) : Expr := join f.andLeft (negate f.nots e)

/-- The operand that a complete factor gives, with a pending XOR. -/
def summand (f : Frame) (e : Expr) : Expr := join (f.xorLeft.map (·, .xor)) e

/-- The whole expression that a complete factor gives, with a pending OR or NOR. -/
def whole (f : Frame) (e : Expr) : Expr := join f.orLeft (f.summand e)

/-- The frame after an operator that follows the complete factor `e`. -/
def push (f : Frame) (e : Expr) : BinaryOp → Frame
  | .and => { f with andLeft := some (e, .and), nots := 0 }
  | .nand => { f with andLeft := some (e, .nand), nots := 0 }
  | .xor => { f with xorLeft := some (f.summand e), andLeft := none, nots := 0 }
  | .or => ⟨some (f.whole e, .or), none, none, 0⟩
  | .nor => ⟨some (f.whole e, .nor), none, none, 0⟩

end Frame

/-- Why a text is not an expression. -/
inductive ParseError where
  /-- A character starts no token. -/
  | stray (s : Token.Stray)
  /-- A token stands where an operand is expected. -/
  | unexpectedToken (t : Token)
  /-- A parenthesis is still open where this token stands, or at the end. -/
  | missingParen (found : Option Token)
  /-- The text ends where an operand is expected. -/
  | unexpectedEnd
  /-- A token follows a complete expression. -/
  | trailingInput (t : Token)
  deriving DecidableEq, Repr

/-- The wording of a refusal to parse. -/
def ParseError.message : ParseError → String
  | stray s => s.message
  | unexpectedToken t => "Unexpected token: " ++ t.text
  | missingParen found =>
    "Expected ')' but found " ++ (found.map (·.text)).getD "end of expression"
  | unexpectedEnd => "Unexpected end of expression"
  | trailingInput t => "Unexpected token after expression: " ++ t.text

/-- Where the parser stands; `outer` holds the frames of the parentheses around, the innermost
first. -/
inductive ParseState where
  /-- An operand is expected. -/
  | expecting (frame : Frame) (outer : List Frame)
  /-- A factor is complete. -/
  | complete (frame : Frame) (e : Expr) (outer : List Frame)
  deriving DecidableEq, Repr

namespace ParseState

/-- Nothing has been read. -/
def start : ParseState := expecting .fresh []

/-- The state after one more token. -/
def step : ParseState → Token → Except ParseError ParseState
  | expecting f outer, .var name => .ok (complete f (f.factor (.var name)) outer)
  | expecting f outer, .const on => .ok (complete f (f.factor (.const on)) outer)
  | expecting f outer, .not => .ok (expecting { f with nots := f.nots + 1 } outer)
  | expecting f outer, .opening => .ok (expecting .fresh (f :: outer))
  -- no other token can start an operand
  | expecting _ _, t => .error (.unexpectedToken t)
  | complete f e outer, .operator op => .ok (expecting (f.push e op) outer)
  | complete f e (g :: outer), .closing => .ok (complete g (g.factor (f.whole e)) outer)
  -- behind a factor only an operator or the end of a parenthesis can follow
  | complete _ _ (_ :: _), t => .error (.missingParen (some t))
  | complete _ _ [], t => .error (.trailingInput t)

/-- The expression that has been read when the tokens end here. -/
def finish : ParseState → Except ParseError Expr
  | expecting _ _ => .error .unexpectedEnd
  | complete f e [] => .ok (f.whole e)
  | complete _ _ (_ :: _) => .error (.missingParen none)

/-- Reads all remaining tokens. -/
def run : ParseState → List Token → Except ParseError Expr
  | s, [] => s.finish
  | s, t :: ts =>
    match s.step t with
    | .error e => .error e
    | .ok s => s.run ts

end ParseState

namespace Expr

/-- The expression that tokens spell. -/
def ofTokens (ts : List Token) : Except ParseError Expr := ParseState.start.run ts

/-- The expression that a text spells. -/
def parse (s : String) : Except ParseError Expr :=
  match Token.ofText s with
  | .error stray => .error (.stray stray)
  | .ok ts => ofTokens (ts.map (·.token))

end Expr

end LogicCircuit
