/-!
# Numerals and number literals

A numeral is an optional sign and at least one digit of its radix, and its value lies within
given bounds. `Numeral.read` goes from left to right, so the leftmost fault decides: a character
that is no digit, or a digit that takes the value out of bounds.

A literal is a decimal numeral, or `0x`, `0o` or `0b` followed by a numeral of that base; its
value is a 64-bit word. An unsigned literal of two or more characters that starts with `0` needs
one of the three base marks.
-/

namespace Ram.Numeral

inductive Fault where
  | empty
  | invalidDigit
  | tooLarge
  | tooSmall
  deriving DecidableEq, Repr

def Fault.message : Fault → String
  | .empty => "cannot parse integer from empty string"
  | .invalidDigit => "invalid digit found in string"
  | .tooLarge => "number too large to fit in target type"
  | .tooSmall => "number too small to fit in target type"

/-- The least and the greatest value a numeral may have; both enclose 0. -/
structure Bounds where
  lo : Int
  hi : Int
  deriving DecidableEq, Repr

/-- 64-bit two's complement. -/
def Bounds.signed64 : Bounds := ⟨-0x8000000000000000, 0x7FFFFFFFFFFFFFFF⟩

def Bounds.unsigned64 : Bounds := ⟨0, 0xFFFFFFFFFFFFFFFF⟩

/-- The value of a digit in the radix; letters count from ten in either case. -/
def digit? (radix : Nat) (c : Char) : Option Nat :=
  let n := c.toNat
  let value :=
    if 48 ≤ n ∧ n ≤ 57 then some (n - 48)
    else if 97 ≤ n ∧ n ≤ 122 then some (n - 87)
    else if 65 ≤ n ∧ n ≤ 90 then some (n - 55)
    else none
  value.filter fun d => d < radix

/-- Appends digits to a value; `sign` is 1 or -1 and weighs every digit. -/
def extend (b : Bounds) (radix : Nat) (sign : Int) : Int → List Char → Except Fault Int
  | value, [] => .ok value
  | value, c :: cs =>
    match digit? radix c with
    | none => .error .invalidDigit
    | some d =>
      let next := value * radix + sign * d
      if next < b.lo then .error .tooSmall
      else if b.hi < next then .error .tooLarge
      else extend b radix sign next cs

/-- The digits behind a sign. -/
def readSigned (b : Bounds) (radix : Nat) (sign : Int) : List Char → Except Fault Int
  | [] => .error .invalidDigit
  | cs => extend b radix sign 0 cs

/-- Reads a whole numeral. A minus is a sign only where the bounds admit negative values. -/
def read (b : Bounds) (radix : Nat) : List Char → Except Fault Int
  | [] => .error .empty
  | c :: cs =>
    if c = '+' then readSigned b radix 1 cs
    else if c = '-' ∧ b.lo < 0 then readSigned b radix (-1) cs
    else extend b radix 1 0 (c :: cs)

end Ram.Numeral

namespace Ram.Literal

inductive Error where
  /-- A leading `0` and a second character that marks no base. -/
  | unknownBase (lead : String)
  | malformed (radix : Nat) (fault : Numeral.Fault)
  deriving DecidableEq, Repr

def Error.message : Error → String
  | .unknownBase lead => "invalid number literal prefix `" ++ lead ++ "`"
  | .malformed radix fault =>
    "invalid base-" ++ toString radix ++ " number literal: " ++ fault.message

/-- Takes off the base mark: the radix and the numeral that is left. -/
def splitBase : List Char → Except Error (Nat × List Char)
  | '0' :: 'x' :: cs => .ok (16, cs)
  | '0' :: 'o' :: cs => .ok (8, cs)
  | '0' :: 'b' :: cs => .ok (2, cs)
  | '0' :: c :: _ => .error (.unknownBase (String.ofList ['0', c]))
  | cs => .ok (10, cs)

def parse (cs : List Char) : Except Error Int64 := do
  let (radix, digits) ← splitBase cs
  match Numeral.read .signed64 radix digits with
  | .ok value => .ok (Int64.ofInt value)
  | .error fault => .error (.malformed radix fault)

end Ram.Literal
