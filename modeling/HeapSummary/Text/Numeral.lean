/-!
# Decimal numerals of limited size

Numerals are read from left to right, and the first thing wrong decides the error. At each place the digit is looked at
before the size of the number.
-/

namespace HeapSummary.Text

inductive NumeralError where
  | empty
  | invalidDigit
  | tooLarge
  | tooSmall
  deriving DecidableEq

def NumeralError.message : NumeralError → String
  | empty => "cannot parse integer from empty string"
  | invalidDigit => "invalid digit found in string"
  | tooLarge => "number too large to fit in target type"
  | tooSmall => "number too small to fit in target type"

/-- The number that digits denote after those of `acc`, at most `limit`. -/
def readDigits (limit : Nat) (overflow : NumeralError) (acc : Nat) : List Char → Except NumeralError Nat
  | [] => .ok acc
  | c :: cs =>
    if c.isDigit then
      let n := 10 * acc + (c.toNat - '0'.toNat)
      if limit < n then .error overflow else readDigits limit overflow n cs
    else .error .invalidDigit

/-- The number that at least one digit denotes. -/
def readDigits1 (limit : Nat) (overflow : NumeralError) (cs : List Char) : Except NumeralError Nat :=
  if cs.isEmpty then .error .invalidDigit else readDigits limit overflow 0 cs

def maxUnsigned : Nat := 18446744073709551615

def maxSigned : Nat := 9223372036854775807

/-- A natural number of 64 bits, with a plus sign or without a sign. -/
def readUnsigned : List Char → Except NumeralError Nat
  | [] => .error .empty
  | '+' :: cs => readDigits1 maxUnsigned .tooLarge cs
  | cs => readDigits1 maxUnsigned .tooLarge cs

/-- An integer of 64 bits, with or without a sign. -/
def readSigned : List Char → Except NumeralError Int
  | [] => .error .empty
  | '+' :: cs => return Int.ofNat (← readDigits1 maxSigned .tooLarge cs)
  | '-' :: cs => return -Int.ofNat (← readDigits1 (maxSigned + 1) .tooSmall cs)
  | cs => return Int.ofNat (← readDigits1 maxSigned .tooLarge cs)

end HeapSummary.Text
