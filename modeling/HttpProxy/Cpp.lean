import HttpProxy.Library.Search
import Mathlib.Algebra.Group.Nat.Defs
import Mathlib.Data.Rat.Defs

/-! What the program uses of the C++ standard library: byte strings, the character functions of the C locale,
    the extraction of words from a stream, and `std::stoul` and `std::stod`.

    A `std::string` is a list of bytes. A position found in a string is a number, `none` where the library
    returns `std::string::npos`. -/

namespace HttpProxy

abbrev Byte := UInt8
abbrev Bytes := List Byte

/-- The bytes of a string literal. -/
def ascii (s : String) : Bytes := s.toList.map fun c => c.toNat.toUInt8

def crlf : Bytes := ascii "\r\n"

/-- The error codes of Boost.System that an operation of the session can end with. -/
inductive ErrorCode where
  | operationAborted
  | eof
  | connectionReset
  | brokenPipe
  | notFound
  | notConnected
  | other (value : Nat)
  deriving DecidableEq, Repr

inductive Exception where
  | invalidArgument
  | outOfRange
  | systemError (ec : ErrorCode)
  deriving DecidableEq, Repr

/-- How a computation fails to give a value: an exception, or a call that the standard leaves undefined. -/
inductive Fault where
  | thrown (e : Exception)
  | undefined
  deriving DecidableEq, Repr

/-! ## Characters and strings -/

/-- `std::tolower` in the C locale. -/
def tolower (c : Byte) : Byte := if 65 ≤ c ∧ c ≤ 90 then c + 32 else c

/-- `std::isspace` in the C locale. -/
def isspace (c : Byte) : Bool := c = 32 || (9 ≤ c && c ≤ 13)

def isdigit (c : Byte) : Bool := 48 ≤ c && c ≤ 57

def isxdigit (c : Byte) : Bool := isdigit c || (97 ≤ tolower c && tolower c ≤ 102)

/-- The modulus of `size_t` and of `unsigned long`. -/
def sizeMod : Nat := 2 ^ 64

/-- Subtraction of `size_t` values. -/
def subSize (a b : Nat) : Nat := (a + (sizeMod - b % sizeMod)) % sizeMod

/-- `s.substr(pos, n)`; `n` is `none` for everything after `pos`. -/
def substr (s : Bytes) (pos : Nat) (n : Option Nat) : Except Fault Bytes :=
  if pos ≤ s.length then .ok (match n with | some n => (s.drop pos).take n | none => s.drop pos)
  else .error (.thrown .outOfRange)

/-- `s.find_first_not_of(c)` for a one-character string. -/
def findFirstNotOf (s : Bytes) (c : Byte) : Option Nat := s.findIdx? (· ≠ c)

/-- One extraction `iss >> word`: the word and what the stream still holds. -/
def getWord (s : Bytes) : Bytes × Bytes :=
  let s := s.dropWhile isspace
  (s.takeWhile (!isspace ·), s.dropWhile (!isspace ·))

/-! ## Numbers -/

def digitValue (c : Byte) : Nat :=
  if isdigit c then c.toNat - 48 else (tolower c).toNat - 87

/-- The number that a string of digits denotes. -/
def natOfDigits (base : Nat) (ds : Bytes) : Nat := ds.foldl (fun n c => n * base + digitValue c) 0

/-- An optional sign, true for a minus, and what follows it. -/
def takeSign : Bytes → Bool × Bytes
  | 43 :: s => (false, s)
  | 45 :: s => (true, s)
  | s => (false, s)

/-- `std::stoul` in base ten: leading blanks and a sign are taken, what follows the digits is ignored, and a
    minus negates modulo the word size. -/
def stoul (s : Bytes) : Except Fault Nat :=
  let (negative, s) := takeSign (s.dropWhile isspace)
  let digits := s.takeWhile isdigit
  if digits = [] then .error (.thrown .invalidArgument)
  else
    let n := natOfDigits 10 digits
    if sizeMod ≤ n then .error (.thrown .outOfRange)
    else .ok (if negative then subSize 0 n else n)

/-- A value of type `double`; a finite one is the rational it stands for. -/
inductive Double where
  | nan
  | infinity (negative : Bool)
  | finite (q : ℚ)
  deriving DecidableEq

/-- The comparison `>` of doubles. -/
def Double.gt : Double → Double → Bool
  | .nan, _ => false
  | _, .nan => false
  | .infinity a, .infinity b => !a && b
  | .infinity a, .finite _ => !a
  | .finite _, .infinity b => b
  | .finite p, .finite q => q < p

/-- `n / d` to the nearest whole number, a tie to the even one. -/
def roundDiv (n d : Nat) : Nat :=
  if 2 * (n % d) < d ∨ 2 * (n % d) = d ∧ n / d % 2 = 0 then n / d else n / d + 1

/-- The double nearest to `n / d`, a mantissa of 53 bits with its binary exponent. A value too large for a double is
    out of range (`ERANGE`), and so is one that rounds to less than the smallest normal double, unless it is a multiple
    of the smallest double and thus stored exactly. -/
def roundDouble (n d : Nat) : Except Fault ℚ :=
  if n = 0 then .ok 0
  else
    let guess : Int := (Nat.log2 n : Int) - Nat.log2 d
    -- The exponent of the leading bit is `guess`, or one less.
    let e := if n * 2 ^ (-guess).toNat < d * 2 ^ guess.toNat then guess - 1 else guess
    let p := e - 52
    let m := roundDiv (n * 2 ^ (-p).toNat) (d * 2 ^ p.toNat)
    -- Rounding may carry into the next exponent, also from below the normal doubles.
    let top := if m = 2 ^ 53 then e + 1 else e
    if 1023 < top then .error (.thrown .outOfRange)
    else if -1022 ≤ top then .ok (mkRat (m * 2 ^ p.toNat : Nat) (2 ^ (-p).toNat))
    else if n * 2 ^ 1074 % d = 0 then .ok (mkRat n d)
    else .error (.thrown .outOfRange)

/-- The exponent after a mantissa, zero where there is none. -/
def takeExponent (mark : Byte) : Bytes → Int
  | c :: s =>
    let (negative, s) := takeSign s
    let digits := s.takeWhile isdigit
    if tolower c = mark ∧ digits ≠ [] then
      if negative then -(natOfDigits 10 digits : Int) else natOfDigits 10 digits
    else 0
  | [] => 0

/-- The digits before and after the point, and what follows them. -/
def takeMantissa (digit : Byte → Bool) (s : Bytes) : Bytes × Bytes × Bytes :=
  match s.dropWhile digit with
  | 46 :: rest => (s.takeWhile digit, rest.takeWhile digit, rest.dropWhile digit)
  | rest => (s.takeWhile digit, [], rest)

/-- `std::stod`: the longest prefix that `strtod` reads, after leading blanks. -/
def stod (s : Bytes) : Except Fault Double := do
  let (negative, s) := takeSign (s.dropWhile isspace)
  let signed (q : ℚ) : Double := .finite (if negative then -q else q)
  if ascii "inf" <+: s.map tolower then return .infinity negative
  if ascii "nan" <+: s.map tolower then return .nan
  let (hexInt, hexFrac, hexRest) := takeMantissa isxdigit (s.drop 2)
  if ascii "0x" <+: s.map tolower ∧ hexInt ++ hexFrac ≠ [] then
    let e := takeExponent 112 hexRest - 4 * hexFrac.length
    return signed (← roundDouble (natOfDigits 16 (hexInt ++ hexFrac) * 2 ^ e.toNat) (2 ^ (-e).toNat))
  let (int, frac, rest) := takeMantissa isdigit s
  if int ++ frac = [] then throw (.thrown .invalidArgument)
  let e := takeExponent 101 rest - frac.length
  return signed (← roundDouble (natOfDigits 10 (int ++ frac) * 10 ^ e.toNat) (10 ^ (-e).toNat))

example : stod (ascii "0x1p-1030") = .ok (.finite (mkRat 1 (2 ^ 1030))) := by decide +kernel
example : stod (ascii "1e-310") = .error (.thrown .outOfRange) := by decide +kernel

/-- The literal `1.1` of the source. -/
def onePointOne : Double := .finite (mkRat 2476979795053773 2251799813685248)

end HttpProxy
