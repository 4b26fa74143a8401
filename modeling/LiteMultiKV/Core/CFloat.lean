import LiteMultiKV.Core.CText

/-!
# Single precision numbers and their texts

The parts of the program that compute with `float` values are stated over any
type with the operations below, so that what is proved about them does not
depend on how the arithmetic rounds.  `Float32`, with the conversions `printf`
and `atof` make, is the type the compiled server uses; the rationals are there
for laws of exact arithmetic.
-/

namespace LiteMultiKV.Numeric

open CText

/-- What the source does with a `float`: arithmetic, conversion from integers,
comparison, `sqrtf`, `printf` with `%.*f`, and `(float)atof`. -/
class CFloat (F : Type) extends Add F, Sub F, Mul F, Div F, NatCast F, OfScientific F where
  lt : F → F → Bool
  sqrt : F → F
  format : ℕ → F → CStr
  atof : CStr → F

/-! ## Printing -/

/-- The nearest integer to `numerator / denominator`, ties to even. -/
def roundHalfEven (numerator denominator : ℕ) : ℕ :=
  let quotient := numerator / denominator
  let twice := 2 * (numerator % denominator)
  if denominator < twice ∨ denominator = twice ∧ quotient % 2 = 1 then quotient + 1
  else quotient

/-- `mantissa * 2 ^ exponent * 10 ^ digits`, rounded. -/
def scaled (mantissa : ℕ) (exponent : ℤ) (digits : ℕ) : ℕ :=
  if 0 ≤ exponent then mantissa * 10 ^ digits * 2 ^ exponent.toNat
  else roundHalfEven (mantissa * 10 ^ digits) (2 ^ (-exponent).toNat)

/-- A number of `digits` decimal places, given in units of the last place. -/
def fixedPoint (digits value : ℕ) : List Byte :=
  let whole := decimal (value / 10 ^ digits)
  let places := decimal (value % 10 ^ digits)
  if digits = 0 then whole
  else whole ++ ascii "." ++ List.replicate (digits - places.length) 48 ++ places

/-- `%.*f` of the binary32 number with the given bits. -/
def formatBits (digits : ℕ) (bits : ℕ) : CStr :=
  let sign := if 2 ^ 31 ≤ bits then ascii "-" else []
  let exponent : ℕ := bits / 2 ^ 23 % 2 ^ 8
  let fraction := bits % 2 ^ 23
  let text :=
    if exponent = 255 then
      if fraction = 0 then ascii "inf" else ascii "nan"
    else if exponent = 0 then fixedPoint digits (scaled fraction (-149) digits)
    else fixedPoint digits (scaled (2 ^ 23 + fraction) ((exponent : ℤ) - 150) digits)
  CStr.read (sign ++ text)

/-! ## Reading -/

def isSpace (byte : Byte) : Bool :=
  byte = 32 ∨ (9 ≤ byte ∧ byte ≤ 13)

def isDigit (byte : Byte) : Bool :=
  48 ≤ byte ∧ byte ≤ 57

def hexValue (byte : Byte) : Option ℕ :=
  if 48 ≤ byte ∧ byte ≤ 57 then some (byte.toNat - 48)
  else if 97 ≤ byte ∧ byte ≤ 102 then some (byte.toNat - 87)
  else if 65 ≤ byte ∧ byte ≤ 70 then some (byte.toNat - 55)
  else none

/-- The value of a run of digits in the given base. -/
def digitsValue (base : ℕ) (digits : List Byte) : ℕ :=
  digits.foldl (fun value byte => value * base + (hexValue byte).getD 0) 0

/-- A sign and what follows it. -/
def splitSign : List Byte → Bool × List Byte
  | 45 :: bytes => (true, bytes)
  | 43 :: bytes => (false, bytes)
  | bytes => (false, bytes)

/-- The exponent part introduced by one of two marker bytes, zero without it. -/
def exponentPart (small capital : Byte) : List Byte → ℤ
  | [] => 0
  | marker :: bytes =>
      if marker = small ∨ marker = capital then
        let (negative, bytes) := splitSign bytes
        let value : ℤ := digitsValue 10 (bytes.takeWhile isDigit)
        if negative then -value else value
      else 0

/-- Digits with an optional fraction: their value without the point, the number
of places after it, and the rest. -/
def mantissaPart (base : ℕ) (test : Byte → Bool) (bytes : List Byte) :
    ℕ × ℕ × List Byte :=
  let whole := bytes.takeWhile test
  match bytes.dropWhile test with
  | 46 :: rest =>
      let places := rest.takeWhile test
      (digitsValue base (whole ++ places), places.length, rest.dropWhile test)
  | rest => (digitsValue base whole, 0, rest)

def lowerCase (byte : Byte) : Byte :=
  if 65 ≤ byte ∧ byte ≤ 90 then byte + 32 else byte

/-- `strtod` on an unsigned number. -/
def parseUnsigned (bytes : List Byte) : Float :=
  let lower := bytes.map lowerCase
  if lower.take 3 = ascii "inf" then 1.0 / 0.0
  else if lower.take 3 = ascii "nan" then 0.0 / 0.0
  else if lower.take 2 = ascii "0x" ∧ (mantissaPart 16 (fun byte => (hexValue byte).isSome)
      (bytes.drop 2)).2.2.length < (bytes.drop 2).length then
    let (mantissa, places, rest) :=
      mantissaPart 16 (fun byte => (hexValue byte).isSome) (bytes.drop 2)
    Float.scaleB (Float.ofNat mantissa) (exponentPart 112 80 rest - 4 * places)
  else
    let (mantissa, places, rest) := mantissaPart 10 isDigit bytes
    let exponent := exponentPart 101 69 rest - places
    Float.ofScientific mantissa (exponent < 0) exponent.natAbs

/-- `(float)atof(text)`. -/
def parseFloat (text : CStr) : Float32 :=
  let (negative, bytes) := splitSign (text.bytes.dropWhile isSpace)
  let value := parseUnsigned bytes
  (if negative then -value else value).toFloat32

/-- The floats of the code.  `toBits` gives one pattern for all NaNs, so that a negative one
is printed as `nan` where C prints `-nan`; no theorem depends on it. -/
instance : CFloat Float32 where
  natCast := Float32.ofNat
  lt left right := left < right
  sqrt := Float32.sqrt
  format digits value := formatBits digits value.toBits.toNat
  atof := parseFloat

/-! ## Exact arithmetic -/

/-- `%.*f` of a rational number. -/
def formatRat (digits : ℕ) (value : ℚ) : CStr :=
  let sign := if value < 0 then ascii "-" else []
  CStr.read (sign ++ fixedPoint digits
    (roundHalfEven (value.num.natAbs * 10 ^ digits) value.den))

/-- The value of a decimal text. -/
def parseRat (text : CStr) : ℚ :=
  let (negative, bytes) := splitSign (text.bytes.dropWhile isSpace)
  let (mantissa, places, rest) := mantissaPart 10 isDigit bytes
  let value := (mantissa : ℚ) * 10 ^ (exponentPart 101 69 rest - places)
  if negative then -value else value

/-- The rationals compute without rounding, square roots apart. -/
instance : CFloat ℚ where
  lt left right := left < right
  sqrt := Rat.sqrt
  format := formatRat
  atof := parseRat

example : formatBits 4 0x3dcccccd = lit "0.1000" := by decide

end LiteMultiKV.Numeric
