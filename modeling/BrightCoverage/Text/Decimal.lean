/-! Decimal numbers. `doubleBits` rounds a decimal to the nearest IEEE-754 double, ties to the even
neighbour, in exact arithmetic on natural numbers, and gives its 64 bits. -/

namespace BrightCoverage

def digitValue (c : Char) : Nat :=
  if '0' ≤ c && c ≤ '9' then c.toNat - 48
  else if 'a' ≤ c && c ≤ 'f' then c.toNat - 87
  else if 'A' ≤ c && c ≤ 'F' then c.toNat - 55
  else 0

def ofDigits (base : Nat) (digits : List Char) : Nat :=
  digits.foldl (fun n c => n * base + digitValue c) 0

def infinityBits : Nat :=
  0x7FF <<< 52

/-- The quotient of two numbers as a double. The quotient is scaled by a power of two until its
integer part has 53 bits, or until the least exponent is reached, and is then rounded. A carry out
of the integer part runs into the exponent field, where it belongs. -/
def quotientBits (num den : Nat) : Nat :=
  let guess : Int := (num.log2 : Int) - den.log2 - 52
  let scale (e : Int) : Nat × Nat := (num <<< (-e).toNat, den <<< e.toNat)
  let small := (scale guess).1 / (scale guess).2 < 1 <<< 52
  let exponent := max (if small then guess - 1 else guess) (-1074)
  let (n, d) := scale exponent
  let (q, r) := (n / d, n % d)
  let rounded := if 2 * r > d || (2 * r == d && q % 2 == 1) then q + 1 else q
  min infinityBits (((exponent + 1074).toNat <<< 52) + rounded)

/-- The double nearest to `mantissa * 10 ^ exponent`. Exponents far outside the range of doubles are
decided by the number of digits alone. -/
def doubleBits (mantissa : Nat) (exponent : Int) : Nat :=
  let magnitude : Int := exponent + (Nat.toDigits 10 mantissa).length
  if mantissa = 0 then 0
  else if magnitude > 310 then infinityBits
  else if magnitude < -330 then 0
  else quotientBits (mantissa * Nat.pow 10 exponent.toNat) (Nat.pow 10 (-exponent).toNat)

def readDouble (text : List Char) : Nat :=
  let whole := text.takeWhile Char.isDigit
  let rest := text.dropWhile Char.isDigit
  let (fraction, rest) := match rest with
    | '.' :: rest => (rest.takeWhile Char.isDigit, rest.dropWhile Char.isDigit)
    | _ => ([], rest)
  let exponent : Int := match rest with
    | _ :: '-' :: digits => -(ofDigits 10 digits : Int)
    | _ :: '+' :: digits => ofDigits 10 digits
    | _ :: digits => ofDigits 10 digits
    | [] => 0
  doubleBits (ofDigits 10 (whole ++ fraction)) (exponent - fraction.length)

end BrightCoverage
