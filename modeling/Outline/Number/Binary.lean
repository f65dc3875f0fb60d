import Outline.Error
import Outline.Number.Digits

/-!
# Binary floating point

A finite number is a significand of bounded length times a power of two. Every operation
computes an exact quotient of natural numbers and rounds it once, to the nearest
representable number, a tie going to the even significand.
-/

namespace Outline

namespace Binary

/-- The significand has at most `precision` bits; `minExponent` and `maxExponent` bound the
weight of its last bit. -/
structure Format where
  precision : Nat
  minExponent : Int
  maxExponent : Int
  deriving DecidableEq, Repr

def Format.double : Format := ⟨53, -1074, 971⟩
def Format.single : Format := ⟨24, -149, 104⟩

end Binary

/-- A finite number stands for `significand * 2 ^ exponent`. -/
inductive Binary
  | nan
  | infinity (negative : Bool)
  | finite (negative : Bool) (significand : Nat) (exponent : Int)
  deriving DecidableEq, Repr, Inhabited

namespace Binary

/-- The nearest natural number to a quotient, a tie going to the even one. -/
def roundDiv (num den : Nat) : Nat :=
  let q := num / den
  let r := num % den
  if den < 2 * r ∨ (2 * r = den ∧ q % 2 = 1) then q + 1 else q

/-- Numerator and denominator of `num / den / 2 ^ e`. -/
def unscale (num den : Nat) (e : Int) : Nat × Nat :=
  if 0 ≤ e then (num, den * Nat.pow 2 e.toNat) else (num * Nat.pow 2 (-e).toNat, den)

/-- The weight of the last bit of a significand that holds `num / den` in full length. -/
def weight (f : Format) (num den : Nat) : Int :=
  let e : Int := (num.log2 : Int) - den.log2 - f.precision
  let (n, d) := unscale num den e
  let e := if Nat.pow 2 f.precision ≤ n / d then e + 1 else e
  max e f.minExponent

/-- The representable number nearest to `num / den`. -/
def ofRatio (f : Format) (negative : Bool) (num den : Nat) : Binary :=
  if num = 0 then finite negative 0 f.minExponent
  else
    let e := weight f num den
    let (n, d) := unscale num den e
    let q := roundDiv n d
    let (q, e) := if q = Nat.pow 2 f.precision then (Nat.pow 2 (f.precision - 1), e + 1) else (q, e)
    if f.maxExponent < e then infinity negative else finite negative q e

def ofInt (f : Format) (n : Int) : Binary := ofRatio f (n < 0) n.natAbs 1

def ratio (m : Nat) (e : Int) : Nat × Nat :=
  if 0 ≤ e then (m * Nat.pow 2 e.toNat, 1) else (m, Nat.pow 2 (-e).toNat)

def convert (f : Format) : Binary → Binary
  | nan => nan
  | infinity s => infinity s
  | finite s m e =>
    let (n, d) := ratio m e
    ofRatio f s n d

/-- The nearest number to `digits * 10 ^ e`. Magnitudes far outside of every format are
settled without computing the power. -/
def ofDecimal (f : Format) (negative : Bool) (digits : Nat) (e : Int) : Binary :=
  let magnitude : Int := (Number.natText digits).length + e
  if digits = 0 ∨ magnitude < -400 then finite negative 0 f.minExponent
  else if 400 < magnitude then infinity negative
  else if 0 ≤ e then ofRatio f negative (digits * Nat.pow 10 e.toNat) 1
  else ofRatio f negative digits (Nat.pow 10 (-e).toNat)

/-- Equality of numbers: zero has one value under both signs, and a NaN equals nothing. -/
def equal : Binary → Binary → Bool
  | finite s m e, finite s' m' e' => (m == 0 && m' == 0) || (s == s' && m == m' && e == e')
  | infinity s, infinity s' => s == s'
  | _, _ => false

def powerOfTen (f : Format) (n : Nat) : Binary := ofRatio f false (Nat.pow 10 n) 1

/-- Product and quotient of the magnitudes of two finite numbers, under the sign of the first. -/
def scaleBy (f : Format) (divide : Bool) : Binary → Binary → Binary
  | finite s m e, finite _ m' e' =>
    let (n, d) := ratio m e
    let (n', d') := ratio m' e'
    if divide then ofRatio f s (n * d') (d * n') else ofRatio f s (n * n') (d * d')
  | x, _ => x

/-- The sum of the magnitudes of two finite numbers, under the sign of the first. -/
def extendBy (f : Format) : Binary → Binary → Binary
  | finite s m e, finite _ m' e' =>
    let (n, d) := ratio m e
    let (n', d') := ratio m' e'
    ofRatio f s (n * d' + n' * d) (d * d')
  | x, _ => x

/-- The nearest whole number, a tie going away from zero. -/
def roundWhole (f : Format) : Binary → Binary
  | finite s m e =>
    let (n, d) := ratio m e
    ofRatio f s ((2 * n + d) / (2 * d)) 1
  | x => x

/-- The exponent part of a decimal literal: nothing, or a mark, a sign and digits. -/
def readExponent : List Char → Option Int
  | [] => some 0
  | c :: s =>
    if c = 'e' ∨ c = 'E' then
      match s with
      | '-' :: digits => (Number.ofDigits? 10 digits).map fun n => -(n : Int)
      | '+' :: digits => (Number.ofDigits? 10 digits).map fun n => (n : Int)
      | digits => (Number.ofDigits? 10 digits).map fun n => (n : Int)
    else none

/-- An unsigned decimal literal: digits with an optional point among or around them and an
optional exponent. -/
def readMagnitude (s : List Char) : Option (Nat × Int) := do
  let whole := s.takeWhile Number.isDigit
  let rest := s.dropWhile Number.isDigit
  let (fraction, rest) :=
    match rest with
    | '.' :: r => (r.takeWhile Number.isDigit, r.dropWhile Number.isDigit)
    | r => ([], r)
  if whole.isEmpty && fraction.isEmpty then none
  else
    let e ← readExponent rest
    some (Number.valueOf (whole ++ fraction), e - fraction.length)

/-- The literal behind an optional sign; words are taken in any case. -/
def readUnsigned (f : Format) (negative : Bool) (s : List Char) : Option Binary :=
  let word := String.ofList (s.map Char.toLower)
  if word = "inf" ∨ word = "infinity" then some (infinity negative)
  else if word = "nan" then some nan
  else (readMagnitude s).map fun (digits, e) => ofDecimal f negative digits e

def parse (f : Format) (s : List Char) : Except Reason Binary :=
  let result :=
    match s with
    | '-' :: r => readUnsigned f true r
    | '+' :: r => readUnsigned f false r
    | r => readUnsigned f false r
  match result with
  | some x => .ok x
  | none => .error (if s.isEmpty then .emptyFloat else .invalidFloat)

end Binary
end Outline
