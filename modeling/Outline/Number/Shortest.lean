import Outline.Number.Binary

/-!
# Shortest decimal text

The text of a binary number has the fewest digits that read back as the same number; among
texts of that many digits it is the nearest one.
-/

namespace Outline.Binary

/-- `digits * 10 ^ exponent`. -/
structure Shortest where
  digits : Nat
  exponent : Int
  deriving DecidableEq, Repr

/-- What happens to a decimal exactly half way between two shortest candidates. -/
inductive Tie
  | up
  | even
  deriving DecidableEq, Repr

/-- The least `k` with `num / den < 10 ^ k`, for a positive quotient. -/
def decimalPlace (num den : Nat) : Int :=
  if den ≤ num then (Number.natText (num / den)).length
  else
    let d := (Number.natText (den / num)).length
    if den ≤ num * Nat.pow 10 (d - 1) then 2 - d else 1 - d

/-- The reals that round to `m * 2 ^ e`, as four times the significand with the distances to
both ends, in units of `2 ^ (e - 2)`. The lower neighbour of a power of two is nearer. -/
def margins (f : Format) (m : Nat) : Nat × Nat × Nat :=
  (4 * m, if m = Nat.pow 2 (f.precision - 1) then 1 else 2, 2)

/-- Test the two neighbours of `v` on the grid of `n` digits. -/
def candidate (f : Format) (tie : Tie) (m : Nat) (e : Int) (place : Int) (n : Nat) :
    Option Shortest :=
  let (v, below, above) := margins f m
  let grid : Int := place - n
  -- both sides of `x * 10 ^ grid` against `v * 2 ^ (e - 2)` times a common denominator
  let (up, down) := ratio 1 (e - 2)
  let (tenUp, tenDown) : Nat × Nat :=
    if 0 ≤ grid then (Nat.pow 10 grid.toNat, 1) else (1, Nat.pow 10 (-grid).toNat)
  let unit := tenUp * down
  let scale := up * tenDown
  let value := v * scale
  let low := (v - below) * scale
  let high := (v + above) * scale
  let inside (x : Nat) : Bool :=
    if m % 2 = 0 then low ≤ x && x ≤ high else low < x && x < high
  let q := value / unit
  let lower := q * unit
  let upper := lower + unit
  let pick (d : Nat) : Option Shortest := some ⟨d, grid⟩
  match inside lower && q != 0, inside upper with
  | true, true =>
    let toLower := value - lower
    let toUpper := upper - value
    if toLower < toUpper then pick q
    else if toUpper < toLower then pick (q + 1)
    else if tie = .even ∧ q % 2 = 0 then pick q
    else pick (q + 1)
  | true, false => pick q
  | false, true => pick (q + 1)
  | false, false => none

/-- Drop zeros from the end of the digits. -/
def dropZeros (digits : Nat) (exponent : Int) : Shortest :=
  if h : digits ≠ 0 ∧ digits % 10 = 0 then dropZeros (digits / 10) (exponent + 1)
  else ⟨digits, exponent⟩
termination_by digits
decreasing_by omega

/-- The shortest digits of a positive number. Seventeen digits are always enough. -/
def shortest (f : Format) (tie : Tie) (m : Nat) (e : Int) : Shortest :=
  let (num, den) := ratio m e
  let place := decimalPlace num den
  let found := (List.range 17).findSome? fun n => candidate f tie m e place (n + 1)
  match found with
  | some s => dropZeros s.digits s.exponent
  | none => ⟨0, 0⟩

/-- Digits and the place of the point: the value is `0.digits * 10 ^ place`. -/
def positional (digits : List Char) (place : Int) : List Char :=
  let n : Int := digits.length
  if place ≤ 0 then '0' :: '.' :: List.replicate (-place).toNat '0' ++ digits
  else if n ≤ place then digits ++ List.replicate (place - n).toNat '0'
  else digits.take place.toNat ++ '.' :: digits.drop place.toNat

def signText (negative : Bool) : List Char := if negative then ['-'] else []

/-- The text of a number: positional at every magnitude, without a point if it is whole. -/
def chars (f : Format) : Binary → List Char
  | nan => "NaN".toList
  | infinity s => signText s ++ "inf".toList
  | finite s m e =>
    if m = 0 then signText s ++ ['0']
    else
      let d := shortest f .up m e
      let digits := Number.natText d.digits
      signText s ++ positional digits (d.exponent + digits.length)

def text (f : Format) (x : Binary) : String := String.ofList (chars f x)

end Outline.Binary
