import Outline.Number.Decimal

/-!
# Between decimals and binary numbers

Neither way is exact. A decimal becomes a double in double arithmetic: whole part and fraction
separately, then their sum, rounded to the places that the decimal had. A binary number becomes
a decimal by halving a mantissa that has to stay below its limit; of the digits behind the
point, those are given up that the binary number cannot have meant.
-/

namespace Outline.Decimal

/-! ## To a double -/

def fractionalDouble (d : Decimal) : Binary :=
  let unit := Nat.pow 10 d.scale
  let whole := Binary.ofRatio .double d.negative (d.mantissa / unit) 1
  let power := Binary.powerOfTen .double d.scale
  let part := Binary.ofRatio .double d.negative (d.mantissa % unit) 1
  let sum := whole.extendBy .double (part.scaleBy .double true power)
  ((sum.scaleBy .double false power).roundWhole .double).scaleBy .double true power

/-- The double that a decimal becomes. Zero keeps its sign if it has places. -/
def toDouble (d : Decimal) : Binary :=
  match d.toInt? with
  | some n =>
    if n = 0 ∧ 0 < d.scale then Binary.ofRatio .double d.negative 0 1 else Binary.ofInt .double n
  | none => d.fractionalDouble

/-! ## From a binary number -/

/-- Half of `mantissa / 10 ^ places`. An odd mantissa is multiplied by five and gets a place
more; one that has no room for that loses its last bit. -/
def halve : Nat × Nat → Nat × Nat
  | (mantissa, places) =>
    if mantissa % 2 = 1 ∧ 5 * mantissa < limit then (5 * mantissa, places + 1)
    else (mantissa / 2, places)

/-- One place less, half and more of the unit of the new last place going up. -/
def shorten (mantissa : Nat) : Nat := (mantissa + 5) / 10

/-- Give up `n` places one by one, unless nothing is left. -/
def giveUp : Nat → Nat → Option Nat
  | 0, mantissa => some mantissa
  | n + 1, mantissa => if mantissa < 10 then none else giveUp n (shorten mantissa)

/-- Give up places as long as the mantissa is not below `bound`. -/
def fitBelow (bound : Nat) : (places : Nat) → Nat → Nat × Nat
  | 0, mantissa => (mantissa, 0)
  | places + 1, mantissa =>
    if bound ≤ mantissa then fitBelow bound places (shorten mantissa) else (mantissa, places + 1)

/-- Drop zeros from the end of the places. -/
def trimPlaces : (places : Nat) → Nat → Nat × Nat
  | 0, mantissa => (mantissa, 0)
  | places + 1, mantissa =>
    if mantissa % 10 = 0 then trimPlaces places (mantissa / 10) else (mantissa, places + 1)

/-- How many bits of a mantissa with places are meant: as many as the format has, at most 52. -/
def meantBits (f : Binary.Format) : Nat := min f.precision 52

/-- Mantissa and places of `m / 2 ^ n`. -/
def ofHalves (f : Binary.Format) (m n : Nat) : Nat × Nat :=
  let (mantissa, places) := Nat.repeat halve n (m, 0)
  match giveUp (places - maxScale) mantissa with
  | none => (0, 0)
  | some mantissa =>
    let (mantissa, places) := fitBelow (Nat.pow 2 (meantBits f)) (min places maxScale) mantissa
    trimPlaces places mantissa

/-- The decimal that a binary number becomes, if it is below the limit. Without a fraction
nothing is lost. -/
def ofBinary? (f : Binary.Format) : Binary → Option Decimal
  | .nan => none
  | .infinity _ => none
  | .finite s m e =>
    if m = 0 then ofParts? s 0 0
    else if 0 ≤ e then ofParts? s (m * Nat.pow 2 e.toNat) 0
    else
      let (mantissa, places) := ofHalves f m e.natAbs
      ofParts? s mantissa places

end Outline.Decimal
