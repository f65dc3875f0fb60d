import Outline.Error
import Outline.Number.Shortest

/-!
# Decimal numbers

A mantissa below `2 ^ 96` with up to 28 digits behind the point. The number of those digits is
kept, so `7.50` and `7.5` are equal and print differently.
-/

namespace Outline

namespace Decimal

def limit : Nat := Nat.pow 2 96
def maxScale : Nat := 28

end Decimal

/-- The number `mantissa / 10 ^ scale` with its sign. -/
structure Decimal where
  negative : Bool
  mantissa : Nat
  scale : Nat
  mantissa_lt : mantissa < Decimal.limit
  scale_le : scale ≤ Decimal.maxScale
  deriving DecidableEq, Repr

namespace Decimal

instance : Inhabited Decimal := ⟨⟨false, 0, 0, by decide, by decide⟩⟩

def ofParts? (negative : Bool) (mantissa scale : Nat) : Option Decimal :=
  if h : mantissa < limit ∧ scale ≤ maxScale then some ⟨negative, mantissa, scale, h.1, h.2⟩
  else none

theorem ofParts?_self (d : Decimal) : ofParts? d.negative d.mantissa d.scale = some d := by
  simp [ofParts?, d.mantissa_lt, d.scale_le]

/-- A number read from text; zero has no sign then. -/
def ofRead? (negative : Bool) (mantissa scale : Nat) : Option Decimal :=
  ofParts? (negative && mantissa != 0) mantissa scale

/-- Equality of numbers, whatever their scales. -/
def equal (a b : Decimal) : Bool :=
  a.mantissa * Nat.pow 10 b.scale == b.mantissa * Nat.pow 10 a.scale &&
    (a.negative == b.negative || a.mantissa == 0)

/-- Half and more of the unit of the last place goes up. If the mantissa has no room for
that, one more place is given up. -/
def roundUp? (mantissa scale : Nat) : Option (Nat × Nat) :=
  if mantissa + 1 < limit then some (mantissa + 1, scale)
  else if scale = 0 then none
  else some ((mantissa + 5) / 10, scale - 1)

/-- Give up the places from the digit `c` on; what follows has to be digits or separators. -/
def cut? (mantissa scale : Nat) (c : Char) (rest : List Char) : Option (Nat × Nat) :=
  if rest.all fun x => Number.isDigit x || x == '_' then
    if c = '_' then some (mantissa, scale)
    else (Number.digit? 10 c).bind fun d =>
      if 5 ≤ d then roundUp? mantissa scale else some (mantissa, scale)
  else none

/-- The mantissas from here on need more than one word for their next digit. -/
def longMantissa : Nat := (Nat.pow 2 64 - 1) / 10 - 255

/-- Give up the places behind the last one there can be, from the character `c` on. A separator
right there stands for the digit 0, unless the digits before made a long mantissa: then
separators are passed over, and the digit behind them decides. -/
def cutLast? (mantissa scale : Nat) (c : Char) (rest : List Char) : Option (Nat × Nat) :=
  if c = '_' ∧ longMantissa ≤ mantissa / 10 then
    match rest.dropWhile (· == '_') with
    | [] => some (mantissa, scale)
    | d :: r => cut? mantissa scale d r
  else cut? mantissa scale c rest

/-- Digits with at most one point; an underscore may stand behind any digit. `started` says
whether a digit was seen, `point` whether the point was. -/
def readFrom (started point : Bool) (mantissa scale : Nat) : List Char → Option (Nat × Nat)
  | [] => if started then some (mantissa, scale) else none
  | c :: s =>
    if point && scale == maxScale then cutLast? mantissa scale c s
    else
      match Number.digit? 10 c with
      | some d =>
        let m := 10 * mantissa + d
        if m < limit then readFrom true point m (if point then scale + 1 else 0) s
        else if point then cut? mantissa scale c s
        else none
      | none =>
        if c = '.' ∧ point = false then readFrom started true mantissa scale s
        else if c = '_' ∧ started = true then readFrom started point mantissa scale s
        else none

/-- A literal without an exponent. -/
def readPlain (s : List Char) : Option Decimal :=
  match s with
  | '-' :: r => (readFrom false false 0 0 r).bind fun (m, k) => ofRead? true m k
  | '+' :: r => (readFrom false false 0 0 r).bind fun (m, k) => ofRead? false m k
  | r => (readFrom false false 0 0 r).bind fun (m, k) => ofRead? false m k

/-- The mantissa at a smaller scale, the first lost digit deciding. -/
def reduce (mantissa scale newScale : Nat) : Nat :=
  let lost := mantissa / Nat.pow 10 (scale - newScale - 1)
  if newScale < scale then (lost + 5) / 10 else mantissa

/-- Move the point `n` places to the left. The sign stays, also where nothing else does. -/
def shiftLeft? (d : Decimal) (n : Nat) : Option Decimal :=
  if n ≤ maxScale then
    if d.scale + n ≤ maxScale then ofParts? d.negative d.mantissa (d.scale + n)
    else ofParts? d.negative (reduce d.mantissa d.scale (maxScale - n)) maxScale
  else none

def shiftRight? (d : Decimal) (n : Nat) : Option Decimal :=
  if n ≤ d.scale then ofParts? d.negative d.mantissa (d.scale - n)
  else if n ≤ maxScale then ofParts? d.negative (d.mantissa * Nat.pow 10 (n - d.scale)) 0
  else none

/-- The exponent of scientific notation: an unsigned number behind an optional sign. -/
def readExponent (s : List Char) : Option Nat :=
  match s with
  | '+' :: digits => Number.ofDigits? 10 digits
  | digits => Number.ofDigits? 10 digits

/-- A literal in scientific notation, split at its first exponent mark. -/
def readScientific (s : List Char) : Option Decimal := do
  let isMark (c : Char) : Bool := c == 'e' || c == 'E'
  let base ← readPlain (s.takeWhile (!isMark ·))
  match s.dropWhile (!isMark ·) with
  | [] => none
  | _ :: '-' :: e => shiftLeft? base (← readExponent e)
  | _ :: e => shiftRight? base (← readExponent e)

def parse (s : List Char) : Option Decimal := (readPlain s).orElse fun _ => readScientific s

def chars (d : Decimal) : List Char :=
  let whole := Number.natText (d.mantissa / Nat.pow 10 d.scale)
  let fraction := Number.padded d.scale (d.mantissa % Nat.pow 10 d.scale)
  Binary.signText d.negative ++
    if d.scale = 0 then whole else whole ++ '.' :: fraction

def text (d : Decimal) : String := String.ofList (chars d)

/-- The integer a number without a fraction stands for. -/
def toInt? (d : Decimal) : Option Int :=
  if d.mantissa % Nat.pow 10 d.scale = 0 then
    let n : Int := d.mantissa / Nat.pow 10 d.scale
    some (if d.negative then -n else n)
  else none

def ofInt? (n : Int) : Option Decimal := ofParts? (n < 0) n.natAbs 0

end Decimal
end Outline
