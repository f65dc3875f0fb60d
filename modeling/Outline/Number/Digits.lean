/-!
# Digits

Numbers are written and read most significant digit first. Only ASCII digits count.
-/

namespace Outline.Number

/-- The value of a digit in a radix of at most 16; letters count in either case. -/
def digit? (radix : Nat) (c : Char) : Option Nat :=
  let d :=
    if '0' ≤ c ∧ c ≤ '9' then c.toNat - 48
    else if 'a' ≤ c ∧ c ≤ 'f' then c.toNat - 87
    else if 'A' ≤ c ∧ c ≤ 'F' then c.toNat - 55
    else radix
  if d < radix then some d else none

def isDigit (c : Char) : Bool := '0' ≤ c && c ≤ '9'

/-- The digit with the given value below sixteen, in lower case. -/
def digitChar (d : Nat) : Char := Char.ofNat (if d < 10 then 48 + d else 87 + d)

theorem digit?_digitChar {d : Nat} (h : d < 16) : digit? 16 (digitChar d) = some d := by
  decide +revert

theorem digit?_ten_digitChar {d : Nat} (h : d < 10) : digit? 10 (digitChar d) = some d := by
  decide +revert

theorem isDigit_digitChar {d : Nat} (h : d < 10) : isDigit (digitChar d) = true := by
  decide +revert

/-- The number with the given digits on top of `n`. -/
def ofDigitsFrom (radix n : Nat) : List Char → Option Nat
  | [] => some n
  | c :: s => (digit? radix c).bind fun d => ofDigitsFrom radix (radix * n + d) s

/-- A number of at least one digit. -/
def ofDigits? (radix : Nat) (s : List Char) : Option Nat :=
  if s.isEmpty then none else ofDigitsFrom radix 0 s

/-- The number written by a run of decimal digits; other characters count as zero. -/
def valueOf (s : List Char) : Nat := s.foldl (fun n c => 10 * n + (digit? 10 c).getD 0) 0

/-- The decimal digits of a number, without leading zeros. -/
def natText (n : Nat) : List Char :=
  if n < 10 then [digitChar n] else natText (n / 10) ++ [digitChar (n % 10)]

/-- The digits of a number in a radix from 2 to 16, without leading zeros. -/
def radixText (radix : Nat) (n : Nat) : List Char :=
  if _h : n < radix ∨ radix < 2 then [digitChar n]
  else radixText radix (n / radix) ++ [digitChar (n % radix)]
termination_by n
decreasing_by exact Nat.div_lt_self (by omega) (by omega)

def intText (n : Int) : List Char :=
  if n < 0 then '-' :: natText n.natAbs else natText n.natAbs

def padded (width n : Nat) : List Char :=
  List.replicate (width - (natText n).length) '0' ++ natText n

theorem ofDigitsFrom_append (radix n : Nat) (s t : List Char) :
    ofDigitsFrom radix n (s ++ t) =
      (ofDigitsFrom radix n s).bind fun m => ofDigitsFrom radix m t := by
  induction s generalizing n with
  | nil => rfl
  | cons c s ih =>
    simp only [List.cons_append, ofDigitsFrom]
    cases digit? radix c <;> simp [ih]

end Outline.Number
