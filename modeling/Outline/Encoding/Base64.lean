/-!
# Base64

Three bytes make four characters of the standard alphabet; a shorter last group is padded.
Reading accepts exactly what writing gives.
-/

namespace Outline.Base64

def symbol (n : Nat) : Char :=
  if n < 26 then Char.ofNat (65 + n)
  else if n < 52 then Char.ofNat (71 + n)
  else if n < 62 then Char.ofNat (n - 4)
  else if n = 62 then '+'
  else '/'

def value? (c : Char) : Option Nat :=
  if 'A' ≤ c ∧ c ≤ 'Z' then some (c.toNat - 65)
  else if 'a' ≤ c ∧ c ≤ 'z' then some (c.toNat - 71)
  else if '0' ≤ c ∧ c ≤ '9' then some (c.toNat + 4)
  else if c = '+' then some 62
  else if c = '/' then some 63
  else none

theorem value?_symbol {n : Nat} (h : n < 64) : value? (symbol n) = some n := by
  decide +revert

def encode : List UInt8 → List Char
  | [] => []
  | [a] =>
    let n := a.toNat
    [symbol (n / 4), symbol (n % 4 * 16), '=', '=']
  | [a, b] =>
    let n := a.toNat * 256 + b.toNat
    [symbol (n / 1024), symbol (n / 16 % 64), symbol (n % 16 * 4), '=']
  | a :: b :: c :: rest =>
    let n := (a.toNat * 256 + b.toNat) * 256 + c.toNat
    symbol (n / 262144) :: symbol (n / 4096 % 64) :: symbol (n / 64 % 64) :: symbol (n % 64) ::
      encode rest

/-- The bits that padding leaves unused have to be zero. -/
def decode : List Char → Option (List UInt8)
  | [] => some []
  | [c₁, c₂, '=', '='] => do
    let n := (← value? c₁) * 64 + (← value? c₂)
    if n % 16 = 0 then some [UInt8.ofNat (n / 16)] else none
  | [c₁, c₂, c₃, '='] => do
    let n := ((← value? c₁) * 64 + (← value? c₂)) * 64 + (← value? c₃)
    if n % 4 = 0 then some [UInt8.ofNat (n / 1024), UInt8.ofNat (n / 4 % 256)] else none
  | c₁ :: c₂ :: c₃ :: c₄ :: rest => do
    let n := (((← value? c₁) * 64 + (← value? c₂)) * 64 + (← value? c₃)) * 64 + (← value? c₄)
    let bytes ← decode rest
    some (UInt8.ofNat (n / 65536) :: UInt8.ofNat (n / 256 % 256) :: UInt8.ofNat (n % 256) :: bytes)
  | _ => none

def text (bytes : List UInt8) : String := String.ofList (encode bytes)

end Outline.Base64
