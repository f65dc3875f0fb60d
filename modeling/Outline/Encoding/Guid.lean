import Outline.Number.Digits

/-!
# Globally unique identifiers

Sixteen bytes, held as one number below `2 ^ 128`. They are written with hyphens in lower case
and read with or without hyphens, in braces, or behind the mark of a resource name.
-/

namespace Outline

structure Guid where
  val : Nat
  val_lt : val < Nat.pow 2 128
  deriving DecidableEq, Repr

namespace Guid

open Number

instance : Inhabited Guid := ⟨⟨0, by decide⟩⟩

/-- The number of digits between the hyphens. -/
def groups : List Nat := [8, 4, 4, 4, 12]

/-- The last `width` hexadecimal digits of a number. -/
def hexText : Nat → Nat → List Char
  | 0, _ => []
  | width + 1, n => hexText width (n / 16) ++ [digitChar (n % 16)]

/-- Cut digits into groups and put hyphens between them. -/
def hyphenate : List Nat → List Char → List Char
  | [], _ => []
  | [n], s => s.take n
  | n :: ns, s => s.take n ++ '-' :: hyphenate ns (s.drop n)

def chars (g : Guid) : List Char := hyphenate groups (hexText 32 g.val)

def text (g : Guid) : String := String.ofList g.chars

/-- Take groups of digits with hyphens between them. -/
def dehyphenate : List Nat → List Char → Option (List Char)
  | [], s => if s.isEmpty then some [] else none
  | [n], s => if s.length = n then some s else none
  | n :: ns, s =>
    match s.drop n with
    | '-' :: r => (dehyphenate ns r).map (s.take n ++ ·)
    | _ => none

def ofHex? (s : List Char) : Option Guid := do
  let n ← ofDigits? 16 s
  if h : n < Nat.pow 2 128 then some ⟨n, h⟩ else none

def readHyphenated (s : List Char) : Option Guid :=
  (dehyphenate groups s).bind ofHex?

/-- The mark of a resource name, in any case. -/
def urn : List Char := "urn:uuid:".toList

def parse (s : List Char) : Option Guid :=
  match s.length with
  | 32 => ofHex? s
  | 36 => readHyphenated s
  | 38 =>
    if s.head? = some '\x7b' ∧ s.getLast? = some '\x7d' then readHyphenated (s.tail.dropLast)
    else none
  | 45 => if (s.take 9).map Char.toLower = urn then readHyphenated (s.drop 9) else none
  | _ => none

end Guid
end Outline
