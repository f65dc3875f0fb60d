import Outline.Error
import Outline.Number.Digits

/-!
# Integers of fixed ranges

Seven kinds of integers, each with its range; a number outside the range of a kind is no
integer of that kind, and nothing wraps.
-/

namespace Outline

namespace Integer

inductive Kind
  | short
  | ushort
  | int
  | uint
  | long
  | ulong
  | byte
  deriving DecidableEq, Repr

namespace Kind

def tag : Kind → String
  | short => "short"
  | ushort => "ushort"
  | int => "int"
  | uint => "uint"
  | long => "long"
  | ulong => "ulong"
  | byte => "byte"

def min : Kind → Int
  | short => -Nat.pow 2 15
  | int => -Nat.pow 2 31
  | long => -Nat.pow 2 63
  | ushort | uint | ulong | byte => 0

def max : Kind → Int
  | short => Nat.pow 2 15 - 1
  | ushort => Nat.pow 2 16 - 1
  | int => Nat.pow 2 31 - 1
  | uint => Nat.pow 2 32 - 1
  | long => Nat.pow 2 63 - 1
  | ulong => Nat.pow 2 64 - 1
  | byte => Nat.pow 2 8 - 1

def Holds (k : Kind) (n : Int) : Prop := k.min ≤ n ∧ n ≤ k.max

instance (k : Kind) (n : Int) : Decidable (k.Holds n) := inferInstanceAs (Decidable (_ ∧ _))

end Kind
end Integer

structure Integer where
  kind : Integer.Kind
  val : Int
  inRange : kind.Holds val
  deriving DecidableEq, Repr

namespace Integer

def ofInt? (k : Kind) (n : Int) : Option Integer :=
  if h : k.Holds n then some ⟨k, n, h⟩ else none

theorem ofInt?_val (i : Integer) : ofInt? i.kind i.val = some i := by
  simp [ofInt?, i.inRange]

/-- Take digits with the sign `sign` on top of `n`, as long as the result stays between `lo`
and `hi`. The first character that does not fit in decides the reason. -/
def accumulate (radix : Nat) (sign lo hi n : Int) : List Char → Except Reason Int
  | [] => .ok n
  | c :: s =>
    match Number.digit? radix c with
    | none => .error .invalidDigit
    | some d =>
      let m := radix * n + sign * d
      if m < lo then .error .tooSmall
      else if hi < m then .error .tooLarge
      else accumulate radix sign lo hi m s

/-- An integer between `lo` and `hi`: an optional sign, then digits. A minus sign is taken
only where negative numbers are. -/
def read (radix : Nat) (lo hi : Int) (s : List Char) : Except Reason Int :=
  match s with
  | [] => .error .emptyInteger
  | ['+'] | ['-'] => .error .invalidDigit
  | '+' :: digits => accumulate radix 1 lo hi 0 digits
  | '-' :: digits =>
    if lo < 0 then accumulate radix (-1) lo hi 0 digits else .error .invalidDigit
  | digits => accumulate radix 1 lo hi 0 digits

def Kind.read (k : Kind) (s : List Char) : Except Reason Int := Integer.read 10 k.min k.max s

def parse (k : Kind) (s : List Char) : Except Reason Integer := do
  let n ← k.read s
  match ofInt? k n with
  | some i => return i
  | none => throw .outOfRange

def text (i : Integer) : String := String.ofList (Number.intText i.val)

end Integer
end Outline
