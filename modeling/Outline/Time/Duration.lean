import Outline.Number.Digits

/-!
# Durations

A duration is a whole number of nanoseconds of bounded length. It is written as a number of
ticks of 100 nanoseconds, which has to fit into 64 bits.
-/

namespace Outline

namespace Duration

/-- No duration is longer than this many nanoseconds. -/
def limit : Nat := (Nat.pow 2 63 - 1) * 1000000

def minTicks : Int := -Nat.pow 2 63
def maxTicks : Int := Nat.pow 2 63 - 1

end Duration

structure Duration where
  nanoseconds : Int
  bounded : nanoseconds.natAbs ≤ Duration.limit
  deriving DecidableEq, Repr

namespace Duration

instance : Inhabited Duration := ⟨⟨0, by decide⟩⟩

def ofNanoseconds? (n : Int) : Option Duration :=
  if h : n.natAbs ≤ limit then some ⟨n, h⟩ else none

/-- Seconds with nanoseconds below a second on top. -/
def ofParts? (seconds : Int) (nanos : Nat) : Option Duration :=
  if nanos < 1000000000 then ofNanoseconds? (seconds * 1000000000 + nanos) else none

def wholeSeconds (d : Duration) : Int := d.nanoseconds.tdiv 1000000000

/-- What is left of the whole seconds, with the sign of the duration. -/
def restNanos (d : Duration) : Int := d.nanoseconds.tmod 1000000000

def ticksPerSecond : Int := 10000000

def fitsTicks (n : Int) : Bool := decide (minTicks ≤ n ∧ n ≤ maxTicks)

def checked (n : Int) : Option Int := if fitsTicks n then some n else none

/-- The length in ticks, toward zero. The seconds are multiplied out first; a length beyond the
64-bit range gives the end of the range on its side. -/
def toTicks (d : Duration) : Int :=
  let exact := (checked (d.wholeSeconds * ticksPerSecond)).bind fun t =>
    checked (t + d.restNanos.tdiv 100)
  exact.getD (if d.nanoseconds < 0 then minTicks else maxTicks)

def ofTicks? (ticks : Int) : Option Duration :=
  ofNanoseconds? (ticks.tdiv ticksPerSecond * 1000000000 + ticks.tmod ticksPerSecond * 100)

def text (d : Duration) : String := String.ofList (Number.intText d.toTicks)

end Duration
end Outline
