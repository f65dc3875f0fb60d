import Outline.Json.Basic
import Outline.Text.Quoted

/-!
# Reading JSON

Strict JSON text. A number that fits into 64 bits stays an integer; all others become doubles:
the leading digits that fit into 64 bits are scaled once by a power of ten, and what exceeds
the doubles is no number.
-/

namespace Outline.Json

open Number

def isSpace (c : Char) : Bool := c == ' ' || c == '\t' || c == '\n' || c == '\r'

def skipSpace (s : List Char) : List Char := s.dropWhile isSpace

/-! ## Numbers -/

/-- Significands are below this. -/
def wordLimit : Nat := Nat.pow 2 64

def powerOfTen (n : Nat) : Binary := Binary.powerOfTen .double n

def isZero : Binary → Bool
  | .finite _ m _ => m == 0
  | _ => false

def isFinite : Binary → Bool
  | .finite _ _ _ => true
  | _ => false

/-- Scale by a power of ten in one step, or, far below the smallest numbers, in steps of the
greatest power of ten among the doubles. -/
def scaleDown : Nat → Binary → Nat → Binary
  | 0, x, _ => x
  | fuel + 1, x, n =>
    if n ≤ 308 then Binary.scaleBy .double true x (powerOfTen n)
    else if isZero x then x
    else scaleDown fuel (Binary.scaleBy .double true x (powerOfTen 308)) (n - 308)

/-- The double `significand * 10 ^ e`. -/
def assemble (negative : Bool) (significand : Nat) (e : Int) : Option Binary :=
  let x := Binary.ofRatio .double negative significand 1
  if 0 ≤ e then
    if e ≤ 308 then
      let y := Binary.scaleBy .double false x (powerOfTen e.toNat)
      if isFinite y then some y else none
    else if isZero x then some x
    else none
  else some (scaleDown 8 x e.natAbs)

/-- Digits taken into a significand while it fits into 64 bits; the count of those taken and of
those left over. -/
def takeDigits (n : Nat) : List Char → Nat × Nat × Nat
  | [] => (n, 0, 0)
  | c :: s =>
    let m := 10 * n + (digit? 10 c).getD 0
    if m < wordLimit then
      let (value, taken, left) := takeDigits m s
      (value, taken + 1, left)
    else (n, 0, s.length + 1)

/-- The exponents that are computed with. -/
def exponentLimit : Nat := Nat.pow 2 31

/-- Mark, sign and digits of an exponent. -/
def parseExponent (s : List Char) : Option ((Option (Bool × Nat)) × List Char) :=
  match s with
  | c :: r =>
    if c = 'e' ∨ c = 'E' then
      let (negative, r) :=
        match r with
        | '-' :: t => (true, t)
        | '+' :: t => (false, t)
        | t => (false, t)
      let digits := r.takeWhile isDigit
      if digits.isEmpty then none
      else some (some (negative, valueOf digits), r.dropWhile isDigit)
    else some (none, s)
  | [] => some (none, [])

/-- A point and at least one digit, or nothing. -/
def parseFraction (s : List Char) : Option (Option (List Char) × List Char) :=
  match s with
  | '.' :: r =>
    let digits := r.takeWhile isDigit
    if digits.isEmpty then none else some (some digits, r.dropWhile isDigit)
  | _ => some (none, s)

def number (negative : Bool) (whole : List Char) (fraction : Option (List Char))
    (exponent : Option (Bool × Nat)) : Option Json :=
  let (significand, _, left) := takeDigits 0 whole
  if fraction.isNone ∧ exponent.isNone ∧ left = 0 ∧
      (negative = false ∨ (0 < significand ∧ significand ≤ Nat.pow 2 63)) then
    some (.integer (if negative then -significand else significand))
  else
    let (significand, taken, _) := takeDigits significand (fraction.getD [])
    let start : Int := left - taken
    match exponent with
    | none => (assemble negative significand start).map .double
    | some (below, e) =>
      if exponentLimit ≤ e then
        if significand = 0 ∨ below then some (.double (Binary.ofRatio .double negative 0 1))
        else none
      else (assemble negative significand (if below then start - e else start + e)).map .double

def parseNumber (s : List Char) : Option (Json × List Char) := do
  let (negative, s) :=
    match s with
    | '-' :: r => (true, r)
    | r => (false, r)
  let whole := s.takeWhile isDigit
  let s := s.dropWhile isDigit
  if whole.isEmpty || (whole.head? == some '0' && whole.length != 1) then none
  else
    let (fraction, s) ← parseFraction s
    let (exponent, s) ← parseExponent s
    return (← number negative whole fraction exponent, s)

/-! ## Strings -/

/-- Four hexadecimal digits. -/
def parseUnit (s : List Char) : Option (Nat × List Char) :=
  if (s.take 4).length = 4 then (ofDigits? 16 (s.take 4)).map (·, s.drop 4) else none

/-- The character of a `\u` escape; codes above the basic plane take two of them. -/
def parseCode (s : List Char) : Option (Char × List Char) := do
  let (high, s) ← parseUnit s
  if 0xD800 ≤ high ∧ high < 0xDC00 then
    match s with
    | '\\' :: 'u' :: s => do
      let (low, s) ← parseUnit s
      if 0xDC00 ≤ low ∧ low < 0xE000 then
        return (← Text.scalar? (0x10000 + (high - 0xD800) * 1024 + (low - 0xDC00)), s)
      else none
    | _ => none
  else return (← Text.scalar? high, s)

def simpleEscape? : Char → Option Char
  | '"' => some '"'
  | '\\' => some '\\'
  | '/' => some '/'
  | 'b' => some '\x08'
  | 'f' => some '\x0c'
  | 'n' => some '\n'
  | 'r' => some '\r'
  | 't' => some '\t'
  | _ => none

/-- The characters of a string up to its closing quote. The fuel is the length of the text. -/
def parseString : Nat → List Char → Option (List Char × List Char)
  | 0, _ => none
  | _ + 1, [] => none
  | fuel + 1, c :: s =>
    if c = '"' then some ([], s)
    else if c = '\\' then
      match s with
      | 'u' :: s => do
        let (x, s) ← parseCode s
        let (xs, s) ← parseString fuel s
        return (x :: xs, s)
      | e :: s => do
        let x ← simpleEscape? e
        let (xs, s) ← parseString fuel s
        return (x :: xs, s)
      | [] => none
    else if c.toNat < 32 then none
    else do
      let (xs, s) ← parseString fuel s
      return (c :: xs, s)

/-! ## Values -/

def parseWord (word : String) (j : Json) (s : List Char) : Option (Json × List Char) :=
  if word.toList.isPrefixOf s then some (j, s.drop word.length) else none

mutual

/-- A value behind blanks, with `depth` more levels of nesting allowed. -/
def parseValue : (fuel depth : Nat) → List Char → Option (Json × List Char)
  | 0, _, _ => none
  | fuel + 1, depth, s =>
    match skipSpace s with
    | [] => none
    | '"' :: s => (parseString (s.length + 1) s).map fun (xs, s) => (.string (String.ofList xs), s)
    | '[' :: s =>
      match depth with
      | 0 => none
      | depth + 1 =>
        match skipSpace s with
        | ']' :: s => some (.array [], s)
        | s => (parseItems fuel depth s).map fun (items, s) => (.array items, s)
    | '\x7b' :: s =>
      match depth with
      | 0 => none
      | depth + 1 =>
        match skipSpace s with
        | '\x7d' :: s => some (.object [], s)
        | s => (parseMembers fuel depth s).map fun (members, s) => (ofMembers members, s)
    | 't' :: s => parseWord "rue" (.bool true) s
    | 'f' :: s => parseWord "alse" (.bool false) s
    | 'n' :: s => parseWord "ull" .null s
    | s => parseNumber s

def parseItems : (fuel depth : Nat) → List Char → Option (List Json × List Char)
  | 0, _, _ => none
  | fuel + 1, depth, s => do
    let (item, s) ← parseValue fuel depth s
    match skipSpace s with
    | ']' :: s => return ([item], s)
    | ',' :: s =>
      let (items, s) ← parseItems fuel depth s
      return (item :: items, s)
    | _ => none

def parseMembers : (fuel depth : Nat) → List Char → Option ((List (String × Json)) × List Char)
  | 0, _, _ => none
  | fuel + 1, depth, s =>
    match skipSpace s with
    | '"' :: s => do
      let (key, s) ← parseString (s.length + 1) s
      match skipSpace s with
      | ':' :: s =>
        let (value, s) ← parseValue fuel depth s
        match skipSpace s with
        | '\x7d' :: s => return ([(String.ofList key, value)], s)
        | ',' :: s =>
          let (members, s) ← parseMembers fuel depth s
          return ((String.ofList key, value) :: members, s)
        | _ => none
      | _ => none
    | _ => none

end

/-- How deep arrays and objects may be nested. -/
def maxDepth : Nat := 127

/-- Read a text that is one JSON value. -/
def parse (text : String) : Option Json := do
  let s := text.toList
  let (j, rest) ← parseValue (2 * s.length + 2) maxDepth s
  if (skipSpace rest).isEmpty then some j else none

end Outline.Json
