import Outline.Number.Shortest

/-!
# JSON values

Objects keep their members sorted by key, each key once. Numbers are integers of 64 bits or
doubles.
-/

namespace Outline

inductive Json
  | null
  | bool (b : Bool)
  | integer (n : Int)
  | double (x : Binary)
  | string (s : String)
  | array (items : List Json)
  | object (members : List (String × Json))
  deriving Repr, Inhabited

namespace Json

def insertMember (key : String) (value : Json) : List (String × Json) → List (String × Json)
  | [] => [(key, value)]
  | (k, v) :: rest =>
    if key < k then (key, value) :: (k, v) :: rest
    else if key = k then (key, value) :: rest
    else (k, v) :: insertMember key value rest

/-- The object with the given members; the last one of equal keys counts. -/
def ofMembers (members : List (String × Json)) : Json :=
  .object (members.foldl (fun ms (k, v) => insertMember k v ms) [])

def member? (key : String) : List (String × Json) → Option Json := List.lookup key

/-- Powers of ten between these exponents are written in positional notation. -/
def plainRange (k : Int) : Bool := -5 ≤ k && k ≤ 15

/-- The text of a finite double: the fewest digits that read back, a tie to the even one. -/
def doubleChars : Binary → List Char
  | .finite s m e =>
    let sign := Binary.signText s
    if m = 0 then sign ++ ['0', '.', '0']
    else
      let d := Binary.shortest .double .even m e
      let digits := Number.natText d.digits
      let place := d.exponent + digits.length
      if plainRange (place - 1) then
        let body := Binary.positional digits place
        sign ++ if body.contains '.' then body else body ++ ['.', '0']
      else
        let fraction := if digits.length = 1 then [] else '.' :: digits.drop 1
        let k := place - 1
        sign ++ digits.take 1 ++ fraction ++ 'e' :: (if k < 0 then '-' else '+') ::
          Number.natText k.natAbs
  | _ => "null".toList

/-- How a character stands in a string. -/
def escapeChar (c : Char) : List Char :=
  if c = '"' then ['\\', '"']
  else if c = '\\' then ['\\', '\\']
  else if c = '\n' then ['\\', 'n']
  else if c = '\r' then ['\\', 'r']
  else if c = '\t' then ['\\', 't']
  else if c = '\x08' then ['\\', 'b']
  else if c = '\x0c' then ['\\', 'f']
  else if c.toNat < 32 then
    ['\\', 'u', '0', '0', Number.digitChar (c.toNat / 16), Number.digitChar (c.toNat % 16)]
  else [c]

def stringChars (s : String) : List Char := '"' :: s.toList.flatMap escapeChar ++ ['"']

mutual

/-- The text without blanks. -/
def compact : Json → List Char
  | null => "null".toList
  | bool b => (if b then "true" else "false").toList
  | integer n => Number.intText n
  | double x => doubleChars x
  | string s => stringChars s
  | array items => '[' :: compactItems items ++ [']']
  | object members => '\x7b' :: compactMembers members ++ ['\x7d']

def compactItems : List Json → List Char
  | [] => []
  | [item] => compact item
  | item :: items => compact item ++ ',' :: compactItems items

def compactMembers : List (String × Json) → List Char
  | [] => []
  | [(key, value)] => stringChars key ++ ':' :: compact value
  | (key, value) :: members =>
    stringChars key ++ ':' :: compact value ++ ',' :: compactMembers members

end

def compactText (j : Json) : String := String.ofList j.compact

def newLine (depth : Nat) : List Char := '\n' :: List.replicate (2 * depth) ' '

mutual

/-- The text with one item or member per line, two spaces per level. -/
def pretty (depth : Nat) : Json → List Char
  | array [] => ['[', ']']
  | object [] => ['\x7b', '\x7d']
  | array items => '[' :: prettyItems (depth + 1) items ++ newLine depth ++ [']']
  | object members => '\x7b' :: prettyMembers (depth + 1) members ++ newLine depth ++ ['\x7d']
  | null => "null".toList
  | bool b => (if b then "true" else "false").toList
  | integer n => Number.intText n
  | double x => doubleChars x
  | string s => stringChars s

def prettyItems (depth : Nat) : List Json → List Char
  | [] => []
  | [item] => newLine depth ++ pretty depth item
  | item :: items => newLine depth ++ pretty depth item ++ ',' :: prettyItems depth items

def prettyMembers (depth : Nat) : List (String × Json) → List Char
  | [] => []
  | [(key, value)] => newLine depth ++ stringChars key ++ ':' :: ' ' :: pretty depth value
  | (key, value) :: members =>
    newLine depth ++ stringChars key ++ ':' :: ' ' :: pretty depth value ++
      ',' :: prettyMembers depth members

end

def prettyText (j : Json) : String := String.ofList (j.pretty 0)

end Json
end Outline
