import Outline.Document.Builtin
import Outline.Document.Projection
import Outline.Json.Parse
import Outline.Value.Target

/-!
# The commands

`check` reads a document and writes it in canonical form or as JSON, `eval` writes the nodes
that an expression yields from the root of a document, and `types` lists the tags.
-/

namespace Outline

namespace Registry

/-- A forest with the texts of its values under a registry. -/
def world (r : Registry) (f : Forest) : Path.World where
  forest := f
  text value := (Document.describe r f value).2

end Registry

namespace Command

inductive Failure
  | outline (error : Error)
  | malformedJson
  | shape (fault : Document.ShapeFault)
  | noInput
  | malformedText

def Failure.message : Failure → String
  | outline error => error.message
  | malformedJson => "Invalid JSON: malformed text"
  | shape fault => "Invalid node JSON: " ++ fault.text
  | noInput => "No input provided. Use --input or pipe Hyperlambda to stdin."
  | malformedText => "IO error: stream did not contain valid UTF-8"

structure CheckOptions where
  input : Option String := none
  /-- Keep comments and write them back as comments. -/
  comments : Bool := false
  syntaxOnly : Bool := false
  json : Bool := false
  fromJson : Bool := false
  deriving Repr

structure EvalOptions where
  expression : String
  input : Option String := none
  json : Bool := false
  deriving Repr

inductive Report
  | syntaxValid
  | outline (text : String)
  | json (json : Json)

def outlined {α : Type} : Except Error α → Except Failure α
  | .ok a => .ok a
  | .error e => .error (.outline e)

def requireInput (input : Option String) : Except Failure String :=
  match input with
  | some source => .ok source
  | none => .error .noInput

def readJson (r : Registry) (source : String) : Except Failure Forest :=
  match Json.parse source with
  | none => .error .malformedJson
  | some json =>
    match Document.ofJson r json with
    | .ok f => .ok f
    | .error (.shape fault) => .error (.shape fault)
    | .error (.literal e) => .error (.outline e)

def runCheck (r : Registry) (o : CheckOptions) : Except Failure Report := do
  let source ← requireInput o.input
  let f ←
    if o.fromJson then readJson r source
    else outlined (Document.parse r.convert o.comments source)
  if o.syntaxOnly then return .syntaxValid
  else if o.json then return .json (Document.toJson r f)
  else return .outline (Document.print r f o.comments)

/-- The expression is compiled before the input is looked at. -/
def runEval (r : Registry) (o : EvalOptions) : Except Failure Report := do
  let expression ← outlined (Expression.parse o.expression)
  let source ← requireInput o.input
  let f ← outlined (Document.parse r.convert false source)
  let nodes ← outlined (((r.world f).evaluate expression Forest.root).result)
  if o.json then return .json (.array (nodes.map (Document.nodeJson r f)))
  else return .outline (Document.printNodes r f false nodes)

end Command

inductive Command
  | check (options : Command.CheckOptions)
  | eval (options : Command.EvalOptions)
  | types
  deriving Repr

namespace Command

/-! ## Arguments -/

/-- One word of the command line, taken apart. -/
inductive Argument
  | flag (name : String)
  | input (text : String)
  | plain (text : String)
  deriving DecidableEq, Repr

/-- An option value may not look like an option itself. -/
def isOption (s : String) : Bool := s.startsWith "-" && s != "-"

/-- Short options may share one dash; the text of an input may follow its letter. -/
def shortOptions : List Char → List String → Option (List Argument × List String)
  | [], rest => some ([], rest)
  | 'i' :: '=' :: text, rest => some ([.input (String.ofList text)], rest)
  | ['i'], text :: rest => if isOption text then none else some ([.input text], rest)
  | ['i'], [] => none
  | 'i' :: text, rest => some ([.input (String.ofList text)], rest)
  | c :: cs, rest => do
    let (args, rest) ← shortOptions cs rest
    return (.flag (String.singleton c) :: args, rest)

/-- One word and the words that belong to it. -/
def takeArgument (word : String) (rest : List String) :
    Option (List Argument × List String) :=
  if word = "--input" then
    match rest with
    | text :: rest => if isOption text then none else some ([.input text], rest)
    | [] => none
  else if word.startsWith "--input=" then some ([.input (String.ofList (word.toList.drop 8))], rest)
  else if word.startsWith "--" then some ([.flag (String.ofList (word.toList.drop 2))], rest)
  else if isOption word then shortOptions (word.toList.drop 1) rest
  else some ([.plain word], rest)

/-- All words; behind `--` every word is plain. The fuel is the number of words. -/
def arguments : Nat → List String → Option (List Argument)
  | 0, _ => some []
  | _ + 1, [] => some []
  | fuel + 1, word :: rest =>
    if word = "--" then some (rest.map .plain)
    else do
      let (args, rest) ← takeArgument word rest
      return args ++ (← arguments fuel rest)

/-- The one input among the arguments, if there is at most one. -/
def onlyInput (args : List Argument) : Option (Option String) :=
  match args.filterMap fun | .input text => some text | _ => none with
  | [] => some none
  | [text] => some (some text)
  | _ => none

def flagsOf (args : List Argument) : List String :=
  args.filterMap fun | .flag name => some name | _ => none

def plainOf (args : List Argument) : List String :=
  args.filterMap fun | .plain text => some text | _ => none

/-- Every flag is known by one of its spellings and given at most once. -/
def flagsAllowed (known : List (List String)) (flags : List String) : Bool :=
  flags.all (fun flag => known.any (·.contains flag)) &&
    known.all fun spellings => (flags.filter spellings.contains).length ≤ 1

def verboseFlag : List String := ["v", "verbose"]

def parseCheck (args : List Argument) : Option Command := do
  let flags := flagsOf args
  let input ← onlyInput args
  let has (spellings : List String) : Bool := flags.any spellings.contains
  let comments := ["c", "comments"]
  if (plainOf args).isEmpty &&
      flagsAllowed [verboseFlag, comments, ["syntax-only"], ["json"], ["from-json"]] flags then
    some (.check
      { input, comments := has comments, syntaxOnly := has ["syntax-only"], json := has ["json"],
        fromJson := has ["from-json"] })
  else none

def parseEval (args : List Argument) : Option Command := do
  let flags := flagsOf args
  let input ← onlyInput args
  match plainOf args with
  | [expression] =>
    if flagsAllowed [verboseFlag, ["json"]] flags then
      some (.eval { expression, input, json := flags.contains "json" })
    else none
  | _ => none

/-- The command that the words of a command line name. -/
def parse (words : List String) : Option Command := do
  match words.dropWhile fun word => word == "-v" || word == "--verbose" with
  | "check" :: rest => parseCheck (← arguments rest.length rest)
  | "eval" :: rest => parseEval (← arguments rest.length rest)
  | "types" :: rest =>
    if rest.all fun word => word == "-v" || word == "--verbose" then some .types else none
  | _ => none

/-! ## Running -/

/-- What a run leaves behind. -/
structure Outcome where
  code : Nat
  stdout : String
  stderr : String
  deriving DecidableEq, Repr

/-- The given input, or else all of standard input, which has to be text. -/
def readInput (input : Option String) (stdin : Option (List UInt8)) :
    Except Failure (Option String) :=
  match input, stdin with
  | some text, _ => .ok (some text)
  | none, none => .ok none
  | none, some bytes =>
    match Text.ofBytes? bytes with
    | some text => .ok (some text)
    | none => .error .malformedText

def Report.text : Report → String
  | syntaxValid => "Syntax is valid\n"
  | outline text => text
  | json j => j.prettyText ++ "\n"

def Outcome.ofReport : Except Failure Report → Outcome
  | .ok report => ⟨0, report.text, ""⟩
  | .error failure => ⟨1, "", failure.message ++ "\n"⟩

/-- Run a command; `stdin` is absent on a terminal. -/
def run (r : Registry) (command : Command) (stdin : Option (List UInt8)) : Outcome :=
  match command with
  | .check o => .ofReport do
    let input ← readInput o.input stdin
    runCheck r { o with input }
  | .eval o => .ofReport do
    let input ← readInput o.input stdin
    runEval r { o with input }
  | .types => ⟨0, String.join (r.tags.map (· ++ "\n")), ""⟩

def runWords (r : Registry) (words : List String) (stdin : Option (List UInt8)) : Outcome :=
  match parse words with
  | some command => run r command stdin
  | none => ⟨2, "", "usage: hl check|eval|types\n"⟩

end Command
end Outline
