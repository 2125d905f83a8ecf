/-
  Reading the command line. A command takes words in order, options that carry a value, as in
  `--amount 5` or `--amount=5`, and switches. Options may stand anywhere; a lone `--` ends them.
  Anything else that starts with a dash is refused, and so is an option given twice, unless it is
  one whose values add up.
-/

namespace SpendScript

namespace Command

/-- The options that a command knows. -/
structure OptionTable where
  valued : List String
  switches : List String

/-- What a command was given, each part in order. -/
structure Given where
  words : List String := []
  values : List (String × String) := []
  switches : List String := []

/-- An argument that may not be the value of the option before it: a dash and more. -/
def isOptionLike (arg : String) : Bool :=
  match arg.toList with
  | '-' :: _ :: _ => true
  | _ => false

/-- An option argument cut at its first equals sign. -/
def splitOption (option : List Char) : String × Option String :=
  let name := option.takeWhile (· ≠ '=')
  match option.dropWhile (· ≠ '=') with
  | [] => (String.ofList name, none)
  | _ :: value => (String.ofList name, some (String.ofList value))

/-- Sorts arguments into words, values and switches, if all of them are understood. -/
def scan (table : OptionTable) : List String → Option Given
  | [] => some {}
  | arg :: rest =>
    match arg.toList with
    | ['-', '-'] => some { words := rest }
    | '-' :: '-' :: option =>
      match splitOption option with
      | (name, some value) =>
        if table.valued.contains name && value ≠ "" then
          (scan table rest).map fun g => { g with values := (name, value) :: g.values }
        else none
      | (name, none) =>
        if table.switches.contains name then
          (scan table rest).map fun g => { g with switches := name :: g.switches }
        else if table.valued.contains name then
          match rest with
          | value :: rest =>
            if isOptionLike value then none
            else (scan table rest).map fun g => { g with values := (name, value) :: g.values }
          | [] => none
        else none
    | '-' :: _ :: _ => none
    | _ => (scan table rest).map fun g => { g with words := arg :: g.words }

/-- A number below 2⁶⁴: decimal digits, with a plus sign in front or not. -/
def readNumber? (text : String) : Option Nat :=
  let digits := match text.toList with
    | '+' :: digits => digits
    | digits => digits
  if digits.isEmpty || !digits.all Char.isDigit then none
  else
    let n := digits.foldl (fun n c => 10 * n + (c.toNat - 48)) 0
    if n < 18446744073709551616 then some n else none

namespace Given

/-- All values of an option. -/
def valuesOf (g : Given) (name : String) : List String :=
  (g.values.filter fun v => v.1 = name).map (·.2)

/-- The number an option gives, which may be given once or not at all. -/
def number? (g : Given) (name : String) : Option (Option Nat) :=
  match g.valuesOf name with
  | [] => some none
  | [value] => (readNumber? value).map some
  | _ => none

/-- The numbers an option gives, separated by commas or over several uses; `ifNone` when it is not
    used. -/
def numbers? (g : Given) (name : String) (ifNone : List Nat) : Option (List Nat) :=
  match g.valuesOf name with
  | [] => some ifNone
  | values => (values.flatMap fun v => v.splitOn ",").mapM readNumber?

/-- Whether no switch is given twice. -/
def switchesDistinct (g : Given) : Bool := decide g.switches.Nodup

/-- Whether a switch is given. -/
def has (g : Given) (name : String) : Bool := g.switches.contains name

end Given

end Command

end SpendScript
