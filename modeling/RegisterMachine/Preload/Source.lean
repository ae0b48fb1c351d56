import RegisterMachine.Fault
import RegisterMachine.Number.Literal
import RegisterMachine.Table
import RegisterMachine.Text.Blank
import RegisterMachine.Text.Split

/-!
# Preload sources

Text from which lists are filled before a run. Each line maps a key to floats, as in
`3: [1.0, 2.5]`. Blank lines and lines that start with `#` are skipped, blanks around every
part are ignored, and one comma may trail. A later line replaces an earlier one with its key.
-/

namespace RegisterMachine.Preload

abbrev Source := Table (List Word)

inductive LineFault where
  | missingColon
  | invalidKey (text : String)
  | missingBrackets
  | emptyValue
  | invalidFloat (text : String)
  deriving DecidableEq

def LineFault.message : LineFault → String
  | .missingColon => "expected `key: [values]`"
  | .invalidKey text => "invalid key `" ++ text ++ "`"
  | .missingBrackets => "values must be enclosed in `[` and `]`"
  | .emptyValue => "empty value"
  | .invalidFloat text => "invalid float `" ++ text ++ "`"

/-- A key: decimal digits, perhaps after a plus sign, for a number of 32 bits. -/
def readKey? (cs : List Char) : Option UInt32 :=
  let digits := match cs with
    | '+' :: rest => rest
    | _ => cs
  (Text.readDecimal? digits).bind fun n => if n < 4294967296 then some (.ofNat n) else none

def readValue (cs : List Char) : Except LineFault Word :=
  if cs.isEmpty then .error .emptyValue
  else match Number.BinaryFormat.binary32.readLiteral? cs with
    | some bits => .ok (.ofNat bits)
    | none => .error (.invalidFloat (String.ofList cs))

/-- The pieces between commas, without the empty one after a trailing comma. -/
def items (body : List Char) : List (List Char) :=
  let parts := (Text.splitAll ',' body).map Text.trim
  if parts.getLast? = some [] then parts.dropLast else parts

def readValues (body : List Char) : Except LineFault (List Word) :=
  if body.isEmpty then .ok [] else (items body).mapM readValue

def readLine (line : List Char) : Except LineFault (UInt32 × List Word) :=
  match Text.splitFirst? ':' line with
  | none => .error .missingColon
  | some (key, rest) =>
    match readKey? (Text.trim key) with
    | none => .error (.invalidKey (String.ofList (Text.trim key)))
    | some key =>
      match Text.enclosed? '[' ']' (Text.trim rest) with
      | none => .error .missingBrackets
      | some body => (readValues (Text.trim body)).map fun values => (key, values)

def isSkipped (line : List Char) : Bool := line.isEmpty || line.head? == some '#'

def readLines (source : Source) (number : Nat) : List (List Char) → Except Fault Source
  | [] => .ok source
  | raw :: rest =>
    let line := Text.trim raw
    if isSkipped line then readLines source (number + 1) rest
    else match readLine line with
      | .ok (key, values) => readLines (source.insert key values) (number + 1) rest
      | .error fault => .error (.preload number fault.message)

def parse (text : String) : Except Fault Source := readLines .empty 1 (Text.lines text.toList)

end RegisterMachine.Preload
