import RegisterMachine.Json.Token
import RegisterMachine.Number.Style
import RegisterMachine.Text.Quoted

/-!
# Typed JSON readers

A reader takes a value of one type off the front of a token sequence. Arrays and objects are
read member by member, so the first fault in the order of reading is the one reported.
-/

namespace RegisterMachine.Json

/-- What stood where something else was wanted. -/
inductive Found where
  | null
  | boolean (value : Bool)
  | integer (value : Int)
  | double (bits : UInt64)
  | string (value : String)
  | sequence
  | map
  deriving DecidableEq

def Found.text : Found → String
  | .null => "null"
  | .boolean value => "boolean `" ++ (if value then "true" else "false") ++ "`"
  | .integer value => "integer `" ++ Text.signedDecimal value ++ "`"
  | .double bits =>
    "floating point `" ++ Number.NumberStyle.jsonDouble.text .binary64 bits.toNat ++ "`"
  | .string value => "string " ++ Text.quoted value
  | .sequence => "sequence"
  | .map => "map"

inductive ReadError where
  /-- The text is not JSON. -/
  | malformed
  | wrongType (found : Found) (expected : String)
  | outOfRange (found : Found) (expected : String)
  | unknownName (name : String)
  | duplicateField (name : String)
  | missingField (name : String)
  deriving DecidableEq

def ReadError.message? : ReadError → Option String
  | .malformed => none
  | .wrongType found expected =>
    some ("invalid type: " ++ found.text ++ ", expected " ++ expected)
  | .outOfRange found expected =>
    some ("invalid value: " ++ found.text ++ ", expected " ++ expected)
  | .unknownName name => some ("unknown name `" ++ name ++ "`")
  | .duplicateField name => some ("duplicate field `" ++ name ++ "`")
  | .missingField name => some ("missing field `" ++ name ++ "`")

abbrev Reader (α : Type) := List Token → Except ReadError (α × List Token)

/-- What a value that starts with a token is; `none` if no value starts with it. -/
def Token.found? : Token → Option Found
  | .null => some .null
  | .boolean value => some (.boolean value)
  | .integer value => some (.integer value)
  | .double bits => some (.double bits)
  | .string value => some (.string value)
  | .openArray => some .sequence
  | .openObject => some .map
  | _ => none

def mismatch (expected : String) (ts : List Token) : ReadError :=
  match ts.head?.bind Token.found? with
  | some found => .wrongType found expected
  | none => .malformed

/-- Members of an array from one on; `fuel` bounds their number. -/
def readMembers {α : Type} (item : Reader α) : Nat → Reader (List α)
  | 0, _ => .error .malformed
  | fuel + 1, ts =>
    match item ts with
    | .error e => .error e
    | .ok (x, .closeArray :: ts) => .ok ([x], ts)
    | .ok (x, .comma :: ts) => (readMembers item fuel ts).map fun (xs, ts) => (x :: xs, ts)
    | .ok _ => .error .malformed

/-- An array. A member takes a token at least, so there are no more members than tokens. -/
def readArray {α : Type} (item : Reader α) : Reader (List α)
  | .openArray :: .closeArray :: ts => .ok ([], ts)
  | .openArray :: ts => readMembers item ts.length ts
  | ts => .error (mismatch "a sequence" ts)

/-- Fields of an object from one on, each taken in by `field`; `fuel` bounds their number. -/
def readFields {σ : Type} (field : σ → String → Reader σ) : Nat → σ → Reader σ
  | fuel + 1, state, .string name :: .colon :: ts =>
    match field state name ts with
    | .error e => .error e
    | .ok (state, .closeObject :: ts) => .ok (state, ts)
    | .ok (state, .comma :: ts) => readFields field fuel state ts
    | .ok _ => .error .malformed
  | _, _, _ => .error .malformed

def readObject {σ : Type} (field : σ → String → Reader σ) (state : σ) : Reader σ
  | .closeObject :: ts => .ok (state, ts)
  | ts => readFields field ts.length state ts

def readOnce {α : Type} (name : String) (old : Option α) (value : Reader α) : Reader (Option α) :=
  fun ts =>
    match old with
    | some _ => .error (.duplicateField name)
    | none => (value ts).map fun (x, ts) => (some x, ts)

/-- One of several names: a string, or an object that maps the name to null. -/
def readName {α : Type} (ofName? : String → Option α) : Reader α := fun ts =>
  let named (name : String) (ts : List Token) : Except ReadError (α × List Token) :=
    match ofName? name with
    | some x => .ok (x, ts)
    | none => .error (.unknownName name)
  match ts with
  | .string name :: ts => named name ts
  | .openObject :: .string name :: .colon :: .null :: .closeObject :: ts => named name ts
  | ts => .error (mismatch "a name" ts)

def readBool : Reader Bool
  | .boolean value :: ts => .ok (value, ts)
  | ts => .error (mismatch "a boolean" ts)

def readUInt64 : Reader UInt64
  | .integer (.ofNat n) :: ts => .ok (.ofNat n, ts)
  | ts => .error (mismatch "an integer of 64 bits" ts)

def readOption {α : Type} (value : Reader α) : Reader (Option α)
  | .null :: ts => .ok (none, ts)
  | ts => (value ts).map fun (x, ts) => (some x, ts)

/-- What encloses a value. -/
inductive Enclosing where
  | array
  | object
  deriving DecidableEq

/-- What comes next inside an enclosing value. -/
inductive Awaiting where
  | value
  | separator
  deriving DecidableEq

def Token.isScalar : Token → Bool
  | .null | .boolean _ | .integer _ | .double _ | .hugeNumber | .string _ | .brokenString => true
  | _ => false

def Token.isString : Token → Bool
  | .string _ | .brokenString => true
  | _ => false

/-- The tokens after one value of any kind, of which the enclosing parts are still open. -/
def skipFrom? : Awaiting → List Enclosing → List Token → Option (List Token)
  | .separator, [], ts => some ts
  | .value, stack, .openArray :: .closeArray :: ts => skipFrom? .separator stack ts
  | .value, stack, .openArray :: ts => skipFrom? .value (.array :: stack) ts
  | .value, stack, .openObject :: .closeObject :: ts => skipFrom? .separator stack ts
  | .value, stack, .openObject :: key :: .colon :: ts =>
    if key.isString then skipFrom? .value (.object :: stack) ts else none
  | .value, stack, t :: ts => if t.isScalar then skipFrom? .separator stack ts else none
  | .separator, .array :: stack, .comma :: ts => skipFrom? .value (.array :: stack) ts
  | .separator, .array :: stack, .closeArray :: ts => skipFrom? .separator stack ts
  | .separator, .object :: stack, .comma :: key :: .colon :: ts =>
    if key.isString then skipFrom? .value (.object :: stack) ts else none
  | .separator, .object :: stack, .closeObject :: ts => skipFrom? .separator stack ts
  | _, _, _ => none

def skipValue {σ : Type} (state : σ) : Reader σ := fun ts =>
  match skipFrom? .value [] ts with
  | some ts => .ok (state, ts)
  | none => .error .malformed

def readText {α : Type} (value : Reader α) (text : String) : Except ReadError α :=
  match value (tokens text.toList) with
  | .ok (x, []) => .ok x
  | .ok _ => .error .malformed
  | .error e => .error e

end RegisterMachine.Json
