import RegisterMachine.Config
import RegisterMachine.Json.Reader

/-!
# Configurations in JSON

A configuration is an object; the limit may be left out or null, and fields with other names are
passed over. An array of all four values in their order may stand for the object.
-/

namespace RegisterMachine

def ExecutionMode.ofName? (name : String) : Option ExecutionMode :=
  if name = "sequential" then some .sequential
  else if name = "fan_out" then some .fanOut
  else none

namespace Config

/-- The fields of a configuration read so far. -/
structure Fields where
  mode : Option ExecutionMode := none
  seed : Option UInt64 := none
  maxInstructions : Option (Option UInt64) := none
  parallel : Option Bool := none

def Fields.read (f : Fields) (name : String) : Json.Reader Fields := fun ts =>
  if name = "mode" then
    (Json.readOnce name f.mode (Json.readName ExecutionMode.ofName?) ts).map fun (x, ts) =>
      ({ f with mode := x }, ts)
  else if name = "seed" then
    (Json.readOnce name f.seed Json.readUInt64 ts).map fun (x, ts) => ({ f with seed := x }, ts)
  else if name = "max_instructions" then
    (Json.readOnce name f.maxInstructions (Json.readOption Json.readUInt64) ts).map
      fun (x, ts) => ({ f with maxInstructions := x }, ts)
  else if name = "parallel" then
    (Json.readOnce name f.parallel Json.readBool ts).map fun (x, ts) =>
      ({ f with parallel := x }, ts)
  else Json.skipValue f ts

def Fields.finish (f : Fields) : Except Json.ReadError Config :=
  match f.mode, f.seed, f.parallel with
  | none, _, _ => .error (.missingField "mode")
  | some _, none, _ => .error (.missingField "seed")
  | some _, some _, none => .error (.missingField "parallel")
  | some mode, some seed, some parallel =>
    .ok ⟨mode, seed, f.maxInstructions.getD none, parallel⟩

def expectComma : List Json.Token → Except Json.ReadError (List Json.Token)
  | .comma :: ts => .ok ts
  | _ => .error .malformed

def readSequence : Json.Reader Config := fun ts => do
  let (mode, ts) ← Json.readName ExecutionMode.ofName? ts
  let (seed, ts) ← expectComma ts >>= Json.readUInt64
  let (maxInstructions, ts) ← expectComma ts >>= Json.readOption Json.readUInt64
  let (parallel, ts) ← expectComma ts >>= Json.readBool
  match ts with
  | .closeArray :: ts => return (⟨mode, seed, maxInstructions, parallel⟩, ts)
  | _ => throw .malformed

def readJson : Json.Reader Config
  | .openObject :: ts => do
    let (fields, ts) ← Json.readObject Fields.read {} ts
    let config ← fields.finish
    return (config, ts)
  | .openArray :: ts => readSequence ts
  | ts => .error (Json.mismatch "a configuration" ts)

def parseJson (text : String) : Except Json.ReadError Config := Json.readText readJson text

end Config

end RegisterMachine
