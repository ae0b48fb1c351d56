import RegisterMachine.Json.Word
import RegisterMachine.Symbolic

/-!
# Symbolic programs in JSON

A program is an array of objects such as `{"op":"LOAD_INT","operands":[0,5]}`. Operands may be
left out, fields with other names are passed over, and an array of mnemonic and operands may
stand for the object.
-/

namespace RegisterMachine

namespace SymbolicInstr

/-- The fields of an instruction read so far. -/
structure Fields where
  op : Option Opcode := none
  operands : Option (List Word) := none

def Fields.read (f : Fields) (name : String) : Json.Reader Fields := fun ts =>
  if name = "op" then
    (Json.readOnce name f.op (Json.readName Opcode.ofMnemonic?) ts).map fun (op, ts) =>
      ({ f with op := op }, ts)
  else if name = "operands" then
    (Json.readOnce name f.operands (Json.readArray Word.readJson) ts).map fun (ws, ts) =>
      ({ f with operands := ws }, ts)
  else Json.skipValue f ts

def readObject : Json.Reader SymbolicInstr := fun ts =>
  match Json.readObject Fields.read {} ts with
  | .error e => .error e
  | .ok (⟨none, _⟩, _) => .error (.missingField "op")
  | .ok (⟨some op, operands⟩, ts) => .ok (⟨op, operands.getD []⟩, ts)

def readSequence : Json.Reader SymbolicInstr := fun ts =>
  match Json.readName Opcode.ofMnemonic? ts with
  | .error e => .error e
  | .ok (op, .closeArray :: ts) => .ok (⟨op, []⟩, ts)
  | .ok (op, .comma :: ts) =>
    match Json.readArray Word.readJson ts with
    | .error e => .error e
    | .ok (ws, .closeArray :: ts) => .ok (⟨op, ws⟩, ts)
    | .ok _ => .error .malformed
  | .ok _ => .error .malformed

def readJson : Json.Reader SymbolicInstr
  | .openObject :: ts => readObject ts
  | .openArray :: ts => readSequence ts
  | ts => .error (Json.mismatch "an instruction" ts)

def toJson (i : SymbolicInstr) : String :=
  "\x7b\"op\":\"" ++ i.op.name ++ "\",\"operands\":" ++ Word.arrayToJson i.operands ++ "\x7d"

def programToJson (program : List SymbolicInstr) : String :=
  "[" ++ Text.join "," (program.map toJson) ++ "]"

def parseProgram (text : String) : Except Json.ReadError (List SymbolicInstr) :=
  Json.readText (Json.readArray readJson) text

end SymbolicInstr

end RegisterMachine
