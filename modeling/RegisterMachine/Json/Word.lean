import RegisterMachine.Json.Reader
import RegisterMachine.Word

/-!
# Words in JSON

A word is written as its unsigned bits. It is read from any integer that is a bit pattern or a
signed value.
-/

namespace RegisterMachine

namespace Word

def integerRange : String := "an integer between -2147483648 and 4294967295"

def ofInteger (v : Int) : Except Json.ReadError Word :=
  match ofInteger? v with
  | some w => .ok w
  | none => .error (.outOfRange (.integer v) integerRange)

def readJson : Json.Reader Word
  | .integer v :: ts => (ofInteger v).map fun w => (w, ts)
  | ts => .error (Json.mismatch integerRange ts)

def toJson (w : Word) : String := Text.decimal w.toNat

def arrayToJson (ws : List Word) : String := "[" ++ Text.join "," (ws.map toJson) ++ "]"

def parseJsonArray (text : String) : Except Json.ReadError (List Word) :=
  Json.readText (Json.readArray readJson) text

end Word

end RegisterMachine
