import RegisterMachine.Numeric
import RegisterMachine.Output

/-!
# Result sink

Collected entries as text, one line each: either `id: value`, or a JSON object that also names
the kind and the context.
-/

namespace RegisterMachine

inductive SinkFormat where
  | text
  | jsonLines
  deriving DecidableEq, Repr

namespace Payload

/-- Floats are written out in full with a decimal point, lists in brackets. -/
def text : Payload → String
  | .int value => Text.signedDecimal value.toInt
  | .float bits => bits.floatText
  | .list items => "[" ++ Text.join ", " (items.map Word.floatText) ++ "]"

/-- A float as a JSON number; the non-finite are null. -/
def floatJson (w : Word) : String := Number.NumberStyle.jsonSingle.text .binary32 w.toNat

def json : Payload → String
  | .int value => Text.signedDecimal value.toInt
  | .float bits => floatJson bits
  | .list items => "[" ++ Text.join "," (items.map floatJson) ++ "]"

end Payload

namespace Entry

/-- `id: value` -/
def textLine (e : Entry) : String := Text.decimal e.id.toNat ++ ": " ++ e.payload.text

def jsonLine (e : Entry) : String :=
  "\x7b\"id\":" ++ Text.decimal e.id.toNat ++ ",\"kind\":\"" ++ e.payload.kindText
    ++ "\",\"value\":" ++ e.payload.json ++ ",\"context\":\"" ++ e.context.text ++ "\"\x7d"

end Entry

namespace SinkFormat

def line : SinkFormat → Entry → String
  | .text, e => e.textLine
  | .jsonLines, e => e.jsonLine

/-- Writes the entries behind what is written already, each as a line ended by a newline. -/
def writeTo (f : SinkFormat) (entries : List Entry) (written : String) : String :=
  entries.foldl (fun written e => written ++ f.line e ++ "\n") written

def render (f : SinkFormat) (entries : List Entry) : String := f.writeTo entries ""

theorem toList_writeTo (f : SinkFormat) (entries : List Entry) (written : String) :
    (f.writeTo entries written).toList =
      written.toList ++ entries.flatMap fun e => (f.line e).toList ++ ['\n'] := by
  induction entries generalizing written with
  | nil => simp [writeTo]
  | cons e entries ih =>
    rw [writeTo, List.foldl_cons, ← writeTo, ih, List.flatMap_cons]
    simp

theorem toList_render (f : SinkFormat) (entries : List Entry) :
    (f.render entries).toList = entries.flatMap fun e => (f.line e).toList ++ ['\n'] := by
  rw [render, toList_writeTo]
  simp

end SinkFormat

end RegisterMachine
