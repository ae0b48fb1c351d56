import RegisterMachine.Text.Numeral
import RegisterMachine.Text.Printable

/-!
# Quoted text

Text as a message shows it: between double quotes, with a backslash before quotes and
backslashes, short escapes for common controls, and the code point of every other character
that does not print.
-/

namespace RegisterMachine.Text

def quotedChar (c : Char) : String :=
  match c with
  | '"' => "\\\""
  | '\\' => "\\\\"
  | '\n' => "\\n"
  | '\r' => "\\r"
  | '\t' => "\\t"
  | '\x00' => "\\0"
  | _ =>
    if isPrintable c then String.singleton c
    else "\\u\x7b" ++ hexadecimal 1 c.toNat ++ "\x7d"

def quoted (text : String) : String :=
  "\"" ++ String.join (text.toList.map quotedChar) ++ "\""

end RegisterMachine.Text
