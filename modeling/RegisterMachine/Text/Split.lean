/-!
# Splitting text

Cutting a character sequence at separators: at the first one, at every one, and into lines.
-/

namespace RegisterMachine.Text

/-- What stands before and after the first separator; `none` if there is no separator. -/
def splitFirst? (separator : Char) : List Char → Option (List Char × List Char)
  | [] => none
  | c :: cs =>
    if c = separator then some ([], cs)
    else (splitFirst? separator cs).map fun (before, after) => (c :: before, after)

/-- The pieces between separators; there is one more piece than there are separators. -/
def splitAll (separator : Char) : List Char → List (List Char)
  | [] => [[]]
  | c :: cs =>
    if c = separator then [] :: splitAll separator cs
    else match splitAll separator cs with
      | [] => [[c]]
      | piece :: pieces => (c :: piece) :: pieces

def dropCarriageReturn (line : List Char) : List Char :=
  if line.getLast? = some '\r' then line.dropLast else line

/-- Lines of a text. Each newline ends a line, together with a carriage return right before it;
what follows the last newline is a line only if it is not empty. -/
def lines (cs : List Char) : List (List Char) :=
  let pieces := splitAll '\n' cs
  let last := pieces.getLast?.getD []
  pieces.dropLast.map dropCarriageReturn ++ (if last.isEmpty then [] else [last])

/-- The text between an opening and a closing character that enclose all of it. -/
def enclosed? (first last : Char) : List Char → Option (List Char)
  | [] => none
  | c :: cs => if c = first ∧ cs.getLast? = some last then some cs.dropLast else none

theorem splitAll_ne_nil (separator : Char) (cs : List Char) : splitAll separator cs ≠ [] := by
  cases cs with
  | nil => simp [splitAll]
  | cons c cs =>
    simp only [splitAll]
    split
    · simp
    · split <;> simp

end RegisterMachine.Text
