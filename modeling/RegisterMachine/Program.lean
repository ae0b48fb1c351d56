import RegisterMachine.Instr
import RegisterMachine.Table

/-!
# Programs

A program is an array of words with the addresses of its labels and functions. Addresses count
words. What stands at an address is found by one function, `Program.fetch?`, that execution and
listings share.
-/

namespace RegisterMachine

/-- An array of words and the symbols in it. -/
structure Program where
  words : Array Word
  /-- Address after each label marker. -/
  labels : Table Nat := .empty
  /-- Address after each function marker. -/
  functions : Table Nat := .empty

/-- What stands at an address. -/
inductive Fetched where
  /-- A word that is no instruction's number. -/
  | unknown (word : Word)
  /-- The start of an instruction that the program ends inside of. -/
  | truncated (op : Opcode) (available : Nat)
  | instr (i : Instr)
  deriving DecidableEq

/-- Words it takes; a cut-off instruction takes all that is left. -/
def Fetched.width : Fetched → Nat
  | .unknown _ => 1
  | .truncated _ available => available
  | .instr i => i.width

namespace Program

def size (p : Program) : Nat := p.words.size

def word? (p : Program) (pc : Nat) : Option Word := p.words[pc]?

def bytes (p : Program) : List UInt8 := p.words.toList.flatMap Word.bytes

/-- What stands at an address; `none` past the end of the program. -/
def fetch? (p : Program) (pc : Nat) : Option Fetched :=
  p.words[pc]?.map fun word =>
    match Opcode.ofId? word.toNat with
    | none => .unknown word
    | some op =>
      match Instr.decode? op (p.words.extract (pc + 1) (pc + op.width)).toList with
      | some i => .instr i
      | none => .truncated op (p.words.size - pc)

theorem lt_size_of_fetch? {p : Program} {pc : Nat} {f : Fetched} (h : p.fetch? pc = some f) :
    pc < p.size := by
  obtain ⟨w, hw, _⟩ := Option.map_eq_some_iff.1 h
  exact (Array.getElem?_eq_some_iff.1 hw).1

theorem width_pos_of_fetch? {p : Program} {pc : Nat} {f : Fetched} (h : p.fetch? pc = some f) :
    0 < f.width := by
  have hlt := lt_size_of_fetch? h
  obtain ⟨w, _, hf⟩ := Option.map_eq_some_iff.1 h
  split at hf
  · subst hf; exact Nat.one_pos
  · split at hf
    · subst hf; exact Nat.succ_pos _
    · subst hf; exact Nat.sub_pos_of_lt hlt

/-- Everything that stands in a program from an address on, with the addresses. -/
def walk (p : Program) (pc : Nat) : List (Nat × Fetched) :=
  match _h : p.fetch? pc with
  | none => []
  | some f => (pc, f) :: p.walk (pc + f.width)
termination_by p.size - pc
decreasing_by
  have := lt_size_of_fetch? _h
  have := width_pos_of_fetch? _h
  omega

end Program

end RegisterMachine
