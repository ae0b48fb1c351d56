import RegisterMachine.Json.Number

/-!
# JSON tokens

Text as a sequence of tokens. Text that is no token ends the sequence with `Token.malformed`, so
that a reader meets the first fault of a text in the order of reading. Two tokens are sound only
where their value does not matter: a number past the largest double, and a string with half of a
surrogate pair.
-/

namespace RegisterMachine.Json

inductive Token where
  | openArray
  | closeArray
  | openObject
  | closeObject
  | comma
  | colon
  | null
  | boolean (value : Bool)
  | integer (value : Int)
  | double (bits : UInt64)
  /-- A number past the largest double. -/
  | hugeNumber
  | string (value : String)
  /-- A string with half of a surrogate pair. -/
  | brokenString
  /-- Text that is no token; nothing follows. -/
  | malformed
  deriving DecidableEq

def isSpace (c : Char) : Bool := c == ' ' || c == '\n' || c == '\t' || c == '\r'

def punctuation? (c : Char) : Option Token :=
  match c with
  | '[' => some .openArray
  | ']' => some .closeArray
  | '\x7b' => some .openObject
  | '\x7d' => some .closeObject
  | ',' => some .comma
  | ':' => some .colon
  | _ => none

def hexValue? (c : Char) : Option Nat :=
  if '0' ≤ c ∧ c ≤ '9' then some (c.toNat - 48)
  else if 'a' ≤ c ∧ c ≤ 'f' then some (c.toNat - 87)
  else if 'A' ≤ c ∧ c ≤ 'F' then some (c.toNat - 55)
  else none

def hexUnit? (a b c d : Char) : Option Nat := do
  let a ← hexValue? a
  let b ← hexValue? b
  let c ← hexValue? c
  let d ← hexValue? d
  return 4096 * a + 256 * b + 16 * c + d

def isHighSurrogate (u : Nat) : Bool := 0xd800 ≤ u && u < 0xdc00

def isLowSurrogate (u : Nat) : Bool := 0xdc00 ≤ u && u < 0xe000

def pairChar (high low : Nat) : Char :=
  Char.ofNat (0x10000 + 1024 * (high - 0xd800) + (low - 0xdc00))

def escaped? (c : Char) : Option Char :=
  match c with
  | '"' => some '"'
  | '\\' => some '\\'
  | '/' => some '/'
  | 'b' => some '\x08'
  | 'f' => some '\x0c'
  | 'n' => some '\n'
  | 'r' => some '\r'
  | 't' => some '\t'
  | _ => none

/-- The rest of a string after some characters, in reverse, and what follows the string. Half of
a surrogate pair leaves no characters. -/
def lexString? (seen : Option (List Char)) : List Char → Option (Token × List Char)
  | [] => none
  | '"' :: rest =>
    match seen with
    | some cs => some (.string (String.ofList cs.reverse), rest)
    | none => some (.brokenString, rest)
  | '\\' :: 'u' :: a :: b :: c :: d :: '\\' :: 'u' :: a' :: b' :: c' :: d' :: rest =>
    match hexUnit? a b c d with
    | none => none
    | some unit =>
      if isHighSurrogate unit then
        match hexUnit? a' b' c' d' with
        | none => none
        | some low =>
          if isLowSurrogate low then lexString? (seen.map (pairChar unit low :: ·)) rest
          else lexString? none ('\\' :: 'u' :: a' :: b' :: c' :: d' :: rest)
      else if isLowSurrogate unit then
        lexString? none ('\\' :: 'u' :: a' :: b' :: c' :: d' :: rest)
      else
        lexString? (seen.map (Char.ofNat unit :: ·))
          ('\\' :: 'u' :: a' :: b' :: c' :: d' :: rest)
  | '\\' :: 'u' :: a :: b :: c :: d :: rest =>
    match hexUnit? a b c d with
    | none => none
    | some unit =>
      if isHighSurrogate unit || isLowSurrogate unit then lexString? none rest
      else lexString? (seen.map (Char.ofNat unit :: ·)) rest
  | '\\' :: c :: rest =>
    match escaped? c with
    | none => none
    | some c => lexString? (seen.map (c :: ·)) rest
  | c :: rest => if c.toNat < 0x20 then none else lexString? (seen.map (c :: ·)) rest

theorem length_of_lexString? {seen : Option (List Char)} {cs rest : List Char} {t : Token}
    (h : lexString? seen cs = some (t, rest)) : rest.length < cs.length := by
  fun_induction lexString? seen cs <;> simp_all <;> omega

def afterWord? (word : List Char) (cs : List Char) : Option (List Char) :=
  if word.isPrefixOf cs then some (cs.drop word.length) else none

def numberToken : NumberValue → Token
  | .integer value => .integer value
  | .double bits => .double bits
  | .outOfRange => .hugeNumber

def lexToken? (c : Char) (cs : List Char) : Option (Token × List Char) :=
  match punctuation? c with
  | some t => some (t, cs)
  | none =>
    if c = '"' then lexString? (some []) cs
    else if c = 'n' then (afterWord? ['u', 'l', 'l'] cs).map fun rest => (.null, rest)
    else if c = 't' then (afterWord? ['r', 'u', 'e'] cs).map fun rest => (.boolean true, rest)
    else if c = 'f' then
      (afterWord? ['a', 'l', 's', 'e'] cs).map fun rest => (.boolean false, rest)
    else (lexNumber? (c :: cs)).map fun (n, rest) => (numberToken n.value, rest)

theorem length_of_afterWord? {word cs rest : List Char} (h : afterWord? word cs = some rest) :
    rest.length ≤ cs.length := by
  unfold afterWord? at h
  split at h
  · cases h
    simp
  · cases h

theorem length_of_lexToken? {c : Char} {cs rest : List Char} {t : Token}
    (h : lexToken? c cs = some (t, rest)) : rest.length ≤ cs.length := by
  unfold lexToken? at h
  split at h
  · cases h
    exact Nat.le_refl _
  · split at h
    · exact Nat.le_of_lt (length_of_lexString? h)
    · split at h
      · obtain ⟨r, hr, h⟩ := Option.map_eq_some_iff.1 h
        cases h
        exact length_of_afterWord? hr
      · split at h
        · obtain ⟨r, hr, h⟩ := Option.map_eq_some_iff.1 h
          cases h
          exact length_of_afterWord? hr
        · split at h
          · obtain ⟨r, hr, h⟩ := Option.map_eq_some_iff.1 h
            cases h
            exact length_of_afterWord? hr
          · obtain ⟨⟨n, r⟩, hr, h⟩ := Option.map_eq_some_iff.1 h
            cases h
            exact Nat.le_of_lt_succ (length_of_lexNumber? hr)

def tokens : List Char → List Token
  | [] => []
  | c :: cs =>
    if isSpace c then tokens cs
    else match _h : lexToken? c cs with
      | none => [.malformed]
      | some (t, rest) => t :: tokens rest
termination_by cs => cs.length
decreasing_by
  · simp
  · have := length_of_lexToken? _h
    simp only [List.length_cons]
    omega

end RegisterMachine.Json
