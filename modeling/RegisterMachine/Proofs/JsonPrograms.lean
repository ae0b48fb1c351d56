import Mathlib.Data.List.Forall2
import RegisterMachine.Json.Symbolic
import RegisterMachine.Proofs.JsonTokens

/-!
# Programs through JSON

A program written as JSON is read back as itself, whether an operand stands as its bits or as its
signed value and whether an empty list of operands is written or left out. Both follow from what
a reader makes of any written program: which integers it accepts, and the words they denote.
-/

namespace RegisterMachine

namespace Json

variable {α β : Type} {item : Reader α} {ts us rest rest' : List Token} {ys : List α}

/-- Tokens that a reader takes as one value whatever follows, and the values it may take them
for. They do not begin as the end of an array does. -/
structure Reads (item : Reader α) (ts : List Token) (value : α → Prop) : Prop where
  opens : ∃ t us, ts = t :: us ∧ t ≠ .closeArray
  reads : ∀ rest y rest', item (ts ++ rest) = .ok (y, rest') ↔ value y ∧ rest' = rest

variable {value : α → Prop}

theorem Reads.outcome (h : Reads item ts value) (rest : List Token) :
    (∃ e, item (ts ++ rest) = .error e ∧ ∀ y, ¬ value y) ∨
      ∃ y, item (ts ++ rest) = .ok (y, rest) ∧ ∀ z, value z ↔ z = y := by
  cases hitem : item (ts ++ rest) with
  | error e =>
    refine .inl ⟨e, rfl, fun y hy => ?_⟩
    have hok := (h.reads rest y rest).2 ⟨hy, rfl⟩
    rw [hitem] at hok
    cases hok
  | ok result =>
    obtain ⟨y, left⟩ := result
    obtain ⟨hy, rfl⟩ := (h.reads rest y left).1 hitem
    refine .inr ⟨y, rfl, fun z => ⟨fun hz => ?_, fun hz => hz ▸ hy⟩⟩
    have hok := (h.reads left z left).2 ⟨hz, rfl⟩
    rw [hitem] at hok
    cases hok
    rfl

theorem readMembers_last (h : Reads item ts value) (fuel : Nat) :
    readMembers item (fuel + 1) (ts ++ .closeArray :: rest) = .ok (ys, rest') ↔
      (∃ y, value y ∧ ys = [y]) ∧ rest' = rest := by
  rcases h.outcome (.closeArray :: rest) with ⟨e, hitem, hvalue⟩ | ⟨y, hitem, hvalue⟩
  · simp [readMembers, hitem, hvalue]
  · simp [readMembers, hitem, hvalue, eq_comm]

theorem readMembers_comma (h : Reads item ts value) (fuel : Nat) :
    readMembers item (fuel + 1) (ts ++ .comma :: us) = .ok (ys, rest) ↔
      ∃ y zs, value y ∧ readMembers item fuel us = .ok (zs, rest) ∧ ys = y :: zs := by
  rcases h.outcome (.comma :: us) with ⟨e, hitem, hvalue⟩ | ⟨y, hitem, hvalue⟩
  · simp [readMembers, hitem, hvalue]
  · cases hmembers : readMembers item fuel us with
    | error e => simp [readMembers, hitem, hmembers, Except.map]
    | ok result =>
      obtain ⟨zs, left⟩ := result
      simp only [readMembers, hitem, hmembers, Except.map, hvalue, Except.ok.injEq, Prod.mk.injEq]
      constructor
      · rintro ⟨rfl, rfl⟩
        exact ⟨y, zs, rfl, ⟨rfl, rfl⟩, rfl⟩
      · rintro ⟨_, _, rfl, ⟨rfl, rfl⟩, rfl⟩
        exact ⟨rfl, rfl⟩

variable {toks : β → List Token} {denotes : β → α → Prop}

theorem readMembers_separated {x : β} {xs : List β}
    (h : ∀ z ∈ x :: xs, Reads item (toks z) (denotes z)) {fuel : Nat} (hfuel : xs.length ≤ fuel)
    (ys : List α) :
    readMembers item (fuel + 1) (separated ((x :: xs).map toks) ++ .closeArray :: rest) =
        .ok (ys, rest') ↔
      List.Forall₂ denotes (x :: xs) ys ∧ rest' = rest := by
  have hx := h x List.mem_cons_self
  induction xs generalizing x fuel ys with
  | nil =>
    rw [List.map_cons, List.map_nil, separated, readMembers_last hx, List.forall₂_cons_left_iff]
    simp
  | cons z xs ih =>
    obtain ⟨fuel, rfl⟩ : ∃ n, fuel = n + 1 := ⟨fuel - 1, by
      have hpos := Nat.lt_of_lt_of_le (Nat.succ_pos _) hfuel
      omega⟩
    have hz := h z (List.mem_cons_of_mem _ List.mem_cons_self)
    have hrest (zs : List α) :=
      ih (fun w hw => h w (List.mem_cons_of_mem _ hw)) (Nat.le_of_succ_le_succ hfuel) zs hz
    have hsplit : separated ((x :: z :: xs).map toks) =
        toks x ++ .comma :: separated ((z :: xs).map toks) := rfl
    rw [hsplit, List.append_assoc, List.cons_append, readMembers_comma hx,
      List.forall₂_cons_left_iff]
    simp only [hrest]
    constructor
    · rintro ⟨y, zs, hy, ⟨hzs, rfl⟩, rfl⟩
      exact ⟨⟨y, zs, hy, hzs, rfl⟩, rfl⟩
    · rintro ⟨⟨y, zs, hy, hzs, rfl⟩, rfl⟩
      exact ⟨y, zs, hy, ⟨hzs, rfl⟩, rfl⟩

theorem length_le_separated (tss : List (List Token)) :
    tss.length ≤ (separated tss).length + 1 := by
  fun_induction separated tss
  case case1 => simp
  case case2 ts => simp
  case case3 ts rest _ ih =>
    simp only [List.length_cons, List.length_append]
    omega

theorem reads_array {xs : List β} (h : ∀ x ∈ xs, Reads item (toks x) (denotes x)) :
    Reads (readArray item) (.openArray :: (separated (xs.map toks) ++ [.closeArray]))
      (List.Forall₂ denotes xs) where
  opens := ⟨_, _, rfl, by decide⟩
  reads := by
    intro rest ys rest'
    rw [List.cons_append, List.append_assoc, List.singleton_append]
    cases xs with
    | nil => simp [separated, readArray, eq_comm]
    | cons x xs =>
      obtain ⟨t, us, hts, ht⟩ := (h x List.mem_cons_self).opens
      obtain ⟨us', hseparated⟩ : ∃ us', separated ((x :: xs).map toks) = t :: us' := by
        cases xs with
        | nil => exact ⟨us, by simp [separated, hts]⟩
        | cons z zs => exact ⟨us ++ .comma :: separated ((z :: zs).map toks), by
            simp [separated, hts]⟩
      have hlength := length_le_separated ((x :: xs).map toks)
      obtain ⟨fuel, hfuel⟩ : ∃ n, (separated ((x :: xs).map toks) ++ .closeArray :: rest).length =
          n + 1 := ⟨_, List.length_append⟩
      have hle : xs.length ≤ fuel := by
        simp only [List.length_map, List.length_cons, List.length_append] at hlength hfuel
        omega
      rw [← readMembers_separated h hle, ← hfuel, hseparated, List.cons_append, readArray]
      intro us'' heq
      exact ht (List.cons.inj heq).1

theorem readText_eq_ok {text : String} (hspells : Spells text.toList ts)
    (hreads : Reads item ts value) {y : α} : readText item text = .ok y ↔ value y := by
  have htokens := hspells [] endsNumber_nil
  have hend : tokens [] = [] := by rw [tokens]
  rw [List.append_nil, hend] at htokens
  unfold readText
  rw [htokens]
  rcases hreads.outcome [] with ⟨e, hread, hnone⟩ | ⟨z, hread, hvalue⟩
  · rw [hread]
    simp [hnone]
  · rw [hread]
    simp [hvalue, eq_comm]

end Json

/-! ### Operands -/

/-- What an integer stands for as an operand. -/
def StandsFor (v : Int) (w : Word) : Prop :=
  -2147483648 ≤ v ∧ v ≤ 4294967295 ∧ (w.toNat : Int) = v % 4294967296

namespace Word

theorem ofUnsigned?_eq_some (n : Nat) (w : Word) :
    ofUnsigned? n = some w ↔ w.toNat = n := by
  unfold ofUnsigned?
  split
  case isTrue hn =>
    rw [Option.some.injEq]
    constructor
    · rintro rfl
      exact toNat_ofNat_of_lt hn
    · rintro rfl
      exact ofNat_toNat w
  case isFalse hn =>
    have hlt := w.toNat_lt
    simp only [UInt32.size] at hn
    simp only [reduceCtorEq, false_iff]
    omega

theorem toNat_ofInt32_ofInt (v : Int) : ((ofInt32 (.ofInt v)).toNat : Int) = v % 4294967296 := by
  have hbits : (ofInt32 (.ofInt v)).toNat = (v % 4294967296).toNat := BitVec.toNat_ofInt v
  rw [hbits]
  omega

theorem ofSigned?_eq_some_of_neg {v : Int} (hneg : v < 0) (w : Word) :
    ofSigned? v = some w ↔ StandsFor v w := by
  have hmin : Int32.minValue.toInt = -2147483648 := rfl
  have hmax : Int32.maxValue.toInt = 2147483647 := rfl
  rw [ofSigned?, if_neg (by omega), StandsFor, hmin, hmax]
  split
  case isTrue hrange =>
    have hvalue := toNat_ofInt32_ofInt v
    rw [Option.some.injEq]
    constructor
    · rintro rfl
      exact ⟨hrange.1, by omega, hvalue⟩
    · rintro ⟨_, _, hw⟩
      have hnat : (ofInt32 (.ofInt v)).toNat = w.toNat := by omega
      rw [← ofNat_toNat (ofInt32 (.ofInt v)), hnat, ofNat_toNat]
  case isFalse hrange =>
    simp only [reduceCtorEq, false_iff]
    intro h
    exact hrange ⟨h.1, by omega⟩

/-- The words that bit patterns and signed values denote are those of one range of integers. -/
theorem ofInteger?_eq_some (v : Int) (w : Word) : ofInteger? v = some w ↔ StandsFor v w := by
  cases v with
  | ofNat n =>
    rw [ofInteger?, ofUnsigned?_eq_some, StandsFor, Int.ofNat_eq_natCast]
    have hlt := w.toNat_lt
    omega
  | negSucc n => exact ofSigned?_eq_some_of_neg (Int.negSucc_lt_zero n) w

theorem readJson_integer (v : Int) (w : Word) (rest rest' : List Json.Token) :
    readJson (.integer v :: rest) = .ok (w, rest') ↔ StandsFor v w ∧ rest' = rest := by
  rw [← ofInteger?_eq_some]
  cases hv : ofInteger? v with
  | none => simp [readJson, ofInteger, hv, Except.map]
  | some u => simp [readJson, ofInteger, hv, Except.map, eq_comm]

/-- An operand is read from an integer as the word it stands for, and not at all if it stands for
none. -/
theorem reads_integer (v : Int) : Json.Reads readJson [Json.integerToken v] (StandsFor v) where
  opens := ⟨_, _, rfl, by
    unfold Json.integerToken Json.numberToken
    split <;> exact Json.Token.noConfusion⟩
  reads := by
    intro rest w rest'
    have hnot (hne : (Json.numeral v).value ≠ .integer v) : ¬ StandsFor v w := by
      rintro ⟨hlow, hhigh, _⟩
      exact hne (Json.value_numeral (by omega) (by omega))
    rw [List.singleton_append, Json.integerToken]
    -- a number too long for 64 bits is no integer any more, but it is far out of range
    cases hvalue : (Json.numeral v).value with
    | integer u =>
      obtain rfl := Json.eq_of_value_numeral hvalue
      exact readJson_integer u w rest rest'
    | double bits => simp [hnot (by simp [hvalue]), Json.numberToken, readJson]
    | outOfRange => simp [hnot (by simp [hvalue]), Json.numberToken, readJson]

theorem standsFor_bits (w : Word) : StandsFor w.toNat w := by
  have hlt := w.toNat_lt
  refine ⟨by omega, by omega, ?_⟩
  rw [Int.emod_eq_of_lt (by omega) (by omega)]

theorem standsFor_signed (w : Word) : StandsFor w.toInt32.toInt w := by
  have hlt := w.toNat_lt
  have hsigned : w.toInt32.toInt =
      if 2 * w.toNat < 4294967296 then (w.toNat : Int) else (w.toNat : Int) - 4294967296 :=
    BitVec.toInt_eq_toNat_cond w.bits.toBitVec
  unfold StandsFor
  split at hsigned <;> omega

end Word

/-! ### Instructions -/

/-- An instruction as written: a mnemonic, and operands unless they are left out. -/
structure WrittenInstr where
  op : Opcode
  operands : Option (List Int)

namespace WrittenInstr

def json (w : WrittenInstr) : String :=
  match w.operands with
  | none => "\x7b\"op\":\"" ++ w.op.name ++ "\"\x7d"
  | some vs =>
    "\x7b\"op\":\"" ++ w.op.name ++ "\",\"operands\":" ++
      ("[" ++ Text.join "," (vs.map Text.signedDecimal) ++ "]") ++ "\x7d"

def operandTokens (vs : List Int) : List Json.Token :=
  .openArray :: (Json.separated (vs.map fun v => [Json.integerToken v]) ++ [.closeArray])

def tokens (w : WrittenInstr) : List Json.Token :=
  match w.operands with
  | none => [.openObject, .string "op", .colon, .string w.op.name, .closeObject]
  | some vs =>
    [.openObject, .string "op", .colon, .string w.op.name, .comma, .string "operands", .colon] ++
      operandTokens vs ++ [.closeObject]

def Denotes (w : WrittenInstr) (i : SymbolicInstr) : Prop :=
  i.op = w.op ∧ List.Forall₂ StandsFor (w.operands.getD []) i.operands

theorem denotes_iff {w : WrittenInstr} {i : SymbolicInstr} :
    w.Denotes i ↔ ∃ ws, List.Forall₂ StandsFor (w.operands.getD []) ws ∧ i = ⟨w.op, ws⟩ := by
  obtain ⟨op, operands⟩ := i
  constructor
  · rintro ⟨rfl, hwords⟩
    exact ⟨operands, hwords, rfl⟩
  · rintro ⟨ws, hwords, heq⟩
    cases heq
    exact ⟨rfl, hwords⟩

end WrittenInstr

theorem Opcode.isPlain_name (op : Opcode) : ∀ c ∈ op.name.toList, Json.isPlain c = true := by
  have key : ∀ op ∈ Opcode.all, op.name.toList.all Json.isPlain = true := by
    decide +kernel
  exact List.all_eq_true.1 (key op (mem_all op))

namespace WrittenInstr

theorem spells (w : WrittenInstr) : Json.Spells w.json.toList w.tokens := by
  have hop : "op".toList.all Json.isPlain = true := by decide
  have hoperands : "operands".toList.all Json.isPlain = true := by decide
  have hclose : Json.Spells ['\x7d'] [.closeObject] := Json.spells_nil.mark rfl rfl
  obtain ⟨op, operands⟩ := w
  cases operands with
  | none =>
    have hname := hclose.name op.isPlain_name
    have hall := ((hname.mark (c := ':') rfl rfl).name (List.all_eq_true.1 hop)).mark (c := '\x7b') rfl rfl
    simpa [json, tokens] using hall
  | some vs =>
    have harray := Json.spells_array (fun v (_ : v ∈ vs) => Json.spells_integer v)
    have hend := harray.append rfl hclose
    have hfield := ((hend.mark (c := ':') rfl rfl).name (List.all_eq_true.1 hoperands)).mark (c := ',') rfl rfl
    have hname := hfield.name op.isPlain_name
    have hall := ((hname.mark (c := ':') rfl rfl).name (List.all_eq_true.1 hop)).mark (c := '\x7b') rfl rfl
    simpa [json, tokens, operandTokens] using hall

theorem read_op (op : Opcode) (ts : List Json.Token) :
    SymbolicInstr.Fields.read {} "op" (.string op.name :: ts) = .ok (⟨some op, none⟩, ts) := by
  simp only [SymbolicInstr.Fields.read, if_true, Json.readOnce, Json.readName,
    op.ofMnemonic?_name, Except.map]

theorem read_operands (op : Opcode) (ts : List Json.Token) :
    SymbolicInstr.Fields.read ⟨some op, none⟩ "operands" ts =
      (Json.readArray Word.readJson ts).map fun (ws, ts) => (⟨some op, some ws⟩, ts) := by
  simp only [SymbolicInstr.Fields.read, String.reduceEq, if_false, if_true, Json.readOnce]
  cases Json.readArray Word.readJson ts <;> rfl

theorem readJson_bare (op : Opcode) (rest : List Json.Token) :
    SymbolicInstr.readJson (tokens ⟨op, none⟩ ++ rest) = .ok (⟨op, []⟩, rest) := by
  simp only [tokens, List.cons_append, List.nil_append, SymbolicInstr.readJson,
    SymbolicInstr.readObject, Json.readObject, Json.readFields, List.length_cons, read_op,
    Option.getD_none]

/-- An instruction with operands takes what the operands are read as, or their fault. -/
theorem readJson_operands (op : Opcode) {vs : List Int} {rest : List Json.Token}
    (result : Except Json.ReadError (List Word))
    (h : Json.readArray Word.readJson (operandTokens vs ++ .closeObject :: rest) =
      result.map fun ws => (ws, .closeObject :: rest)) :
    SymbolicInstr.readJson (tokens ⟨op, some vs⟩ ++ rest) =
      result.map fun ws => (⟨op, ws⟩, rest) := by
  have htokens : tokens ⟨op, some vs⟩ ++ rest = .openObject :: .string "op" :: .colon ::
      .string op.name :: .comma :: .string "operands" :: .colon ::
        (operandTokens vs ++ .closeObject :: rest) := by
    simp [tokens]
  simp only [htokens, SymbolicInstr.readJson, SymbolicInstr.readObject, Json.readObject,
    Json.readFields, List.length_cons, read_op, read_operands, h]
  cases result <;> rfl

/-- An instruction is read as the one it denotes, and not at all if an operand stands for no
word. -/
theorem reads (w : WrittenInstr) : Json.Reads SymbolicInstr.readJson w.tokens w.Denotes := by
  obtain ⟨op, operands⟩ := w
  cases operands with
  | none =>
    refine ⟨⟨_, _, rfl, by decide⟩, fun rest i rest' => ?_⟩
    rw [readJson_bare, denotes_iff]
    simp [eq_comm]
  | some vs =>
    refine ⟨⟨_, _, rfl, by decide⟩, fun rest i rest' => ?_⟩
    have harray := Json.reads_array fun v (_ : v ∈ vs) => Word.reads_integer v
    rcases harray.outcome (.closeObject :: rest) with ⟨e, hread, hnone⟩ | ⟨ws, hread, hvalue⟩
    · rw [readJson_operands op (.error e) hread, denotes_iff]
      simp [hnone, Except.map]
    · rw [readJson_operands op (.ok ws) hread, denotes_iff]
      simp [hvalue, Except.map, eq_comm]

end WrittenInstr

/-! ### Programs -/

def writtenJson (written : List WrittenInstr) : String :=
  "[" ++ Text.join "," (written.map WrittenInstr.json) ++ "]"

example : writtenJson [⟨.loadInt, some [0, -5]⟩, ⟨.endIf, none⟩] =
    "[\x7b\"op\":\"LOAD_INT\",\"operands\":[0,-5]\x7d,\x7b\"op\":\"ENDIF\"\x7d]" := by
  decide

theorem parseProgram_writtenJson (written : List WrittenInstr) (program : List SymbolicInstr) :
    SymbolicInstr.parseProgram (writtenJson written) = .ok program ↔
      List.Forall₂ WrittenInstr.Denotes written program := by
  have hspells := Json.spells_array fun w (_ : w ∈ written) => w.spells
  have hreads := Json.reads_array fun w (_ : w ∈ written) => w.reads
  exact Json.readText_eq_ok hspells hreads

/-- Ways to write an instruction: each operand as its bits or as its signed value, and no
operands in full or not at all. -/
inductive WrittenInstr.Writes (i : SymbolicInstr) : WrittenInstr → Prop
  | full (vs : List Int)
      (h : List.Forall₂ (fun w v => v = Int.ofNat w.toNat ∨ v = w.toInt32.toInt) i.operands vs) :
      Writes i ⟨i.op, some vs⟩
  | bare (h : i.operands = []) : Writes i ⟨i.op, none⟩

theorem WrittenInstr.Writes.denotes {i : SymbolicInstr} {w : WrittenInstr} (h : Writes i w) :
    w.Denotes i := by
  cases h with
  | full vs hvs =>
    refine ⟨rfl, hvs.flip.imp fun v w hw => ?_⟩
    rcases hw with rfl | rfl
    · exact w.standsFor_bits
    · exact w.standsFor_signed
  | bare hnil =>
    refine ⟨rfl, ?_⟩
    rw [hnil]
    exact .nil

def SymbolicInstr.written (i : SymbolicInstr) : WrittenInstr :=
  ⟨i.op, some (i.operands.map fun w => Int.ofNat w.toNat)⟩

theorem SymbolicInstr.json_written (i : SymbolicInstr) : i.written.json = i.toJson := by
  simp only [WrittenInstr.json, written, toJson, Word.arrayToJson, List.map_map]
  rfl

theorem SymbolicInstr.writes_written (i : SymbolicInstr) : WrittenInstr.Writes i i.written := by
  refine .full _ ?_
  rw [List.forall₂_map_right_iff]
  exact List.forall₂_same.2 fun w _ => .inl rfl

theorem exists_forall₂ {α β : Type} {r : α → β → Prop} {xs : List α} :
    (∃ ys, List.Forall₂ r xs ys) ↔ ∀ x ∈ xs, ∃ y, r x y := by
  induction xs with
  | nil => simp
  | cons x xs ih =>
    rw [List.forall_mem_cons, ← ih]
    constructor
    · rintro ⟨_, hy | ⟨hy, hys⟩⟩
      exact ⟨⟨_, hy⟩, ⟨_, hys⟩⟩
    · rintro ⟨⟨y, hy⟩, ⟨ys, hys⟩⟩
      exact ⟨y :: ys, .cons hy hys⟩

theorem exists_denoted {written : List WrittenInstr} :
    (∃ program, List.Forall₂ WrittenInstr.Denotes written program) ↔
      ∀ w ∈ written, ∀ v ∈ w.operands.getD [], -2147483648 ≤ v ∧ v ≤ 4294967295 := by
  have hoperand (v : Int) : (∃ w, StandsFor v w) ↔ -2147483648 ≤ v ∧ v ≤ 4294967295 := by
    constructor
    · rintro ⟨w, hlow, hhigh, _⟩
      exact ⟨hlow, hhigh⟩
    · intro hrange
      exact ⟨_, hrange.1, hrange.2, Word.toNat_ofInt32_ofInt v⟩
  have hinstr (w : WrittenInstr) : (∃ i, w.Denotes i) ↔
      ∀ v ∈ w.operands.getD [], -2147483648 ≤ v ∧ v ≤ 4294967295 := by
    simp only [← hoperand, ← exists_forall₂]
    constructor
    · rintro ⟨i, _, hwords⟩
      exact ⟨i.operands, hwords⟩
    · rintro ⟨ws, hwords⟩
      exact ⟨⟨w.op, ws⟩, rfl, hwords⟩
  simp only [exists_forall₂, hinstr]

/-- A program is read back from its own JSON, and from JSON with operands as signed values or with
empty operands left out. A program whose operands are arbitrary integers is read exactly if each
is a bit pattern or a signed value, and each is then the word equal to it modulo 2^32. -/
theorem programs_round_trip :
    (∀ program : List SymbolicInstr,
      SymbolicInstr.parseProgram (SymbolicInstr.programToJson program) = .ok program) ∧
    (∀ (program : List SymbolicInstr) (written : List WrittenInstr),
      List.Forall₂ WrittenInstr.Writes program written →
        SymbolicInstr.parseProgram (writtenJson written) = .ok program) ∧
    (∀ written : List WrittenInstr,
      (∃ program, SymbolicInstr.parseProgram (writtenJson written) = .ok program) ↔
        ∀ w ∈ written, ∀ v ∈ w.operands.getD [], -2147483648 ≤ v ∧ v ≤ 4294967295) ∧
    ∀ (written : List WrittenInstr) (program : List SymbolicInstr),
      SymbolicInstr.parseProgram (writtenJson written) = .ok program ↔
        List.Forall₂ WrittenInstr.Denotes written program := by
  have hwrites (program : List SymbolicInstr) (written : List WrittenInstr)
      (h : List.Forall₂ WrittenInstr.Writes program written) :
      SymbolicInstr.parseProgram (writtenJson written) = .ok program := by
    rw [parseProgram_writtenJson]
    exact List.Forall₂.flip (h.imp fun i w hw => hw.denotes)
  refine ⟨fun program => ?_, hwrites, fun written => ?_, parseProgram_writtenJson⟩
  · have htext : writtenJson (program.map SymbolicInstr.written) =
        SymbolicInstr.programToJson program := by
      simp only [writtenJson, SymbolicInstr.programToJson, List.map_map, Function.comp_def,
        SymbolicInstr.json_written]
    rw [← htext]
    apply hwrites
    rw [List.forall₂_map_right_iff]
    exact List.forall₂_same.2 fun i _ => i.writes_written
  · simp only [parseProgram_writtenJson, exists_denoted]

/-- A negative constant as a signed value, and an instruction without operands. -/
theorem signedConstant_read_back :
    SymbolicInstr.parseProgram (writtenJson
        [⟨.loadInt, some [4294967295, -5]⟩, ⟨.halt, none⟩]) =
      .ok [⟨.loadInt, [⟨4294967295⟩, ⟨4294967291⟩]⟩, ⟨.halt, []⟩] := by
  refine programs_round_trip.2.1 _ _ (.cons (.full _ ?_) (.cons (.bare rfl) .nil))
  exact .cons (.inl (by decide)) (.cons (.inr (by decide)) .nil)

end RegisterMachine
