import RegisterMachine.Proofs.Targets

/-!
# Checked execution

Execution over plain arrays, where nothing but the program's own tests keeps an index in range.
Operands are named by their positions in a slice of the words, elements by their positions in the
cells of a list; an access out of bounds, and an address past thirty-two bits, have no result at
all. Checked execution has a result for every program in every state, and it is that of a context.
-/

namespace RegisterMachine

/-- The words with one overwritten; `none` out of bounds. -/
def store? (words : Array Word) (i : Nat) (w : Word) : Option (Array Word) :=
  if h : i < words.size then some (words.set i w) else none

/-- The words between two positions; `none` out of bounds. -/
def slice? (words : Array Word) (first last : Nat) : Option (List Word) :=
  if first ≤ last ∧ last ≤ words.size then some (words.extract first last).toList else none

/-- The address some words further on; `none` past thirty-two bits. -/
def advance? (pc width : Nat) : Option Nat :=
  if pc + width < 4294967296 then some (pc + width) else none

/-- The number before; `none` below zero. -/
def decrement? : Nat → Option Nat
  | 0 => none
  | n + 1 => some n

/-! ### Plain lists -/

/-- A list without any promise on its length. -/
structure PlainList where
  declared : Bool
  length : Nat
  items : Array Word

namespace PlainList

def ofBuffer (b : ListBuffer) : PlainList := ⟨b.declared, b.length, b.cells.toArray⟩

/-- The position an index names, if the list is declared and has an element there. -/
def position? (l : PlainList) (index : Int32) : Option Nat :=
  if l.declared then (RegisterMachine.position? index).filter (· < l.length) else none

def declare (l : PlainList) : Option PlainList := some { l with declared := true }

def append (l : PlainList) (w : Word) : Option PlainList :=
  if l.declared ∧ l.length < listCapacity then
    (store? l.items l.length w).map fun items =>
      { l with length := l.length + 1, items := items }
  else some l

def read (l : PlainList) (index : Int32) : Option Word :=
  match l.position? index with
  | some i => l.items[i]?
  | none => some .zero

def remove (l : PlainList) (index : Int32) : Option PlainList :=
  match l.position? index with
  | some i =>
    (decrement? l.length).bind fun last =>
      if i = last then some { l with length := last }
      else l.items[last]?.bind fun moved =>
        (store? l.items i moved).map fun items => { l with length := last, items := items }
  | none => some l

def edit (l : PlainList) (index : Int32) (w : Word) : Option PlainList :=
  match l.position? index with
  | some i => (store? l.items i w).map fun items => { l with items := items }
  | none => some l

def snapshot (l : PlainList) : Option (Option (List Word)) :=
  if l.declared then (slice? l.items 0 l.length).map some else some none

end PlainList

/-- The shared state in plain arrays. -/
structure PlainState where
  registers : Array Word
  lists : Array PlainList
  output : Collector

def Shared.plain (s : Shared) : PlainState where
  registers := s.registers.cells.toArray
  lists := s.lists.slots.toArray.map PlainList.ofBuffer
  output := s.output

namespace PlainState

def reading (s : PlainState) (reg : Word) (k : Word → Option (Flow × PlainState)) :
    Option (Flow × PlainState) :=
  match s.registers[reg.toNat]? with
  | some w => k w
  | none => some (.badRegister reg.bits, s)

def writing (s : PlainState) (reg value : Word) : Option (Flow × PlainState) :=
  if h : reg.toNat < s.registers.size then
    some (.next, { s with registers := s.registers.set reg.toNat value })
  else some (.badRegister reg.bits, s)

/-- Changes a list and goes on; an id outside the store changes nothing. -/
def changing (s : PlainState) (id : Word) (f : PlainList → Option PlainList) :
    Option (Flow × PlainState) :=
  if h : id.toNat < s.lists.size then
    (f s.lists[id.toNat]).map fun l => (.next, { s with lists := s.lists.set id.toNat l })
  else some (.next, s)

/-- Asks a list; an id outside the store gives a default. -/
def asking {α : Type} (s : PlainState) (id : Word) (default : α) (f : PlainList → Option α) :
    Option α :=
  match s.lists[id.toNat]? with
  | some l => f l
  | none => some default

def emitting (s : PlainState) (out : Word) (payload : Payload) (who : ContextId) :
    Option (Flow × PlainState) :=
  some (.next, { s with output := s.output.append ⟨out.bits, payload, who⟩ })

/-- Executes an instruction on the words `o` after its first one. An operand is looked up when it
is needed and not before. -/
def dispatch (s : PlainState) (op : Opcode) (o : List Word) (who : ContextId) (r : RandomStream) :
    Option (Flow × PlainState) :=
  match op with
  | .nop | .label | .function | .endIf | .listPreload => some (.next, s)
  | .halt => some (.halt, s)
  | .random => o[0]?.bind fun dst => s.writing dst r.drawFloat
  | .loadInt | .loadFloat => o[0]?.bind fun dst => o[1]?.bind fun value => s.writing dst value
  | .clear => o[0]?.bind fun dst => s.writing dst .zero
  | .unary op =>
    o[1]?.bind fun src => s.reading src fun a =>
      o[0]?.bind fun dst => s.writing dst (op.eval a)
  | .binary op =>
    o[1]?.bind fun left => s.reading left fun a =>
      o[2]?.bind fun right => s.reading right fun b =>
        o[0]?.bind fun dst => s.writing dst (op.eval a b)
  | .jump => o[0]?.map fun target => (.jump target, s)
  | .jumpIfZero =>
    o[0]?.bind fun test => s.reading test fun w =>
      if w.isZero then o[1]?.map fun target => (.jump target, s) else some (.next, s)
  | .jumpIfNotZero =>
    o[0]?.bind fun test => s.reading test fun w =>
      if w.isZero then some (.next, s) else o[1]?.map fun target => (.jump target, s)
  | .call => o[0]?.map fun target => (.call target, s)
  | .ret => some (.ret, s)
  | .ifNonzero =>
    o[0]?.bind fun test => s.reading test fun w =>
      if w.isZero then o[1]?.map fun skip => (.jump skip, s) else some (.next, s)
  | .orElse => o[0]?.map fun skip => (.jump skip, s)
  | .listDeclare => o[0]?.bind fun list => s.changing list (·.declare)
  | .listAppend =>
    o[1]?.bind fun src => s.reading src fun w =>
      o[0]?.bind fun list => s.changing list (·.append w)
  | .listRead =>
    o[2]?.bind fun index => s.reading index fun i =>
      o[0]?.bind fun dst => o[1]?.bind fun list =>
        (s.asking list .zero (·.read i.toInt32)).bind fun w => s.writing dst w
  | .listRemove =>
    o[1]?.bind fun index => s.reading index fun i =>
      o[0]?.bind fun list => s.changing list (·.remove i.toInt32)
  | .listEdit =>
    o[1]?.bind fun index => s.reading index fun i =>
      o[2]?.bind fun src => s.reading src fun w =>
        o[0]?.bind fun list => s.changing list (·.edit i.toInt32 w)
  | .listLength =>
    o[1]?.bind fun list =>
      (s.asking list 0 fun l => some (if l.declared then l.length else 0)).bind fun n =>
        o[0]?.bind fun dst => s.writing dst (.ofNat n)
  | .outputInt =>
    o[1]?.bind fun src => s.reading src fun w =>
      o[0]?.bind fun out => s.emitting out (.int w.toInt32) who
  | .outputFloat =>
    o[1]?.bind fun src => s.reading src fun w =>
      o[0]?.bind fun out => s.emitting out (.float w) who
  | .outputList =>
    o[1]?.bind fun list => (s.asking list none (·.snapshot)).bind fun
      | some items => o[0]?.bind fun out => s.emitting out (.list items) who
      | none => some (.next, s)

end PlainState

/-- Executes the instruction at a context's address; `none` if an access on the way is out of
bounds or an address does not fit. -/
def Context.checkedStep (words : Array Word) (c : Context) (s : PlainState) :
    Option (Signal × Context × PlainState) :=
  if words.size ≤ c.pc then some (.stop .halted, c, s)
  else words[c.pc]?.bind fun word =>
    match Opcode.ofId? word.toNat with
    | none => some (.stop (.faulted (.unknownOpcode word) c.pc), c, s)
    | some op =>
      if words.size - c.pc < op.width then
        some (.stop (.faulted (.truncatedInstruction op op.width (words.size - c.pc)) c.pc), c, s)
      else match c.exhausted? with
        | some limit => some (.stop (.faulted (.instructionLimitExceeded limit) c.pc), c, s)
        | none =>
          (slice? words (c.pc + 1) (c.pc + op.width)).bind fun operands =>
            (advance? c.pc op.width).bind fun next =>
              (s.dispatch op operands c.id c.random).map fun (flow, s) =>
                let random := if op = .random then c.random.advance else c.random
                let (signal, c) := { c with
                  pc := next
                  random := random
                  instructions := c.instructions + 1 }.transfer c.pc flow
                (signal, c, s)

/-! ### Lists in bounds -/

namespace PlainList

variable (b : ListBuffer) (index : Int32) (w : Word)

@[simp]
theorem declared_ofBuffer : (ofBuffer b).declared = b.declared := rfl

@[simp]
theorem length_ofBuffer : (ofBuffer b).length = b.length := rfl

@[simp]
theorem items_ofBuffer : (ofBuffer b).items = b.cells.toArray := rfl

theorem lt_capacity {b : ListBuffer} (i : Fin b.length) : i.val < listCapacity :=
  Nat.lt_of_lt_of_le i.isLt b.length_le

theorem store?_cells {i : Nat} (h : i < listCapacity) :
    store? b.cells.toArray i w = some (b.cells.set i w).toArray := by
  have hsize : i < b.cells.toArray.size := by rw [b.cells.size_toArray]; exact h
  rw [store?, dif_pos hsize]
  rfl

theorem getElem?_cells {i : Nat} (h : i < listCapacity) :
    b.cells.toArray[i]? = some (b.cells.get ⟨i, h⟩) := by
  have hsize : i < b.cells.toArray.size := by rw [b.cells.size_toArray]; exact h
  rw [Array.getElem?_eq_getElem hsize]
  rfl

theorem position?_ofBuffer :
    (ofBuffer b).position? index = (b.slot? index).map fun i => i.val := by
  unfold position? ListBuffer.slot?
  by_cases hdeclared : b.declared = true
  · rw [if_pos hdeclared, declared_ofBuffer, if_pos hdeclared]
    cases RegisterMachine.position? index with
    | none => rfl
    | some i =>
      by_cases h : i < b.length
      · simp [h]
      · simp [h]
  · rw [if_neg hdeclared, declared_ofBuffer, if_neg hdeclared]
    rfl

theorem declare_ofBuffer : (ofBuffer b).declare = some (ofBuffer b.declare) := rfl

theorem append_ofBuffer : (ofBuffer b).append w = some (ofBuffer ((b.append? w).getD b)) := by
  unfold append ListBuffer.append?
  rw [length_ofBuffer, declared_ofBuffer, items_ofBuffer]
  by_cases h : b.declared = true ∧ b.length < listCapacity
  · rw [if_pos h, dif_pos h, store?_cells b w h.2]
    rfl
  · rw [if_neg h, dif_neg h]
    rfl

theorem read_ofBuffer : (ofBuffer b).read index = some (b.read index) := by
  simp only [read, ListBuffer.read, position?_ofBuffer, items_ofBuffer]
  cases b.slot? index with
  | none => rfl
  | some i => exact getElem?_cells b (lt_capacity i)

theorem remove_ofBuffer :
    (ofBuffer b).remove index = some (ofBuffer ((b.remove? index).getD b)) := by
  simp only [remove, ListBuffer.remove?, position?_ofBuffer, length_ofBuffer, items_ofBuffer]
  cases b.slot? index with
  | none => rfl
  | some i =>
    have hi := i.isLt
    have hlast : b.length - 1 < listCapacity := Nat.lt_of_lt_of_le (by omega) b.length_le
    have hdecrement : decrement? b.length = some (b.length - 1) := by
      cases hlength : b.length with
      | zero => omega
      | succ n => rfl
    simp only [Option.map_some, Option.getD_some, hdecrement, Option.bind_some]
    by_cases heq : i.val = b.length - 1
    · have hfin : i = ⟨b.length - 1, Nat.sub_one_lt_of_lt i.isLt⟩ := Fin.ext heq
      rw [if_pos heq]
      simp only [if_pos hfin, ofBuffer]
    · have hfin : i ≠ ⟨b.length - 1, Nat.sub_one_lt_of_lt i.isLt⟩ :=
        fun h => heq (congrArg Fin.val h)
      rw [if_neg heq, getElem?_cells b hlast, Option.bind_some, store?_cells b _ (lt_capacity i)]
      simp only [if_neg hfin, Option.map_some, ofBuffer, ListBuffer.get]

theorem edit_ofBuffer :
    (ofBuffer b).edit index w = some (ofBuffer ((b.edit? index w).getD b)) := by
  simp only [edit, ListBuffer.edit?, position?_ofBuffer, items_ofBuffer]
  cases b.slot? index with
  | none => rfl
  | some i =>
    simp only [Option.map_some, store?_cells b w (lt_capacity i)]
    rfl

theorem snapshot_ofBuffer : (ofBuffer b).snapshot = some b.snapshot? := by
  have hle : b.length ≤ b.cells.toArray.size := by
    rw [b.cells.size_toArray]
    exact b.length_le
  have hslice : slice? b.cells.toArray 0 b.length = some (b.cells.toList.take b.length) := by
    rw [slice?, if_pos ⟨Nat.zero_le _, hle⟩]
    simp [Vector.toList]
  simp only [snapshot, ListBuffer.snapshot?, declared_ofBuffer, length_ofBuffer, items_ofBuffer,
    hslice]
  cases b.declared <;> rfl

end PlainList

/-- An outcome in plain form. -/
def Flow.plain (outcome : Flow × Shared) : Option (Flow × PlainState) :=
  some (outcome.1, outcome.2.plain)

namespace Shared

variable (s : Shared)

theorem getElem?_registers (reg : Word) :
    s.plain.registers[reg.toNat]? = (Registers.slot? reg.bits).map s.registers.get := by
  have hsize : s.plain.registers.size = registerCount := s.registers.cells.size_toArray
  unfold Registers.slot?
  by_cases h : reg.bits.toNat < registerCount
  · rw [dif_pos h, Array.getElem?_eq_getElem (hsize ▸ h)]
    rfl
  · rw [dif_neg h, Array.getElem?_eq_none (by rw [hsize]; exact Nat.not_lt.1 h)]
    rfl

theorem reading_plain (reg : Word) {k : Word → Flow × Shared}
    {k' : Word → Option (Flow × PlainState)} (hk : ∀ w, k' w = Flow.plain (k w)) :
    s.plain.reading reg k' = Flow.plain (s.reading reg k) := by
  rw [PlainState.reading, reading_eq_slot, getElem?_registers]
  cases Registers.slot? reg.bits with
  | none => rfl
  | some i => exact hk _

theorem writing_plain (reg value : Word) :
    s.plain.writing reg value = Flow.plain (s.writing reg value) := by
  have hsize : s.plain.registers.size = registerCount := s.registers.cells.size_toArray
  rw [writing_eq_slot, PlainState.writing, Registers.slot?]
  by_cases h : reg.bits.toNat < registerCount
  · have h' : reg.toNat < s.plain.registers.size := hsize ▸ h
    simp only [dif_pos h, dif_pos h']
    rfl
  · have h' : ¬ reg.toNat < s.plain.registers.size := hsize ▸ h
    simp only [dif_neg h, dif_neg h']
    rfl

theorem getElem?_lists (id : Word) :
    s.plain.lists[id.toNat]? = (s.lists.buffer? id.bits).map PlainList.ofBuffer := by
  rw [plain, Lists.buffer?, Array.getElem?_map, Vector.getElem?_toArray]
  rfl

theorem asking_plain {α : Type} (id : Word) (default : α) {f : PlainList → Option α}
    {g : ListBuffer → α} (hf : ∀ b, f (.ofBuffer b) = some (g b)) :
    s.plain.asking id default f = some (((s.lists.buffer? id.bits).map g).getD default) := by
  rw [PlainState.asking, getElem?_lists]
  cases s.lists.buffer? id.bits with
  | none => rfl
  | some b => exact hf b

theorem changing_plain (id : Word) {f : PlainList → Option PlainList}
    {g : ListBuffer → Option ListBuffer}
    (hf : ∀ b, f (.ofBuffer b) = some (.ofBuffer ((g b).getD b))) :
    s.plain.changing id f = Flow.plain (s.withLists (s.lists.change? id.bits g)) := by
  have hsize : s.plain.lists.size = listCount := by
    rw [plain, Array.size_map, Vector.size_toArray]
  unfold PlainState.changing Lists.change? Lists.buffer?
  by_cases h : id.bits.toNat < listCount
  · have h' : id.toNat < s.plain.lists.size := hsize ▸ h
    have hget : s.plain.lists[id.toNat] = .ofBuffer s.lists.slots[id.bits.toNat] := by
      simp only [plain, Array.getElem_map, Vector.getElem_toArray]
      rfl
    rw [dif_pos h', hget, hf, Vector.getElem?_eq_getElem h, Option.bind_some, Option.map_some]
    cases g s.lists.slots[id.bits.toNat] with
    | none =>
      have hsame : s.plain.lists.set id.toNat (.ofBuffer s.lists.slots[id.bits.toNat]) h' =
          s.plain.lists := by
        rw [← hget]
        exact Array.set_getElem_self h'
      rw [Option.getD_none, hsame]
      rfl
    | some b =>
      have hput : ({ s with lists := s.lists.put id.bits b } : Shared).plain.lists =
          s.plain.lists.set id.toNat (.ofBuffer b) h' := by
        simp only [plain, Lists.put, dif_pos h, Vector.toArray_set, Array.map_set]
        rfl
      rw [Option.getD_some, ← hput]
      rfl
  · have h' : ¬ id.toNat < s.plain.lists.size := hsize ▸ h
    rw [dif_neg h', Vector.getElem?_eq_none (Nat.not_lt.1 h)]
    rfl

theorem emitting_plain (out : Word) (payload : Payload) (who : ContextId) :
    s.plain.emitting out payload who = Flow.plain (s.emitting out payload who) := rfl

theorem append_plain (list w : Word) :
    s.plain.changing list (·.append w) = Flow.plain (s.withLists (s.lists.append? list.bits w)) :=
  s.changing_plain list fun b => PlainList.append_ofBuffer b w

theorem remove_plain (list : Word) (index : Int32) :
    s.plain.changing list (·.remove index) =
      Flow.plain (s.withLists (s.lists.remove? list.bits index)) :=
  s.changing_plain list fun b => PlainList.remove_ofBuffer b index

theorem edit_plain (list : Word) (index : Int32) (w : Word) :
    s.plain.changing list (·.edit index w) =
      Flow.plain (s.withLists (s.lists.edit? list.bits index w)) :=
  s.changing_plain list fun b => PlainList.edit_ofBuffer b index w

theorem declare_plain (list : Word) :
    s.plain.changing list (·.declare) =
      Flow.plain (s.withLists (some (s.lists.declare list.bits))) :=
  s.changing_plain list fun b => PlainList.declare_ofBuffer b

theorem read_plain (list : Word) (index : Int32) :
    s.plain.asking list .zero (·.read index) = some (s.lists.read list.bits index) := by
  rw [s.asking_plain (f := fun l => l.read index) list .zero
    fun b => PlainList.read_ofBuffer b index, Lists.read]
  cases s.lists.buffer? list.bits <;> rfl

theorem length_plain (list : Word) :
    (s.plain.asking list 0 fun l => some (if l.declared then l.length else 0)) =
      some ((s.lists.length? list.bits).getD 0) := by
  rw [s.asking_plain (g := fun b => if b.declared then b.length else 0) list 0 fun b => rfl,
    Lists.length?]
  cases s.lists.buffer? list.bits with
  | none => rfl
  | some b =>
    simp only [Option.map_some, Option.getD_some, Option.bind_some, ListBuffer.length?]
    cases b.declared <;> rfl

theorem snapshot_plain (list : Word) :
    s.plain.asking list none (·.snapshot) = some (s.lists.snapshot? list.bits) := by
  rw [s.asking_plain list none fun b => PlainList.snapshot_ofBuffer b, Lists.snapshot?]
  cases s.lists.buffer? list.bits <;> rfl

end Shared

/-! ### Instructions in bounds -/

/-- Dispatch finds every operand it names, and does what the instruction does. -/
theorem Instr.dispatch_plain (i : Instr) (who : ContextId) (r : RandomStream) (s : Shared) :
    s.plain.dispatch i.opcode i.operands who r = Flow.plain (i.effect who r s) := by
  have hbranch (w : Word) (yes no : Flow) :
      (if w.isZero then some (yes, s.plain) else some (no, s.plain)) =
        Flow.plain (if w.isZero then yes else no, s) := by
    cases w.isZero <;> rfl
  cases i with
  | loadInt dst value => exact s.writing_plain dst value
  | loadFloat dst value => exact s.writing_plain dst value
  | clear dst => exact s.writing_plain dst _
  | random dst => exact s.writing_plain dst _
  | unary op dst src => exact s.reading_plain src fun a => s.writing_plain dst _
  | binary op dst left right =>
    exact s.reading_plain left fun a => s.reading_plain right fun b => s.writing_plain dst _
  | jumpIfZero test target => exact s.reading_plain test fun w => hbranch w _ _
  | jumpIfNotZero test target => exact s.reading_plain test fun w => hbranch w _ _
  | ifNonzero test skip => exact s.reading_plain test fun w => hbranch w _ _
  | listDeclare list => exact s.declare_plain list
  | listAppend list src => exact s.reading_plain src fun w => s.append_plain list w
  | listRead dst list index =>
    refine s.reading_plain index fun w => ?_
    change (s.plain.asking list .zero (·.read w.toInt32)).bind _ = _
    rw [s.read_plain]
    exact s.writing_plain dst _
  | listRemove list index => exact s.reading_plain index fun w => s.remove_plain list w.toInt32
  | listEdit list index src =>
    exact s.reading_plain index fun w => s.reading_plain src fun v => s.edit_plain list w.toInt32 v
  | listLength dst list =>
    change (s.plain.asking list 0 _).bind _ = _
    rw [s.length_plain list]
    exact s.writing_plain dst _
  | outputInt out src => exact s.reading_plain src fun w => s.emitting_plain out _ who
  | outputFloat out src => exact s.reading_plain src fun w => s.emitting_plain out _ who
  | outputList out list =>
    change (s.plain.asking list none (·.snapshot)).bind _ = _
    rw [s.snapshot_plain list, effect]
    cases s.lists.snapshot? list.bits <;> rfl
  | _ => rfl

theorem Instr.advanceStream_eq (i : Instr) (r : RandomStream) :
    i.advanceStream r = if i.opcode = .random then r.advance else r := by
  cases i <;> rfl

theorem Instr.decode?_eq_none {op : Opcode} {ws : List Word} (h : ws.length ≠ op.payload) :
    decode? op ws = none := by
  cases hdecode : decode? op ws with
  | none => rfl
  | some i =>
    have hlength := i.length_operands
    rw [operands_of_decode? hdecode, opcode_of_decode? hdecode] at hlength
    exact absurd hlength h

namespace Program

variable {p : Program} {pc : Nat} {word : Word} {op : Opcode}

theorem fetch?_of_truncated (hword : p.words[pc]? = some word)
    (hop : Opcode.ofId? word.toNat = some op) (hshort : p.words.size - pc < op.width) :
    p.fetch? pc = some (.truncated op (p.words.size - pc)) := by
  have hwidth : op.width = op.payload + 1 := rfl
  have hpc : pc < p.words.size := (Array.getElem?_eq_some_iff.1 hword).1
  have hlength : (p.words.extract (pc + 1) (pc + op.width)).toList.length ≠ op.payload := by
    rw [Array.length_toList, Array.size_extract]
    omega
  simp only [fetch?, hword, Option.map_some, hop, Instr.decode?_eq_none hlength]

theorem fetch?_of_complete (hword : p.words[pc]? = some word)
    (hop : Opcode.ofId? word.toNat = some op) (hfits : op.width ≤ p.words.size - pc) :
    ∃ i, p.fetch? pc = some (.instr i) ∧ i.opcode = op ∧
      slice? p.words (pc + 1) (pc + op.width) = some i.operands := by
  have hwidth : op.width = op.payload + 1 := rfl
  have hpc : pc < p.words.size := (Array.getElem?_eq_some_iff.1 hword).1
  have hlength : (p.words.extract (pc + 1) (pc + op.width)).toList.length = op.payload := by
    rw [Array.length_toList, Array.size_extract]
    omega
  obtain ⟨i, hi⟩ := Instr.exists_decode? hlength
  refine ⟨i, ?_, Instr.opcode_of_decode? hi, ?_⟩
  · simp only [fetch?, hword, Option.map_some, hop, hi]
  · rw [slice?, if_pos (by omega), Instr.operands_of_decode? hi]

end Program

/-- The outcome of a step in plain form. -/
def Context.plain (outcome : Signal × Context × Shared) : Signal × Context × PlainState :=
  (outcome.1, outcome.2.1, outcome.2.2.plain)

/-- Checked execution has a result in every state, and it is that of the context. -/
theorem Context.checkedStep_eq {p : Program} (hsize : p.size < 4294967296) (c : Context)
    (s : Shared) : c.checkedStep p.words s.plain = some (Context.plain (c.step p s)) := by
  unfold checkedStep
  split
  case isTrue hend =>
    have hfetch : p.fetch? c.pc = none := Program.fetch?_of_size_le hend
    simp only [step, hfetch]
    rfl
  case isFalse hin =>
    have hpc : c.pc < p.words.size := Nat.not_le.1 hin
    have hword := Array.getElem?_eq_getElem hpc
    rw [hword, Option.bind_some]
    cases hop : Opcode.ofId? p.words[c.pc].toNat with
    | none =>
      have hfetch : p.fetch? c.pc = some (.unknown p.words[c.pc]) := by
        simp only [Program.fetch?, hword, Option.map_some, hop]
      simp only [step, hfetch]
      rfl
    | some op =>
      simp only
      split
      case isTrue hshort =>
        simp only [step, Program.fetch?_of_truncated hword hop hshort]
        rfl
      case isFalse hfits =>
        obtain ⟨i, hfetch, rfl, hslice⟩ :=
          Program.fetch?_of_complete hword hop (Nat.not_lt.1 hfits)
        have hnext : advance? c.pc i.opcode.width = some (c.pc + i.width) := by
          have hwords : p.size = p.words.size := rfl
          rw [advance?, if_pos (by omega)]
          rfl
        simp only [step, hfetch, hslice, hnext, Option.bind_some, i.dispatch_plain,
          i.execute_eq_effect]
        cases c.exhausted? with
        | some limit => rfl
        | none =>
          simp only [pass, i.advanceStream_eq, Flow.plain, Option.map_some]
          rfl

end RegisterMachine
