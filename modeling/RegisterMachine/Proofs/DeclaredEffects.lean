import RegisterMachine.Proofs.Dispatch
import RegisterMachine.Proofs.FaultedSteps
import RegisterMachine.Proofs.ListRefinement
import RegisterMachine.Proofs.Targets

/-!
# Effects within the catalog

The catalog says of each instruction which operands name registers and which names a list. That
is all an instruction has to do with the shared state: what it does depends on those registers and
that list and on nothing else there, and it leaves every other place as it is. Of the places it
names it changes only some, by its kind.
-/

namespace RegisterMachine

def OperandKind.select (kind : OperandKind) (kinds : List OperandKind) (ws : List Word) :
    List Word :=
  ((kinds.zip ws).filter fun slot => slot.1 == kind).map (·.2)

namespace Opcode

def hasDestination (op : Opcode) : Bool :=
  [Category.dataMovement, .arithmetic, .logic, .comparison].contains op.category ||
    [Opcode.listRead, .listLength, .random].contains op

def registerOperands (op : Opcode) (ws : List Word) : List Word :=
  OperandKind.register.select op.operandKinds ws

def listOperands (op : Opcode) (ws : List Word) : List Word :=
  OperandKind.list.select op.operandKinds ws

def sourceOperands (op : Opcode) (ws : List Word) : List Word :=
  let first := if op.hasDestination then 1 else 0
  OperandKind.register.select (op.operandKinds.drop first) (ws.drop first)

/-- The operands name a register or a list, by the kinds of their slots. -/
def Declares (op : Opcode) (ws : List Word) : Place → Prop
  | .register r => ∃ w ∈ op.registerOperands ws, w.toNat = r.val
  | .list id => ∃ w ∈ op.listOperands ws, w.bits = id

theorem hasDestination_unary (op : UnaryOp) : (unary op).hasDestination = true := by
  cases op <;> rfl

theorem hasDestination_binary (op : BinaryOp) : (binary op).hasDestination = true := by
  cases op <;> rfl

end Opcode

namespace Instr

variable {i : Instr} {w : Word} {x : Place}

theorem first_of_destination? (h : i.destination? = some w) :
    i.opcode.hasDestination = true ∧ i.operands[0]? = some w := by
  cases i with
  | unary op =>
    cases h
    exact ⟨Opcode.hasDestination_unary op, rfl⟩
  | binary op =>
    cases h
    exact ⟨Opcode.hasDestination_binary op, rfl⟩
  | loadInt | loadFloat | clear | random | listRead | listLength =>
    cases h
    exact ⟨rfl, rfl⟩
  | _ => cases h

theorem sourceOperands_eq (i : Instr) : i.opcode.sourceOperands i.operands = i.sources := by
  cases i with
  | unary op =>
    simp only [opcode, Opcode.sourceOperands, Opcode.hasDestination_unary, if_true]
    rfl
  | binary op =>
    simp only [opcode, Opcode.sourceOperands, Opcode.hasDestination_binary, if_true]
    rfl
  | _ => rfl

theorem registerOperands_eq (i : Instr) :
    i.opcode.registerOperands i.operands = i.destination?.toList ++ i.sources := by
  cases i <;> rfl

theorem mem_listOperands (h : i.list? = some w) : w ∈ i.opcode.listOperands i.operands := by
  cases i <;> cases h
  all_goals exact List.mem_singleton_self _

theorem mem_registersOf {ws : List Word} {r : Fin registerCount} (h : r ∈ registersOf ws) :
    ∃ w ∈ ws, w.toNat = r.val := by
  induction ws with
  | nil => cases h
  | cons w ws ih =>
    unfold registersOf at h
    cases hslot : Registers.slot? w.bits with
    | none =>
      rw [hslot] at h
      cases h
    | some r' =>
      rw [hslot] at h
      rcases List.mem_cons.1 h with rfl | h
      · exact ⟨w, List.mem_cons_self, Registers.toNat_of_slot? hslot⟩
      · obtain ⟨w', hmem, hr⟩ := ih h
        exact ⟨w', List.mem_cons_of_mem w hmem, hr⟩

theorem destination?_of_written? {r : Fin registerCount} (h : i.written? = some r) :
    ∃ w, i.destination? = some w ∧ w.toNat = r.val := by
  unfold written? at h
  split at h
  case isTrue =>
    obtain ⟨w, hw, hslot⟩ := Option.bind_eq_some_iff.1 h
    exact ⟨w, hw, Registers.toNat_of_slot? hslot⟩
  case isFalse => cases h

theorem Uses.declared (h : i.Uses x) : i.opcode.Declares i.operands x := by
  cases x with
  | register r =>
    simp only [Opcode.Declares, registerOperands_eq]
    rcases h with hread | hwritten
    · obtain ⟨w, hmem, hr⟩ := mem_registersOf hread
      exact ⟨w, List.mem_append_right _ hmem, hr⟩
    · obtain ⟨w, hw, hr⟩ := destination?_of_written? hwritten
      exact ⟨w, List.mem_append_left _ (by rw [hw]; exact List.mem_singleton_self w), hr⟩
  | list id =>
    have htouched : i.touched? = some id := h
    unfold touched? at htouched
    split at htouched
    case isTrue =>
      obtain ⟨w, hw, hid⟩ := Option.map_eq_some_iff.1 htouched
      exact ⟨w, mem_listOperands hw, hid⟩
    case isFalse => cases htouched

theorem opcode_of_changed? {s : Shared} {l : UInt32} (h : i.changed? s = some l) :
    i.opcode ∈ [.listDeclare, .listAppend, .listRemove, .listEdit] := by
  cases i with
  | listDeclare | listAppend | listRemove | listEdit => simp [opcode]
  | _ => cases h

theorem opcode_of_emits? {who : ContextId} {s : Shared} (h : (i.emits? who s).isSome = true) :
    i.opcode ∈ [.outputInt, .outputFloat, .outputList] := by
  cases i with
  | outputInt | outputFloat | outputList => simp [opcode]
  | _ => cases h

theorem lists_effect_of_unchanged {who : ContextId} {r : RandomStream} {s : Shared}
    (h : i.opcode ∉ [Opcode.listDeclare, .listAppend, .listRemove, .listEdit]) :
    (i.effect who r s).2.lists = s.lists := by
  have hsame : Shared.Agree (fun _ => True) { s with lists := (i.effect who r s).2.lists } s :=
    ⟨fun _ _ => rfl, fun l _ => buffer?_effect_of_ne_changed fun hl => h (opcode_of_changed? hl)⟩
  exact hsame.lists_eq

theorem advanceStream_of_ne (h : i.opcode ≠ .random) (r : RandomStream) :
    i.advanceStream r = r := by
  cases i with
  | random dst => exact absurd rfl h
  | _ => rfl

end Instr

/-! ### Lists as they look -/

/-- Two states have the same in some places, lists as far as their elements go. -/
structure Shared.LooksLike (P : Place → Prop) (s t : Shared) : Prop where
  registers : ∀ r, P (.register r) → s.registers.get r = t.registers.get r
  lists : ∀ id, P (.list id) → s.lists.snapshot? id = t.lists.snapshot? id

/-- Two states differ at most in cells past the lengths of their lists. -/
structure Shared.Indistinct (s t : Shared) : Prop where
  registers : s.registers = t.registers
  lists : s.lists.view = t.lists.view
  output : s.output = t.output

structure Flow.Indistinct (x y : Flow × Shared) : Prop where
  flow : x.1 = y.1
  shared : x.2.Indistinct y.2

namespace Shared.Indistinct

variable {s t : Shared} {reg : Word}

theorem reading (h : s.Indistinct t) {k k' : Word → Flow × Shared}
    (hk : ∀ w, Flow.Indistinct (k w) (k' w)) :
    Flow.Indistinct (s.reading reg k) (t.reading reg k') := by
  rw [Shared.reading_eq_slot, Shared.reading_eq_slot]
  cases Registers.slot? reg.bits with
  | none => exact ⟨rfl, h⟩
  | some r =>
    rw [h.registers]
    exact hk _

theorem writing (h : s.Indistinct t) (value : Word) :
    Flow.Indistinct (s.writing reg value) (t.writing reg value) := by
  rw [Shared.writing_eq_slot, Shared.writing_eq_slot]
  cases Registers.slot? reg.bits with
  | none => exact ⟨rfl, h⟩
  | some r => exact ⟨rfl, congrArg (·.set r value) h.registers, h.lists, h.output⟩

theorem changing (h : s.Indistinct t) {f : ListBuffer → Option ListBuffer}
    {g : Sequence → Option Sequence} (hf : ListBuffer.Refines f g) (id : UInt32) :
    Flow.Indistinct (s.withLists (s.lists.change? id f)) (t.withLists (t.lists.change? id f)) := by
  refine ⟨rfl, h.registers, ?_, h.output⟩
  simp only [withLists, Lists.getD_change?_view hf, h.lists]

theorem emitting (h : s.Indistinct t) (out : Word) (payload : Payload) (who : ContextId) :
    Flow.Indistinct (s.emitting out payload who) (t.emitting out payload who) := by
  refine ⟨rfl, h.registers, h.lists, ?_⟩
  simp only [Shared.emitting, h.output]

end Shared.Indistinct

/-- No instruction can tell what is in the cells past the length of a list. -/
theorem Instr.indistinct_effect (i : Instr) (who : ContextId) (r : RandomStream) {s t : Shared}
    (h : s.Indistinct t) : Flow.Indistinct (i.effect who r s) (i.effect who r t) := by
  unfold effect
  cases i with
  | loadInt | loadFloat | clear | random => exact h.writing _
  | unary =>
    apply h.reading
    intro w
    exact h.writing _
  | binary =>
    apply h.reading
    intro w
    apply h.reading
    intro w'
    exact h.writing _
  | jumpIfZero | jumpIfNotZero | ifNonzero =>
    apply h.reading
    intro w
    exact ⟨rfl, h⟩
  | listDeclare list =>
    refine ⟨rfl, h.registers, ?_, h.output⟩
    simp only [Shared.withLists, Option.getD_some, Lists.declare_view, h.lists]
  | listAppend list src =>
    apply h.reading
    intro w
    exact h.changing (ListBuffer.refines_append w) list.bits
  | listRemove list index =>
    apply h.reading
    intro k
    exact h.changing (ListBuffer.refines_remove k.toInt32) list.bits
  | listEdit list index src =>
    apply h.reading
    intro k
    apply h.reading
    intro w
    exact h.changing (ListBuffer.refines_edit k.toInt32 w) list.bits
  | listRead dst list index =>
    apply h.reading
    intro k
    rw [Lists.read_view, h.lists, ← Lists.read_view]
    exact h.writing _
  | listLength dst list =>
    simp only [Lists.length?_view, h.lists]
    exact h.writing _
  | outputInt | outputFloat =>
    apply h.reading
    intro w
    exact h.emitting _ _ who
  | outputList out list =>
    simp only [Lists.snapshot?_view, h.lists]
    split
    case h_1 => exact h.emitting _ _ who
    case h_2 => exact ⟨rfl, h⟩
  | _ => exact ⟨rfl, h⟩

theorem ListBuffer.refill_eq_of_snapshot? {b b' : ListBuffer} (h : b.snapshot? = b'.snapshot?)
    (junk : Vector Word listCapacity) : b.refill junk = b'.refill junk := by
  have hdeclared : b.declared = b'.declared := by
    have hsome := congrArg Option.isSome h
    unfold snapshot? at hsome
    cases hb : b.declared <;> cases hb' : b'.declared <;> simp [hb, hb'] at hsome ⊢
  have helements : b.elements = b'.elements := by
    cases hb : b.declared with
    | true =>
      have hb' : b'.declared = true := hdeclared ▸ hb
      simpa [snapshot?, elements, hb, hb'] using h
    | false =>
      have hb' : b'.declared = false := hdeclared ▸ hb
      simp [elements, b.length_of_undeclared hb, b'.length_of_undeclared hb']
  have hlength : b.length = b'.length := by
    rw [← b.length_elements, helements, b'.length_elements]
  have hcell (n : Fin listCapacity) (hn : n.val < b.length) : b.cells.get n = b'.cells.get n := by
    have hget : b.cells[n.val]? = b'.cells[n.val]? := by
      rw [← b.elements_getElem? hn, helements, b'.elements_getElem? (hlength ▸ hn)]
    rw [Vector.getElem?_eq_getElem n.isLt, Vector.getElem?_eq_getElem n.isLt] at hget
    exact Option.some.inj hget
  simp only [refill, ListBuffer.mk.injEq]
  refine ⟨hdeclared, hlength, congrArg Vector.ofFn (funext fun n => ?_)⟩
  rw [← hlength]
  split
  case isTrue hn => exact hcell n hn
  case isFalse => rfl

theorem Lists.buffer?_refill (s : Lists) (junk : Vector Word listCapacity) (id : UInt32) :
    (s.refill fun _ => junk).buffer? id = (s.buffer? id).map (·.refill junk) := by
  unfold buffer? refill
  by_cases hid : id.toNat < listCount
  · rw [Vector.getElem?_ofFn, dif_pos hid, Vector.getElem?_eq_getElem hid]
    rfl
  · rw [Vector.getElem?_eq_none (by omega), Vector.getElem?_eq_none (by omega)]
    rfl

theorem Lists.buffer?_refill_of_snapshot? {s t : Lists} {id : UInt32}
    (h : s.snapshot? id = t.snapshot? id) (junk : Vector Word listCapacity) :
    (s.refill fun _ => junk).buffer? id = (t.refill fun _ => junk).buffer? id := by
  rw [buffer?_refill, buffer?_refill]
  unfold snapshot? at h
  cases hs : s.buffer? id with
  | none =>
    have hle := le_of_buffer?_none hs
    rw [show t.buffer? id = none from Vector.getElem?_eq_none hle]
  | some b =>
    have hlt := lt_of_buffer? hs
    obtain ⟨b', hb'⟩ : ∃ b', t.buffer? id = some b' := ⟨_, Vector.getElem?_eq_getElem hlt⟩
    rw [hs, hb'] at h
    rw [hb']
    exact congrArg some (ListBuffer.refill_eq_of_snapshot? h junk)

/-- The state with the same words in all cells past the lengths of lists. -/
def Shared.refill (s : Shared) (junk : Vector Word listCapacity) : Shared :=
  { s with lists := s.lists.refill fun _ => junk }

theorem Shared.registers_refill (s : Shared) (junk : Vector Word listCapacity) :
    (s.refill junk).registers = s.registers := by
  simp only [refill]

theorem Shared.indistinct_refill (s : Shared) (junk : Vector Word listCapacity) :
    s.Indistinct (s.refill junk) where
  registers := (s.registers_refill junk).symm
  lists := (s.lists.view_refill fun _ => junk).symm
  output := by simp only [refill]

theorem Shared.LooksLike.agree_refill {P : Place → Prop} {s t : Shared} (h : LooksLike P s t)
    (junk : Vector Word listCapacity) : Agree P (s.refill junk) (t.refill junk) where
  registers r hr := by
    rw [registers_refill, registers_refill]
    exact h.registers r hr
  lists id hid := Lists.buffer?_refill_of_snapshot? (h.lists id hid) junk

theorem Shared.Indistinct.snapshot?_eq {s t : Shared} (h : s.Indistinct t) (id : UInt32) :
    s.lists.snapshot? id = t.lists.snapshot? id := by
  rw [Lists.snapshot?_view, Lists.snapshot?_view, h.lists]

namespace Instr

variable {P : Place → Prop} {i : Instr} {s t : Shared}

/-- Where two states look alike in all that an instruction uses, it asks the same of control in
both and leaves states that look alike. -/
theorem looksLike_effect (who : ContextId) (r : RandomStream) (huses : ∀ x, i.Uses x → P x)
    (h : Shared.LooksLike P s t) : (i.effect who r s).1 = (i.effect who r t).1 ∧
      Shared.LooksLike P (i.effect who r s).2 (i.effect who r t).2 := by
  -- both states are brought to the same words past the lengths, where they agree cell by cell
  let junk : Vector Word listCapacity := Vector.replicate listCapacity .zero
  have hs := i.indistinct_effect who r (s.indistinct_refill junk)
  have ht := i.indistinct_effect who r (t.indistinct_refill junk)
  have halike := alike_effect who r (fun reg hreg => huses (.register reg) (.inl hreg))
    (fun id hid => huses (.list id) hid) (h.agree_refill junk)
  refine ⟨hs.flow.trans (halike.flow.trans ht.flow.symm), ?_, ?_⟩
  · intro reg hreg
    rw [hs.shared.registers, ht.shared.registers]
    exact halike.shared.registers reg hreg
  · intro id hid
    rw [hs.shared.snapshot?_eq, ht.shared.snapshot?_eq]
    unfold Lists.snapshot?
    rw [halike.shared.lists id hid]

theorem emits?_of_indistinct (who : ContextId) (h : s.Indistinct t) :
    i.emits? who s = i.emits? who t := by
  cases i with
  | outputInt | outputFloat => simp only [emits?, Shared.value?, h.registers]
  | outputList => simp only [emits?, h.snapshot?_eq]
  | _ => rfl

theorem emits?_of_looksLike (who : ContextId) (huses : ∀ x, i.Uses x → P x)
    (h : Shared.LooksLike P s t) : i.emits? who s = i.emits? who t := by
  let junk : Vector Word listCapacity := Vector.replicate listCapacity .zero
  calc i.emits? who s = i.emits? who (s.refill junk) :=
        emits?_of_indistinct who (s.indistinct_refill junk)
    _ = i.emits? who (t.refill junk) :=
        emits?_eq_of_agree who (fun reg hreg => huses (.register reg) (.inl hreg))
          (fun id hid => huses (.list id) hid) (h.agree_refill junk)
    _ = i.emits? who t := (emits?_of_indistinct who (t.indistinct_refill junk)).symm

end Instr

/-! ### Dispatch in two states -/

/-- Two contexts stand at the same point; how many instructions they have executed and may execute
is not compared. -/
structure Context.Abreast (c d : Context) : Prop where
  id : c.id = d.id
  pc : c.pc = d.pc
  stack : c.stack = d.stack
  random : c.random = d.random

namespace Context.Abreast

variable {c d : Context}

theorem pass (h : Abreast c d) (i : Instr) : Abreast (c.pass i) (d.pass i) where
  id := h.id
  pc := congrArg (· + i.width) h.pc
  stack := h.stack
  random := congrArg i.advanceStream h.random

theorem transfer (h : Abreast c d) (pc : Nat) (flow : Flow) :
    (c.transfer pc flow).1 = (d.transfer pc flow).1 ∧
      Abreast (c.transfer pc flow).2 (d.transfer pc flow).2 := by
  cases flow with
  | call target =>
    simp only [Context.transfer, h.stack, h.pc]
    cases d.stack.push? d.pc with
    | none => exact ⟨rfl, h⟩
    | some stack => exact ⟨rfl, h.id, rfl, rfl, h.random⟩
  | ret =>
    simp only [Context.transfer, h.stack]
    cases d.stack.pop? with
    | none => exact ⟨rfl, h⟩
    | some top => exact ⟨rfl, h.id, rfl, rfl, h.random⟩
  | jump target => exact ⟨rfl, h.id, rfl, h.stack, h.random⟩
  | _ => exact ⟨rfl, h⟩

end Context.Abreast

/-- The same came of an instruction in two states. -/
structure SameOutcome (P : Place → Prop) (s t : Shared) (x y : Signal × Context × Shared) :
    Prop where
  signal : x.1 = y.1
  context : Context.Abreast x.2.1 y.2.1
  emitted : ∃ entry : Option Entry,
    x.2.2.output.entries.toList = s.output.entries.toList ++ entry.toList ∧
      y.2.2.output.entries.toList = t.output.entries.toList ++ entry.toList
  places : Shared.LooksLike P x.2.2 y.2.2

/-- What came of an instruction has changed nothing beyond what its opcode allows. -/
structure Confined (op : Opcode) (ws : List Word) (c : Context) (s : Shared)
    (x : Signal × Context × Shared) : Prop where
  others : Shared.Agree (fun place => ¬ op.Declares ws place) s x.2.2
  registers : ∀ r, x.2.2.registers.get r ≠ s.registers.get r →
    op.hasDestination = true ∧ ∃ w, ws[0]? = some w ∧ w.toNat = r.val
  lists : x.2.2.lists ≠ s.lists → op ∈ [.listDeclare, .listAppend, .listRemove, .listEdit]
  output : ∃ entry : Option Entry,
    x.2.2.output.entries.toList = s.output.entries.toList ++ entry.toList ∧
      (entry.isSome = true → op ∈ [.outputInt, .outputFloat, .outputList])
  stack : x.2.1.stack ≠ c.stack → op ∈ [.call, .ret]
  random : x.2.1.random ≠ c.random → op = .random

namespace Instr

variable {P : Place → Prop} {i : Instr} {c d : Context} {s t : Shared}

theorem sameOutcome_dispatch (huses : ∀ x, i.Uses x → P x) (hcontext : Context.Abreast c d)
    (h : Shared.LooksLike P s t) : SameOutcome P s t (c.dispatch i s) (d.dispatch i t) := by
  obtain ⟨hflow, hplaces⟩ := looksLike_effect c.id c.random huses h
  have hemits := emits?_of_looksLike c.id huses h
  obtain ⟨hsignal, habreast⟩ := (hcontext.pass i).transfer c.pc (i.effect c.id c.random s).1
  have hother : i.effect d.id d.random t = i.effect c.id c.random t := by
    rw [hcontext.id, hcontext.random]
  simp only [Context.dispatch, hother, ← hcontext.pc, ← hflow]
  refine ⟨hsignal, habreast, ⟨i.emits? c.id s, ?_, ?_⟩, hplaces⟩
  · exact i.entries_effect c.id c.random s
  · rw [hemits]
    exact i.entries_effect c.id c.random t

theorem written?_of_changed {who : ContextId} {rnd : RandomStream} {r : Fin registerCount}
    (h : (i.effect who rnd s).2.registers.get r ≠ s.registers.get r) : i.written? = some r := by
  apply Decidable.byContradiction
  intro hne
  exact h (get_effect_of_ne_written hne)

theorem confined_dispatch (i : Instr) (c : Context) (s : Shared) :
    Confined i.opcode i.operands c s (c.dispatch i s) where
  others := (i.agree_effect c.id c.random s).mono fun _ hx halters => hx halters.uses.declared
  registers := by
    intro r hr
    obtain ⟨w, hw, hname⟩ := destination?_of_written? (written?_of_changed hr)
    obtain ⟨hdestination, hfirst⟩ := first_of_destination? hw
    exact ⟨hdestination, w, hfirst, hname⟩
  lists := by
    intro hlists
    apply Decidable.byContradiction
    intro hop
    exact hlists (lists_effect_of_unchanged hop)
  output :=
    ⟨i.emits? c.id s, i.entries_effect c.id c.random s, opcode_of_emits?⟩
  stack := by
    intro hstack
    apply Decidable.byContradiction
    intro hop
    refine hstack ((c.pass i).stack_transfer c.pc ?_ ?_)
    · intro target hcall
      rw [eq_call_of_effect hcall] at hop
      exact hop List.mem_cons_self
    · intro hret
      rw [eq_ret_of_effect hret] at hop
      exact hop (List.mem_cons_of_mem _ List.mem_cons_self)
  random := by
    intro hrandom
    apply Decidable.byContradiction
    intro hop
    refine hrandom ?_
    rw [Context.dispatch]
    exact ((c.pass i).kept_by_transfer _ _).1.trans (advanceStream_of_ne hop c.random)

end Instr

/-- Every opcode with as many operand words as it takes can be dispatched. Contexts that stand at
the same point, on states that look alike in the registers and the list the catalog declares, get
the same signal, context and entry, and states that look alike there again (cell by cell, if they
agreed so before); and each state is changed only as the opcode allows. -/
theorem effects_stay_within_catalog {op : Opcode} {ws : List Word}
    (hlength : ws.length = op.payload) :
    ∃ i, Instr.decode? op ws = some i ∧
      (∀ c d s t, Context.Abreast c d →
        (Shared.LooksLike (op.Declares ws) s t →
          SameOutcome (op.Declares ws) s t (c.dispatch i s) (d.dispatch i t)) ∧
        (Shared.Agree (op.Declares ws) s t →
          Shared.Agree (op.Declares ws) (c.dispatch i s).2.2 (d.dispatch i t).2.2)) ∧
      ∀ c s, Confined op ws c s (c.dispatch i s) := by
  obtain ⟨i, hi⟩ := Instr.exists_decode? hlength
  obtain rfl := Instr.opcode_of_decode? hi
  obtain rfl := Instr.operands_of_decode? hi
  have huses : ∀ x, i.Uses x → i.opcode.Declares i.operands x := fun x hx => hx.declared
  refine ⟨i, hi, ?_, i.confined_dispatch⟩
  intro c d s t hcontext
  refine ⟨Instr.sameOutcome_dispatch huses hcontext, ?_⟩
  intro h
  have halike := Instr.alike_effect c.id c.random (fun r hr => huses (.register r) (.inl hr))
    (fun id hid => huses (.list id) hid) h
  have hother : i.effect d.id d.random t = i.effect c.id c.random t := by
    rw [hcontext.id, hcontext.random]
  simp only [Context.dispatch, hother]
  exact halike.shared

def listReadOperands : List Word := [⟨0⟩, ⟨3⟩, ⟨1⟩]

/-- A fresh state but for a register that the list read does not name. -/
def fifthRegisterSet : Shared := { registers := Registers.empty.set 5 .one }

theorem listRead_stays_within_catalog :
    Context.Abreast (.start .main 7 42 none) (.start .main 7 42 (some 9)) ∧
      Shared.LooksLike (Opcode.listRead.Declares listReadOperands) {} fifthRegisterSet ∧
      ∃ i, Instr.decode? .listRead listReadOperands = some i ∧
        SameOutcome (Opcode.listRead.Declares listReadOperands) {} fifthRegisterSet
          (Context.dispatch (.start .main 7 42 none) i {})
          (Context.dispatch (.start .main 7 42 (some 9)) i fifthRegisterSet) ∧
        Confined .listRead listReadOperands (.start .main 7 42 none) {}
          (Context.dispatch (.start .main 7 42 none) i {}) := by
  have habreast : Context.Abreast (.start .main 7 42 none) (.start .main 7 42 (some 9)) :=
    ⟨rfl, rfl, rfl, rfl⟩
  have hlooks : Shared.LooksLike (Opcode.listRead.Declares listReadOperands) {}
      fifthRegisterSet := by
    refine ⟨?_, fun _ _ => rfl⟩
    intro r hr
    obtain ⟨w, hw, hname⟩ := hr
    have hnames : ∀ w ∈ Opcode.listRead.registerOperands listReadOperands, w.toNat ≠ 5 := by
      decide
    have hne : (5 : Fin registerCount) ≠ r := by
      intro heq
      exact hnames w hw (hname.trans (congrArg Fin.val heq).symm)
    exact (Registers.empty.get_set_ne .one hne).symm
  have hlength : listReadOperands.length = Opcode.listRead.payload := rfl
  obtain ⟨i, hi, htwo, hone⟩ := effects_stay_within_catalog hlength
  exact ⟨habreast, hlooks, i, hi, (htwo _ _ _ _ habreast).1 hlooks, hone _ _⟩

end RegisterMachine
