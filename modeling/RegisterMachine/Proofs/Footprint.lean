import RegisterMachine.Effect

/-!
# Footprints

What an instruction has to do with the shared state: the registers it reads and writes, the list
it touches, the list it changes and the entry it emits. Everything else stays as it is, and two
states that agree on what an instruction reads and touches are changed by it in the same way.

The footprint is that of an execution, not of the text: an instruction ends at the first source
register that does not exist, so what comes after that is neither read nor touched.
-/

namespace RegisterMachine

/-- The registers words name, up to the first word that names none. -/
def registersOf : List Word → List (Fin registerCount)
  | [] => []
  | w :: ws =>
    match Registers.slot? w.bits with
    | some r => r :: registersOf ws
    | none => []

def Shared.value? (s : Shared) (w : Word) : Option Word :=
  (Registers.slot? w.bits).map s.registers.get

namespace Instr

/-- Operands that name registers to be read, in the order of reading. -/
def sources : Instr → List Word
  | .unary _ _ src => [src]
  | .binary _ _ left right => [left, right]
  | .jumpIfZero test _ | .jumpIfNotZero test _ | .ifNonzero test _ => [test]
  | .listAppend _ src => [src]
  | .listRead _ _ index => [index]
  | .listRemove _ index => [index]
  | .listEdit _ index src => [index, src]
  | .outputInt _ src | .outputFloat _ src => [src]
  | _ => []

def destination? : Instr → Option Word
  | .loadInt dst _ | .loadFloat dst _ | .clear dst | .random dst | .unary _ dst _
  | .binary _ dst _ _ | .listRead dst _ _ | .listLength dst _ => some dst
  | _ => none

def list? : Instr → Option Word
  | .listDeclare list | .listAppend list _ | .listRead _ list _ | .listRemove list _
  | .listEdit list _ _ | .listLength _ list | .outputList _ list => some list
  | _ => none

def ready (i : Instr) : Bool := i.sources.all fun w => (Registers.slot? w.bits).isSome

def reads (i : Instr) : List (Fin registerCount) := registersOf i.sources

def written? (i : Instr) : Option (Fin registerCount) :=
  if i.ready then i.destination?.bind fun w => Registers.slot? w.bits else none

def touched? (i : Instr) : Option UInt32 :=
  if i.ready then i.list?.map Word.bits else none

/-- The list that is declared, appended to, removed from or edited; none if that is refused. -/
def changed? (i : Instr) (s : Shared) : Option UInt32 :=
  match i with
  | .listDeclare list =>
    (s.lists.change? list.bits fun b => some b.declare).map fun _ => list.bits
  | .listAppend list src =>
    (s.value? src).bind fun w => (s.lists.append? list.bits w).map fun _ => list.bits
  | .listRemove list index =>
    (s.value? index).bind fun k => (s.lists.remove? list.bits k.toInt32).map fun _ => list.bits
  | .listEdit list index src =>
    (s.value? index).bind fun k => (s.value? src).bind fun w =>
      (s.lists.edit? list.bits k.toInt32 w).map fun _ => list.bits
  | _ => none

def emits? (i : Instr) (who : ContextId) (s : Shared) : Option Entry :=
  match i with
  | .outputInt out src => (s.value? src).map fun w => ⟨out.bits, .int w.toInt32, who⟩
  | .outputFloat out src => (s.value? src).map fun w => ⟨out.bits, .float w, who⟩
  | .outputList out list =>
    (s.lists.snapshot? list.bits).map fun ws => ⟨out.bits, .list ws, who⟩
  | _ => none

end Instr

/-- A part of the shared state that instructions name. -/
inductive Place where
  | register (r : Fin registerCount)
  | list (id : UInt32)
  deriving DecidableEq

namespace Instr

/-- The instruction reads or writes a register, or touches a list. -/
def Uses (i : Instr) : Place → Prop
  | .register r => r ∈ i.reads ∨ i.written? = some r
  | .list id => i.touched? = some id

/-- The instruction writes a register or changes a list. -/
def Alters (i : Instr) (s : Shared) : Place → Prop
  | .register r => i.written? = some r
  | .list id => i.changed? s = some id

end Instr

/-! ### Lists by id -/

namespace Lists

theorem buffer?_put (s : Lists) {id : UInt32} (h : id.toNat < listCount) (b : ListBuffer)
    (l : UInt32) : (s.put id b).buffer? l = if l = id then some b else s.buffer? l := by
  simp only [put, dif_pos h, buffer?, Vector.getElem?_set, UInt32.toNat_inj]
  by_cases heq : l = id
  · rw [if_pos heq.symm, if_pos heq]
  · rw [if_neg (Ne.symm heq), if_neg heq]

theorem lt_of_buffer? {s : Lists} {id : UInt32} {b : ListBuffer} (h : s.buffer? id = some b) :
    id.toNat < listCount := (Vector.getElem?_eq_some_iff.1 h).1

theorem buffer?_change (s : Lists) (id : UInt32) (f : ListBuffer → Option ListBuffer)
    (l : UInt32) : ((s.change? id f).getD s).buffer? l =
      if l = id then (s.buffer? id).map fun b => (f b).getD b else s.buffer? l := by
  have hsame : s.buffer? l = if l = id then s.buffer? id else s.buffer? l := by
    split
    case isTrue heq => rw [heq]
    case isFalse => rfl
  unfold change?
  cases hb : s.buffer? id with
  | none =>
    rw [hb] at hsame
    exact hsame
  | some b =>
    cases hf : f b with
    | none =>
      rw [hb] at hsame
      simpa [hf] using hsame
    | some b' =>
      simp only [Option.bind_some, hf, Option.map_some, Option.getD_some]
      exact s.buffer?_put (lt_of_buffer? hb) b' l

theorem buffer?_change_of_refused {s : Lists} {id : UInt32}
    {f : ListBuffer → Option ListBuffer} {l : UInt32}
    (h : (s.change? id f).map (fun _ => id) ≠ some l) :
    ((s.change? id f).getD s).buffer? l = s.buffer? l := by
  cases hc : s.change? id f with
  | none => rfl
  | some t =>
    have hne : l ≠ id := by
      rintro rfl
      exact h (by rw [hc]; rfl)
    have hchange := s.buffer?_change id f l
    rwa [hc, if_neg hne] at hchange

end Lists

/-! ### What stays as it is -/

namespace Shared

variable {s : Shared} {reg : Word} {k : Word → Flow × Shared}

theorem reading_eq (s : Shared) (reg : Word) (k : Word → Flow × Shared) :
    s.reading reg k =
      match s.value? reg with
      | some w => k w
      | none => (.badRegister reg.bits, s) := by
  rw [reading_eq_slot, value?]
  cases Registers.slot? reg.bits <;> rfl

theorem slot?_of_value? {w : Word} (h : s.value? reg = some w) :
    (Registers.slot? reg.bits).isSome = true := by
  unfold value? at h
  cases hslot : Registers.slot? reg.bits with
  | none => rw [hslot] at h; cases h
  | some r => rfl

/-- What holds of a state holds after reading if it holds after what follows. -/
theorem reading_keeps {P : Shared → Prop} (hs : P s)
    (hk : ∀ w, s.value? reg = some w → P (k w).2) : P (s.reading reg k).2 := by
  rw [reading_eq]
  cases h : s.value? reg with
  | none => exact hs
  | some w => exact hk w h

theorem get_writing_of_ne {r : Fin registerCount} (value : Word)
    (h : Registers.slot? reg.bits ≠ some r) :
    (s.writing reg value).2.registers.get r = s.registers.get r := by
  rw [writing_eq_slot]
  cases hslot : Registers.slot? reg.bits with
  | none => rfl
  | some j =>
    have hne : j ≠ r := fun heq => h (by rw [hslot, heq])
    exact s.registers.get_set_ne value hne

end Shared

namespace Instr

variable {i : Instr} {who : ContextId} {rnd : RandomStream} {s : Shared}

theorem written?_of_ready (h : i.ready = true) :
    i.written? = i.destination?.bind fun w => Registers.slot? w.bits := by
  rw [written?, if_pos h]

theorem touched?_of_ready (h : i.ready = true) : i.touched? = i.list?.map Word.bits := by
  rw [touched?, if_pos h]

theorem ready_of_value? {w : Word} {src : Word} (hsources : i.sources = [src])
    (h : s.value? src = some w) : i.ready = true := by
  simp [ready, hsources, Shared.slot?_of_value? h]

theorem ready_of_value?_value? {w w' : Word} {left right : Word}
    (hsources : i.sources = [left, right]) (h : s.value? left = some w)
    (h' : s.value? right = some w') : i.ready = true := by
  simp [ready, hsources, Shared.slot?_of_value? h, Shared.slot?_of_value? h']

theorem get_effect_of_ne_written {r : Fin registerCount} (h : i.written? ≠ some r) :
    (i.effect who rnd s).2.registers.get r = s.registers.get r := by
  -- before a register is written nothing has changed, so each reading keeps what holds
  have keeps {reg : Word} {k : Word → Flow × Shared}
      (hk : ∀ w, s.value? reg = some w → (k w).2.registers.get r = s.registers.get r) :
      (s.reading reg k).2.registers.get r = s.registers.get r :=
    Shared.reading_keeps (P := fun t => t.registers.get r = s.registers.get r) rfl hk
  cases i with
  | loadInt | loadFloat | clear | random | listLength => exact Shared.get_writing_of_ne _ h
  | unary | listRead =>
    refine keeps fun w hw => ?_
    rw [written?_of_ready (ready_of_value? rfl hw)] at h
    exact Shared.get_writing_of_ne _ h
  | binary =>
    refine keeps fun w hw => keeps fun w' hw' => ?_
    rw [written?_of_ready (ready_of_value?_value? rfl hw hw')] at h
    exact Shared.get_writing_of_ne _ h
  | jumpIfZero | jumpIfNotZero | ifNonzero | listAppend | listRemove | outputInt | outputFloat =>
    exact keeps fun _ _ => rfl
  | listEdit => exact keeps fun _ _ => keeps fun _ _ => rfl
  | outputList out list =>
    simp only [effect]
    split <;> rfl
  | _ => rfl

theorem buffer?_effect_of_ne_changed {l : UInt32} (h : i.changed? s ≠ some l) :
    (i.effect who rnd s).2.lists.buffer? l = s.lists.buffer? l := by
  have keeps {reg : Word} {k : Word → Flow × Shared}
      (hk : ∀ w, s.value? reg = some w → (k w).2.lists.buffer? l = s.lists.buffer? l) :
      (s.reading reg k).2.lists.buffer? l = s.lists.buffer? l :=
    Shared.reading_keeps (P := fun t => t.lists.buffer? l = s.lists.buffer? l) rfl hk
  have writing (reg value : Word) :
      (s.writing reg value).2.lists.buffer? l = s.lists.buffer? l := by
    rw [Shared.writing_eq_slot]
    split <;> rfl
  cases i with
  | loadInt | loadFloat | clear | random | listLength => exact writing _ _
  | unary | listRead => exact keeps fun _ _ => writing _ _
  | binary => exact keeps fun _ _ => keeps fun _ _ => writing _ _
  | jumpIfZero | jumpIfNotZero | ifNonzero | outputInt | outputFloat => exact keeps fun _ _ => rfl
  | listDeclare list => exact Lists.buffer?_change_of_refused h
  | listAppend list src =>
    refine keeps fun w hw => ?_
    simp only [changed?, hw, Option.bind_some] at h
    exact Lists.buffer?_change_of_refused h
  | listRemove list index =>
    refine keeps fun k hk => ?_
    simp only [changed?, hk, Option.bind_some] at h
    exact Lists.buffer?_change_of_refused h
  | listEdit list index src =>
    refine keeps fun k hk => keeps fun w hw => ?_
    simp only [changed?, hk, hw, Option.bind_some] at h
    exact Lists.buffer?_change_of_refused h
  | outputList out list =>
    simp only [effect]
    split <;> rfl
  | _ => rfl

/-- An instruction emits its entry, if it has one, after all others. -/
theorem entries_effect (i : Instr) (who : ContextId) (rnd : RandomStream) (s : Shared) :
    (i.effect who rnd s).2.output.entries.toList =
      s.output.entries.toList ++ (i.emits? who s).toList := by
  have emits (reg out : Word) (payload : Word → Payload) :
      (s.reading reg fun w => s.emitting out (payload w) who).2.output.entries.toList =
        s.output.entries.toList ++
          ((s.value? reg).map fun w => (⟨out.bits, payload w, who⟩ : Entry)).toList := by
    rw [Shared.reading_eq]
    cases s.value? reg with
    | none => simp
    | some w => simp [Shared.emitting, Collector.append]
  have keeps {t : Shared} (ht : t.output = s.output) :
      t.output.entries.toList = s.output.entries.toList ++ ([] : List Entry) := by
    rw [ht, List.append_nil]
  have writing (reg value : Word) : (s.writing reg value).2.output = s.output := by
    rw [Shared.writing_eq_slot]
    split <;> rfl
  have reading {reg : Word} {k : Word → Flow × Shared}
      (hk : ∀ w, s.value? reg = some w → (k w).2.output = s.output) :
      (s.reading reg k).2.output = s.output :=
    Shared.reading_keeps (P := fun t => t.output = s.output) rfl hk
  cases i with
  | outputInt out src => exact emits src out fun w => .int w.toInt32
  | outputFloat out src => exact emits src out .float
  | outputList out list =>
    simp only [effect, emits?]
    cases s.lists.snapshot? list.bits with
    | none => exact keeps rfl
    | some items => simp [Shared.emitting, Collector.append]
  | loadInt | loadFloat | clear | random | listLength => exact keeps (writing _ _)
  | unary | listRead => exact keeps (reading fun _ _ => writing _ _)
  | binary => exact keeps (reading fun _ _ => reading fun _ _ => writing _ _)
  | jumpIfZero | jumpIfNotZero | ifNonzero | listAppend | listRemove =>
    exact keeps (reading fun _ _ => rfl)
  | listEdit => exact keeps (reading fun _ _ => reading fun _ _ => rfl)
  | _ => exact keeps rfl

end Instr

/-! ### Two states -/

/-- Two states have the same in some places. -/
structure Shared.Agree (P : Place → Prop) (s t : Shared) : Prop where
  registers : ∀ r, P (.register r) → s.registers.get r = t.registers.get r
  lists : ∀ id, P (.list id) → s.lists.buffer? id = t.lists.buffer? id

/-- The same is asked of control and the states agree. -/
structure Flow.Alike (P : Place → Prop) (x y : Flow × Shared) : Prop where
  flow : x.1 = y.1
  shared : Shared.Agree P x.2 y.2

namespace Shared.Agree

variable {P Q : Place → Prop} {s t u : Shared}

theorem symm (h : Agree P s t) : Agree P t s where
  registers r hr := (h.registers r hr).symm
  lists id hid := (h.lists id hid).symm

theorem trans (h : Agree P s t) (h' : Agree P t u) : Agree P s u where
  registers r hr := (h.registers r hr).trans (h'.registers r hr)
  lists id hid := (h.lists id hid).trans (h'.lists id hid)

theorem mono (h : Agree P s t) (hle : ∀ x, Q x → P x) : Agree Q s t where
  registers r hr := h.registers r (hle _ hr)
  lists id hid := h.lists id (hle _ hid)

theorem split (h : Agree P s t) (h' : Agree Q s t) : Agree (fun x => P x ∨ Q x) s t where
  registers r hr := hr.elim (h.registers r) (h'.registers r)
  lists id hid := hid.elim (h.lists id) (h'.lists id)

theorem registers_eq (h : Agree (fun _ => True) s t) : s.registers = t.registers := by
  have hcells : s.registers.cells = t.registers.cells := by
    apply Vector.ext
    intro r hr
    exact h.registers ⟨r, hr⟩ trivial
  cases hs : s.registers
  cases ht : t.registers
  simpa [hs, ht] using hcells

theorem lists_eq (h : Agree (fun _ => True) s t) : s.lists = t.lists := by
  have hslots : s.lists.slots = t.lists.slots := by
    apply Vector.ext
    intro n hn
    have hn' : n < 128 := hn
    have hid : (UInt32.ofNat n).toNat = n := by
      rw [UInt32.toNat_ofNat']
      omega
    have hbuffer := h.lists (UInt32.ofNat n) trivial
    simpa [Lists.buffer?, hid, hn] using hbuffer
  cases hs : s.lists
  cases ht : t.lists
  simpa [hs, ht] using hslots

theorem value?_eq (h : Agree P s t) {reg : Word} {ws : List Word}
    (hreads : ∀ r ∈ registersOf (reg :: ws), P (.register r)) : s.value? reg = t.value? reg := by
  unfold value?
  cases hslot : Registers.slot? reg.bits with
  | none => rfl
  | some r =>
    have hr : P (.register r) := hreads r (by simp [registersOf, hslot])
    simp only [Option.map_some, h.registers r hr]

theorem reading (h : Agree P s t) {reg : Word} {ws : List Word}
    (hreads : ∀ r ∈ registersOf (reg :: ws), P (.register r)) {k k' : Word → Flow × Shared}
    (hk : ∀ w, s.value? reg = some w → (∀ r ∈ registersOf ws, P (.register r)) →
      Flow.Alike P (k w) (k' w)) :
    Flow.Alike P (s.reading reg k) (t.reading reg k') := by
  rw [reading_eq, reading_eq, ← h.value?_eq hreads]
  cases hvalue : s.value? reg with
  | none => exact ⟨rfl, h⟩
  | some w =>
    refine hk w hvalue fun r hr => hreads r ?_
    obtain ⟨j, hj⟩ := Option.isSome_iff_exists.1 (slot?_of_value? hvalue)
    simp [registersOf, hj, hr]

theorem writing (h : Agree P s t) (reg value : Word) :
    Flow.Alike P (s.writing reg value) (t.writing reg value) := by
  rw [Shared.writing_eq_slot, Shared.writing_eq_slot]
  cases Registers.slot? reg.bits with
  | none => exact ⟨rfl, h⟩
  | some j =>
    refine ⟨rfl, ?_, h.lists⟩
    intro r hr
    by_cases heq : j = r
    · subst heq
      simp only [Registers.get_set_self]
    · simp only [Registers.get_set_ne _ _ heq]
      exact h.registers r hr

theorem changing (h : Agree P s t) {id : UInt32} (hid : P (.list id))
    (f : ListBuffer → Option ListBuffer) :
    Flow.Alike P (s.withLists (s.lists.change? id f)) (t.withLists (t.lists.change? id f)) := by
  refine ⟨rfl, h.registers, ?_⟩
  intro l hl
  simp only [withLists, Lists.buffer?_change, h.lists id hid, h.lists l hl]

end Shared.Agree

namespace Instr

variable {P : Place → Prop} {s t : Shared} {i : Instr}

/-- Where two states agree on all that an instruction reads and touches, it asks the same of
control in both and leaves states that agree. -/
theorem alike_effect (who : ContextId) (rnd : RandomStream)
    (hreads : ∀ r ∈ i.reads, P (.register r))
    (htouched : ∀ id, i.touched? = some id → P (.list id)) (h : Shared.Agree P s t) :
    Flow.Alike P (i.effect who rnd s) (i.effect who rnd t) := by
  unfold effect
  cases i with
  | loadInt | loadFloat | clear | random => exact h.writing _ _
  | unary =>
    apply h.reading hreads
    intro w hw _
    exact h.writing _ _
  | binary =>
    apply h.reading hreads
    intro w hw hrest
    apply h.reading hrest
    intro w' hw' _
    exact h.writing _ _
  | jumpIfZero | jumpIfNotZero | ifNonzero =>
    apply h.reading hreads
    intro w hw _
    exact ⟨rfl, h⟩
  | listDeclare list => exact h.changing (htouched list.bits rfl) _
  | listAppend list src =>
    apply h.reading hreads
    intro w hw _
    rw [touched?_of_ready (ready_of_value? rfl hw)] at htouched
    exact h.changing (htouched list.bits rfl) _
  | listRemove list index =>
    apply h.reading hreads
    intro k hk _
    rw [touched?_of_ready (ready_of_value? rfl hk)] at htouched
    exact h.changing (htouched list.bits rfl) _
  | listEdit list index src =>
    apply h.reading hreads
    intro k hk hrest
    apply h.reading hrest
    intro w hw _
    rw [touched?_of_ready (ready_of_value?_value? rfl hk hw)] at htouched
    exact h.changing (htouched list.bits rfl) _
  | listRead dst list index =>
    apply h.reading hreads
    intro k hk _
    rw [touched?_of_ready (ready_of_value? rfl hk)] at htouched
    simp only [Lists.read, h.lists list.bits (htouched list.bits rfl)]
    exact h.writing _ _
  | listLength dst list =>
    simp only [Lists.length?, h.lists list.bits (htouched list.bits rfl)]
    exact h.writing _ _
  | outputInt | outputFloat =>
    apply h.reading hreads
    intro w hw _
    exact ⟨rfl, h.registers, h.lists⟩
  | outputList out list =>
    simp only [Lists.snapshot?, h.lists list.bits (htouched list.bits rfl)]
    split
    case h_1 => exact ⟨rfl, h.registers, h.lists⟩
    case h_2 => exact ⟨rfl, h⟩
  | _ => exact ⟨rfl, h⟩

theorem emits?_eq_of_agree (who : ContextId) (hreads : ∀ r ∈ i.reads, P (.register r))
    (htouched : ∀ id, i.touched? = some id → P (.list id)) (h : Shared.Agree P s t) :
    i.emits? who s = i.emits? who t := by
  cases i with
  | outputInt | outputFloat => simp only [emits?, h.value?_eq hreads]
  | outputList out list => simp only [emits?, Lists.snapshot?, h.lists _ (htouched list.bits rfl)]
  | _ => rfl

theorem agree_effect (i : Instr) (who : ContextId) (rnd : RandomStream) (s : Shared) :
    Shared.Agree (fun x => ¬ i.Alters s x) s (i.effect who rnd s).2 where
  registers _ hr := (get_effect_of_ne_written hr).symm
  lists _ hid := (buffer?_effect_of_ne_changed hid).symm

theorem touched?_of_changed? {l : UInt32} (h : i.changed? s = some l) : i.touched? = some l := by
  have accepted {lists : Option Lists} {id : UInt32} (hmap : lists.map (fun _ => id) = some l) :
      id = l := by
    obtain ⟨_, _, heq⟩ := Option.map_eq_some_iff.1 hmap
    exact heq
  cases i with
  | listDeclare list => exact congrArg some (accepted h)
  | listAppend list src =>
    obtain ⟨w, hw, hmap⟩ := Option.bind_eq_some_iff.1 h
    rw [touched?_of_ready (ready_of_value? rfl hw)]
    exact congrArg some (accepted hmap)
  | listRemove list index =>
    obtain ⟨k, hk, hmap⟩ := Option.bind_eq_some_iff.1 h
    rw [touched?_of_ready (ready_of_value? rfl hk)]
    exact congrArg some (accepted hmap)
  | listEdit list index src =>
    obtain ⟨k, hk, hrest⟩ := Option.bind_eq_some_iff.1 h
    obtain ⟨w, hw, hmap⟩ := Option.bind_eq_some_iff.1 hrest
    rw [touched?_of_ready (ready_of_value?_value? rfl hk hw)]
    exact congrArg some (accepted hmap)
  | _ => cases h

theorem Alters.uses {x : Place} (h : i.Alters s x) : i.Uses x := by
  cases x with
  | register r => exact .inr h
  | list id => exact touched?_of_changed? h

end Instr

end RegisterMachine
