import RegisterMachine.Proofs.Encoding
import RegisterMachine.Proofs.SymbolicContext

/-!
# Branch targets

In the words of an accepted program a branch carries an address, in the program as it is written
a symbol or nothing at all. The two forms of an instruction do the same to the shared state, and
the address is that of the index the written form branches to.
-/

namespace RegisterMachine

def Flow.redirect (t : Word) : Flow → Flow
  | .jump _ => .jump t
  | .call _ => .call t
  | flow => flow

def Instr.withTarget (t : Word) : Instr → Instr
  | .jump _ => .jump t
  | .jumpIfZero test _ => .jumpIfZero test t
  | .jumpIfNotZero test _ => .jumpIfNotZero test t
  | .call _ => .call t
  | .ifNonzero test _ => .ifNonzero test t
  | .orElse _ => .orElse t
  | i => i

def Flow.redirected {σ : Type} (t : Word) (outcome : Flow × σ) : Flow × σ :=
  (outcome.1.redirect t, outcome.2)

section World

variable {σ : Type} [World σ] (t : Word) (s : σ) (who : ContextId)

@[simp]
theorem Flow.redirected_loading (reg : Word) (k : Word → σ → Flow × σ) :
    Flow.redirected t (World.loading s who reg k) =
      World.loading s who reg fun w s => Flow.redirected t (k w s) := by
  unfold World.loading
  split <;> rfl

@[simp]
theorem Flow.redirected_storing (reg value : Word) :
    Flow.redirected t (World.storing s who reg value) = World.storing s who reg value := by
  unfold World.storing
  split <;> rfl

@[simp]
theorem Flow.redirected_asking (q : Request) (k : q.Answer → σ → Flow × σ) :
    Flow.redirected t (World.asking s who q k) =
      World.asking s who q fun a s => Flow.redirected t (k a s) := rfl

@[simp]
theorem Flow.redirected_emitting (out : Word) (payload : Payload) :
    Flow.redirected t (World.emitting s out payload who) = World.emitting s out payload who := rfl

omit [World σ] in
@[simp]
theorem Flow.redirected_next : Flow.redirected t (.next, s) = (.next, s) := rfl

/-- Only the target of a branch depends on the target of the instruction. -/
theorem Instr.execute_withTarget (i : Instr) (r : RandomStream) :
    (i.withTarget t).execute who r s = Flow.redirected t (i.execute who r s) := by
  have hbranch (zero : Bool) (flow flow' : Flow) (s : σ) :
      Flow.redirected t (if zero then flow else flow', s) =
        (if zero then flow.redirect t else flow'.redirect t, s) := by
    cases zero <;> rfl
  cases i with
  | jumpIfZero | jumpIfNotZero | ifNonzero =>
    simp only [execute, withTarget, Flow.redirected_loading, hbranch]
    rfl
  | outputList out list =>
    simp only [execute, withTarget, Flow.redirected_asking]
    congr 1
    funext items? s
    cases items? <;> rfl
  | jump | call | orElse | halt | ret => rfl
  | _ => simp [execute, withTarget]

end World

theorem Instr.advanceStream_withTarget (t : Word) (i : Instr) (r : RandomStream) :
    (i.withTarget t).advanceStream r = i.advanceStream r := by
  cases i <;> rfl

@[simp]
theorem Instr.opcode_withTarget (t : Word) (i : Instr) : (i.withTarget t).opcode = i.opcode := by
  cases i <;> rfl

theorem Instr.withTarget_eq_self (t : Word) {i : Instr} (hbranch : i.opcode.isBranch = false)
    (hskip : i.opcode.hasSkipTarget = false) : i.withTarget t = i := by
  cases i
  case jump | jumpIfZero | jumpIfNotZero | call => cases hbranch
  case ifNonzero | orElse => cases hskip
  all_goals rfl

theorem Instr.exists_decode? {op : Opcode} {ws : List Word} (h : ws.length = op.payload) :
    ∃ i, decode? op ws = some i := by
  cases op <;> rcases ws with _ | ⟨a, _ | ⟨b, _ | ⟨c, _ | ⟨d, ws⟩⟩⟩⟩ <;>
    first | exact ⟨_, rfl⟩ | cases h

namespace Linked

variable {p : List SymbolicInstr} {l : Layout} {i : Nat} {x : SymbolicInstr}

theorem encode_of_names (h : Linked p l) (hx : p[i]? = some x) {kind : SymbolKind} {id : UInt32}
    (hnames : x.Names kind id) :
    ∃ j, x.view? = some j ∧
      l.encode (placedAt p i x) =
        (j.withTarget (.ofNat (address p (branchIndex p i j)))).encode := by
  have hresolve := h.resolveOperands_of_names hx hnames
  cases hnames with
  | jump =>
    refine ⟨.jump ⟨id⟩, rfl, ?_⟩
    exact congrArg (Word.ofNat Opcode.jump.id :: ·) hresolve
  | jumpIfZero reg =>
    refine ⟨.jumpIfZero ⟨reg⟩ ⟨id⟩, rfl, ?_⟩
    exact congrArg (Word.ofNat Opcode.jumpIfZero.id :: ·) hresolve
  | jumpIfNotZero reg =>
    refine ⟨.jumpIfNotZero ⟨reg⟩ ⟨id⟩, rfl, ?_⟩
    exact congrArg (Word.ofNat Opcode.jumpIfNotZero.id :: ·) hresolve
  | call =>
    refine ⟨.call ⟨id⟩, rfl, ?_⟩
    exact congrArg (Word.ofNat Opcode.call.id :: ·) hresolve

theorem encode_of_skip (h : Linked p l) (hx : p[i]? = some x) (href : x.reference? = none)
    (hskip : x.op.hasSkipTarget = true) :
    ∃ j, x.view? = some j ∧
      l.encode (placedAt p i x) =
        (j.withTarget (.ofNat (address p (branchIndex p i j)))).encode := by
  have hlen := Scan.length_operands_of_hasArity (h.arity x (List.mem_of_getElem? hx)) rfl
  have hresolve := h.resolveOperands_of_skip hx href hskip
  obtain ⟨op, operands⟩ := x
  rcases Opcode.hasSkipTarget_iff.1 hskip with rfl | rfl
  · match operands, hlen with
    | [test], _ =>
      refine ⟨.ifNonzero test .zero, rfl, ?_⟩
      exact congrArg (Word.ofNat Opcode.ifNonzero.id :: ·) hresolve
  · match operands, hlen with
    | [], _ =>
      refine ⟨.orElse .zero, rfl, ?_⟩
      exact congrArg (Word.ofNat Opcode.orElse.id :: ·) hresolve

theorem encode_of_plain (h : Linked p l) (hx : p[i]? = some x) (href : x.reference? = none)
    (hskip : x.op.hasSkipTarget = false) (hop : x.op ≠ .listPreload) :
    ∃ j, x.view? = some j ∧
      l.encode (placedAt p i x) =
        (j.withTarget (.ofNat (address p (branchIndex p i j)))).encode := by
  have harity := h.arity x (List.mem_of_getElem? hx)
  have hpayload : x.operands.length = x.op.payload := by
    rw [Opcode.payload_of_no_skip hskip]
    exact Scan.length_operands_of_hasArity harity rfl
  obtain ⟨j, hj⟩ := Instr.exists_decode? hpayload
  have hopcode := Instr.opcode_of_decode? hj
  have hplain : ∀ t, j.withTarget t = j := by
    intro t
    apply Instr.withTarget_eq_self
    · rw [hopcode]
      exact (SymbolicInstr.reference?_eq_none_iff harity).1 href
    · rw [hopcode, hskip]
  refine ⟨j, ?_, ?_⟩
  · rw [SymbolicInstr.view?, if_neg (by simp [hskip]), hj]
  · rw [hplain, Instr.encode, hopcode, Instr.operands_of_decode? hj,
      l.encode_of_ne_preload (x := placedAt p i x) hop, resolveOperands_of_plain href hskip]
    rfl

/-- In the words, a branch of an instruction leads to the address of its branch index. -/
theorem encode_eq (h : Linked p l) (hx : p[i]? = some x) (hop : x.op ≠ .listPreload) :
    ∃ j, x.view? = some j ∧
      l.encode (placedAt p i x) =
        (j.withTarget (.ofNat (address p (branchIndex p i j)))).encode := by
  cases href : x.reference? with
  | some symbol =>
    have harity := h.arity x (List.mem_of_getElem? hx)
    exact h.encode_of_names hx ((SymbolicInstr.reference?_eq_some_iff harity).1 href)
  | none =>
    cases hskip : x.op.hasSkipTarget with
    | true => exact h.encode_of_skip hx href hskip
    | false => exact h.encode_of_plain hx href hskip hop

end Linked

end RegisterMachine
