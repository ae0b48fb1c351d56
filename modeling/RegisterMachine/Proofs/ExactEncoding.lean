import RegisterMachine.Proofs.Encoding

/-!
# Exact encoding

The words, symbol tables and preloads of an accepted program are determined by the program alone:
each instruction stands at the sum of the widths before it, a branch carries the address behind
its marker, and a branching member of a conditional block the address behind the member that the
block grammar matches it with. The grammar with its pairs is stated on its own; the scan, which
fills in addresses while it goes, is not part of it.
-/

namespace RegisterMachine

/-- A derivation of the block grammar for the instructions from index `n` on, with the pairs of
indices that it matches: a test with its alternative or, without one, with the end of its block,
and an alternative with the end of its block. -/
inductive Pairs : Nat → List SymbolicInstr → List (Nat × Nat) → Prop
  | nil (n : Nat) : Pairs n [] []
  | plain {n : Nat} {x : SymbolicInstr} {rest : List SymbolicInstr} {ps : List (Nat × Nat)} :
      x.op.isConditional = false → Pairs (n + 1) rest ps → Pairs n (x :: rest) ps
  | block {n : Nat} {test fin : SymbolicInstr} {body rest : List SymbolicInstr}
      {ps qs : List (Nat × Nat)} : test.op = .ifNonzero → fin.op = .endIf →
      Pairs (n + 1) body ps → Pairs (n + body.length + 2) rest qs →
      Pairs n (test :: (body ++ fin :: rest)) ((n, n + body.length + 1) :: (ps ++ qs))
  | choice {n : Nat} {test other fin : SymbolicInstr} {body alternative rest : List SymbolicInstr}
      {ps qs rs : List (Nat × Nat)} : test.op = .ifNonzero → other.op = .orElse →
      fin.op = .endIf → Pairs (n + 1) body ps → Pairs (n + body.length + 2) alternative qs →
      Pairs (n + body.length + alternative.length + 3) rest rs →
      Pairs n (test :: (body ++ other :: (alternative ++ fin :: rest)))
        ((n, n + body.length + 1) ::
          (n + body.length + 1, n + body.length + alternative.length + 2) :: (ps ++ qs ++ rs))

namespace Pairs

variable {n : Nat} {p q : List SymbolicInstr} {ps : List (Nat × Nat)}

theorem conditionals_member {x : SymbolicInstr} {op : Opcode} (h : x.op = op)
    (hop : op.isConditional = true) (p : List SymbolicInstr) :
    conditionals (x :: p) = op :: conditionals p := by
  rw [conditionals_cons_of_pos (by rw [h, hop]), h]

theorem blockWord (h : Pairs n q ps) : BlockWord (conditionals q) := by
  induction h with
  | nil n => exact .empty
  | plain hx _ ih =>
    rw [conditionals_cons_of_neg hx]
    exact ih
  | block htest hfin _ _ ihBody ihRest =>
    rw [conditionals_member htest rfl, conditionals_append, conditionals_member hfin rfl]
    exact .block ihBody ihRest
  | choice htest hother hfin _ _ _ ihBody ihAlternative ihRest =>
    rw [conditionals_member htest rfl, conditionals_append, conditionals_member hother rfl,
      conditionals_append, conditionals_member hfin rfl]
    exact .choice ihBody ihAlternative ihRest

theorem prepend (hplain : conditionals p = []) (h : Pairs (n + p.length) q ps) :
    Pairs n (p ++ q) ps := by
  induction p generalizing n with
  | nil => exact h
  | cons x p ih =>
    cases hx : x.op.isConditional with
    | true =>
      rw [conditionals_cons_of_pos hx] at hplain
      cases hplain
    | false =>
      rw [conditionals_cons_of_neg hx] at hplain
      have hshift : n + (x :: p).length = n + 1 + p.length := by
        simp only [List.length_cons]
        omega
      rw [hshift] at h
      exact .plain hx (ih hplain h)

end Pairs

/-- A member among the conditional ones stands somewhere in the program. -/
theorem exists_of_conditionals {q : List SymbolicInstr} {op : Opcode} {u v : List Opcode}
    (h : conditionals q = u ++ op :: v) :
    ∃ before x after, q = before ++ x :: after ∧ x.op = op ∧
      conditionals before = u ∧ conditionals after = v := by
  obtain ⟨ops₁, ops', hops, rfl, hops'⟩ := List.filter_eq_append_iff.1 h
  obtain ⟨ops₂, ops₃, rfl, hnone, hop, rfl⟩ := List.filter_eq_cons_iff.1 hops'
  obtain ⟨q₁, q', rfl, rfl, hq'⟩ := List.map_eq_append_iff.1 hops
  obtain ⟨q₂, q'', rfl, rfl, hq''⟩ := List.map_eq_append_iff.1 hq'
  obtain ⟨x, q₃, rfl, rfl, rfl⟩ := List.map_eq_cons_iff.1 hq''
  have hbetween : conditionals q₂ = [] := List.filter_eq_nil_iff.2 hnone
  refine ⟨q₁ ++ q₂, x, q₃, by simp, rfl, ?_, rfl⟩
  rw [conditionals_append, hbetween, List.append_nil]
  rfl

theorem exists_pairs {u : List Opcode} (h : BlockWord u) {q : List SymbolicInstr}
    (hq : conditionals q = u) (n : Nat) : ∃ ps, Pairs n q ps := by
  induction h generalizing q n with
  | empty =>
    have hnil := Pairs.prepend (q := []) (n := n) hq (.nil _)
    rw [List.append_nil] at hnil
    exact ⟨[], hnil⟩
  | block _ _ ihBody ihRest =>
    obtain ⟨before, test, q, rfl, htest, hbefore, hq⟩ := exists_of_conditionals (u := []) hq
    obtain ⟨body, fin, rest, rfl, hfin, hbody, hrest⟩ := exists_of_conditionals hq
    obtain ⟨ps, hps⟩ := ihBody hbody (n + before.length + 1)
    obtain ⟨qs, hqs⟩ := ihRest hrest (n + before.length + body.length + 2)
    exact ⟨_, .prepend hbefore (.block htest hfin hps hqs)⟩
  | choice _ _ _ ihBody ihAlternative ihRest =>
    obtain ⟨before, test, q, rfl, htest, hbefore, hq⟩ := exists_of_conditionals (u := []) hq
    obtain ⟨body, other, q, rfl, hother, hbody, hq⟩ := exists_of_conditionals hq
    obtain ⟨alternative, fin, rest, rfl, hfin, halternative, hrest⟩ := exists_of_conditionals hq
    obtain ⟨ps, hps⟩ := ihBody hbody (n + before.length + 1)
    obtain ⟨qs, hqs⟩ := ihAlternative halternative (n + before.length + body.length + 2)
    obtain ⟨rs, hrs⟩ :=
      ihRest hrest (n + before.length + body.length + alternative.length + 3)
    exact ⟨_, .prepend hbefore (.choice htest hother hfin hps hqs hrs)⟩

/-- Each branching member among instructions from index `n` on is the first of a pair. -/
def Covers (n : Nat) (q : List SymbolicInstr) (ps : List (Nat × Nat)) : Prop :=
  ∀ i x, q[i]? = some x → x.op.hasSkipTarget = true → ∃ k, (n + i, k) ∈ ps

theorem Covers.cons {n : Nat} {x : SymbolicInstr} {q : List SymbolicInstr} {ps : List (Nat × Nat)}
    (hx : x.op.hasSkipTarget = true → ∃ k, (n, k) ∈ ps) (h : Covers (n + 1) q ps) :
    Covers n (x :: q) ps := by
  intro i y hy hskip
  cases i with
  | zero =>
    cases hy
    exact hx hskip
  | succ i =>
    obtain ⟨k, hk⟩ := h i y hy hskip
    have hindex : n + (i + 1) = n + 1 + i := by omega
    exact ⟨k, by rwa [hindex]⟩

theorem Covers.append {n : Nat} {q q' : List SymbolicInstr} {ps : List (Nat × Nat)}
    (h : Covers n q ps) (h' : Covers (n + q.length) q' ps) : Covers n (q ++ q') ps := by
  intro i x hx hskip
  rcases Nat.lt_or_ge i q.length with hlt | hge
  · rw [List.getElem?_append_left hlt] at hx
    exact h i x hx hskip
  · rw [List.getElem?_append_right hge] at hx
    obtain ⟨k, hk⟩ := h' (i - q.length) x hx hskip
    have hindex : n + i = n + q.length + (i - q.length) := by omega
    exact ⟨k, by rwa [hindex]⟩

theorem Covers.mono {n m : Nat} {q : List SymbolicInstr} {ps qs : List (Nat × Nat)}
    (h : Covers n q ps) (hle : ∀ pair ∈ ps, pair ∈ qs) (hm : m = n) : Covers m q qs := by
  subst hm
  intro i x hx hskip
  obtain ⟨k, hk⟩ := h i x hx hskip
  exact ⟨k, hle _ hk⟩

namespace Pairs

variable {n : Nat} {p q : List SymbolicInstr} {ps : List (Nat × Nat)}

theorem covers (h : Pairs n q ps) : Covers n q ps := by
  have hunskipped {x : SymbolicInstr} {op : Opcode} (hop : x.op = op)
      (hno : op.hasSkipTarget = false) {P : Prop} (hskip : x.op.hasSkipTarget = true) : P := by
    rw [hop, hno] at hskip
    cases hskip
  induction h with
  | nil n =>
    intro i x hx
    cases hx
  | plain hplain _ ih =>
    refine .cons (fun hskip => ?_) ih
    rcases Opcode.hasSkipTarget_iff.1 hskip with hop | hop <;> rw [hop] at hplain <;> cases hplain
  | block htest hfin _ _ ihBody ihRest =>
    refine .cons (fun _ => ⟨_, List.mem_cons_self⟩) (.append ?_ (.cons (hunskipped hfin rfl) ?_))
    · exact ihBody.mono (by simp +contextual) rfl
    · exact ihRest.mono (by simp +contextual) (by omega)
  | choice htest hother hfin _ _ _ ihBody ihAlternative ihRest =>
    refine .cons (fun _ => ⟨_, List.mem_cons_self⟩) (.append ?_ (.cons (fun _ => ?_)
      (.append ?_ (.cons (hunskipped hfin rfl) ?_))))
    · exact ihBody.mono (by simp +contextual) rfl
    · exact ⟨_, List.mem_cons_of_mem _ (by rw [Nat.add_right_comm]; exact List.mem_cons_self)⟩
    · exact ihAlternative.mono (by simp +contextual) (by omega)
    · exact ihRest.mono (by simp +contextual) (by omega)

theorem drop_of_drop_eq_append {m : Nat} {u v : List SymbolicInstr} (h : p.drop n = u ++ v)
    (hm : m = n + u.length) : p.drop m = v := by
  rw [hm, ← List.drop_drop, h, List.drop_left]

theorem drop_of_drop_eq_cons {m : Nat} {x : SymbolicInstr} {v : List SymbolicInstr}
    (h : p.drop n = x :: v) (hm : m = n + 1) : p.drop m = v :=
  drop_of_drop_eq_append (u := [x]) h hm

theorem skipIndex_of_drop {op : Opcode} {x y : SymbolicInstr} {u v : List SymbolicInstr}
    (h : p.drop n = x :: (u ++ y :: v)) (hu : BlockWord (conditionals u)) (hx : x.op = op)
    (hy : closes op y.op = true) :
    ∃ z, p[n]? = some z ∧ skipIndex p z.op n = n + u.length + 1 + 1 := by
  have hget : p[n]? = some x := by
    have hhead := congrArg (fun l => l[0]?) h
    simpa using hhead
  refine ⟨x, hget, ?_⟩
  rw [skipIndex, drop_of_drop_eq_cons h rfl, hx, skipped_nested hu hy]
  omega

theorem skipIndex_eq (h : Pairs n q ps) {after : List SymbolicInstr} (hq : p.drop n = q ++ after)
    {i k : Nat} (hmem : (i, k) ∈ ps) : ∃ x, p[i]? = some x ∧ skipIndex p x.op i = k + 1 := by
  induction h generalizing after with
  | nil n => cases hmem
  | plain _ _ ih => exact ih (drop_of_drop_eq_cons hq rfl) hmem
  | @block n test fin body rest ps qs htest hfin hbody _ ihBody ihRest =>
    have htests : p.drop n = test :: (body ++ fin :: (rest ++ after)) := by simpa using hq
    have hbodies := drop_of_drop_eq_cons htests rfl
    have hends := drop_of_drop_eq_append hbodies rfl
    rcases List.mem_cons.1 hmem with heq | hmem
    · obtain ⟨rfl, rfl⟩ := Prod.mk.inj heq
      exact skipIndex_of_drop htests hbody.blockWord htest (by rw [hfin]; rfl)
    rcases List.mem_append.1 hmem with hmem | hmem
    · exact ihBody hbodies hmem
    · exact ihRest (drop_of_drop_eq_cons hends (by omega)) hmem
  | @choice n test other fin body alternative rest ps qs rs htest hother hfin hbody halternative _
      ihBody ihAlternative ihRest =>
    have htests : p.drop n =
        test :: (body ++ other :: (alternative ++ fin :: (rest ++ after))) := by simpa using hq
    have hbodies := drop_of_drop_eq_cons htests rfl
    have hothers : p.drop (n + body.length + 1) = _ := drop_of_drop_eq_append hbodies (by omega)
    have halternatives := drop_of_drop_eq_cons hothers rfl
    have hends := drop_of_drop_eq_append halternatives rfl
    rcases List.mem_cons.1 hmem with heq | hmem
    · obtain ⟨rfl, rfl⟩ := Prod.mk.inj heq
      exact skipIndex_of_drop htests hbody.blockWord htest (by rw [hother]; rfl)
    rcases List.mem_cons.1 hmem with heq | hmem
    · obtain ⟨rfl, rfl⟩ := Prod.mk.inj heq
      obtain ⟨x, hx, hskip⟩ :=
        skipIndex_of_drop hothers halternative.blockWord hother (by rw [hfin]; rfl)
      exact ⟨x, hx, by omega⟩
    rcases List.mem_append.1 hmem with hmem | hmem
    · rcases List.mem_append.1 hmem with hmem | hmem
      · exact ihBody hbodies hmem
      · exact ihAlternative halternatives hmem
    · exact ihRest (drop_of_drop_eq_cons hends (by omega)) hmem

end Pairs

/-! ### The words of an instruction -/

/-- What the instruction at an index of a program is encoded as: its number and its operands, with
the address behind its marker in the place of a symbol, and the address behind the matched member
after those of a branching member. A preload is three no-ops, which are zero. -/
inductive EncodedAs (p : List SymbolicInstr) (ps : List (Nat × Nat)) (i : Nat) :
    SymbolicInstr → List Word → Prop
  | branch {x : SymbolicInstr} {kind : SymbolKind} {id : UInt32} {j : Nat} {target : Word} :
      x.Names kind id → p[j]? = some (kind.marker id) →
      (∀ j', p[j']? = some (kind.marker id) → j' = j) → target.toNat = address p j + 2 →
      EncodedAs p ps i x (.ofNat x.op.id :: (x.operands.dropLast ++ [target]))
  | skip {x : SymbolicInstr} {k : Nat} {target : Word} :
      x.op.hasSkipTarget = true → (i, k) ∈ ps → target.toNat = address p (k + 1) →
      EncodedAs p ps i x (.ofNat x.op.id :: (x.operands ++ [target]))
  | preload {list key : UInt32} :
      EncodedAs p ps i (.listPreload list key) [⟨0⟩, ⟨0⟩, ⟨0⟩]
  | plain {x : SymbolicInstr} :
      x.op.isBranch = false → x.op.hasSkipTarget = false → x.op ≠ .listPreload →
      EncodedAs p ps i x (.ofNat x.op.id :: x.operands)

/-- What assembly must make of a program. -/
structure Encodes (p : List SymbolicInstr) (a : Assembly) : Prop where
  size : a.program.words.size = encodedWidth p
  nests : ∃ ps, Pairs 0 p ps
  words : ∀ ps, Pairs 0 p ps → ∀ i x, p[i]? = some x →
    EncodedAs p ps i x (a.program.words.extract (address p i) (address p i + x.width)).toList
  labels : ∀ id t, a.program.labels.find? id = some t ↔
    ∃ j, p[j]? = some (.label id) ∧ t = address p j + 2
  functions : ∀ id t, a.program.functions.find? id = some t ↔
    ∃ j, p[j]? = some (.function id) ∧ t = address p j + 2
  preloads : a.preloads.map (fun b => (SymbolicInstr.listPreload b.list b.key, b.pc)) =
    (p.zipIdx.map fun x => (x.1, address p x.2)).filter fun x => x.1.op == .listPreload

namespace Program

theorem HasCode.toList_extract {p : Program} {pc : Nat} {ws : List Word} (h : p.HasCode pc ws) :
    (p.words.extract pc (pc + ws.length)).toList = ws := by
  obtain ⟨before, after, hwords, rfl⟩ := h
  rw [Array.toList_extract, List.extract_eq_take_drop, hwords, List.append_assoc, List.drop_left,
    Nat.add_sub_cancel_left, List.take_left]

end Program

theorem SymbolKind.width_marker (kind : SymbolKind) (id : UInt32) : (kind.marker id).width = 2 := by
  cases kind <;> rfl

theorem SymbolicInstr.Names.ne_preload {x : SymbolicInstr} {kind : SymbolKind} {id : UInt32}
    (h : x.Names kind id) : x.op ≠ .listPreload := by
  cases h <;> exact Opcode.noConfusion

theorem SymbolicInstr.eq_listPreload {x : SymbolicInstr} (h : x.hasArity = true)
    (hop : x.op = .listPreload) : ∃ list key, x = .listPreload list key := by
  obtain ⟨op, operands⟩ := x
  obtain rfl : op = .listPreload := hop
  have hlen := Scan.length_operands_of_hasArity h rfl
  match operands, hlen with
  | [list, key], _ => exact ⟨list.bits, key.bits, rfl⟩

theorem toNat_ofNat_address {p : List SymbolicInstr} (hwidth : encodedWidth p < 4294967296)
    (i : Nat) : (Word.ofNat (address p i)).toNat = address p i :=
  Word.toNat_ofNat_of_lt (Nat.lt_of_le_of_lt (address_le p i) hwidth)

namespace Linked

variable {p : List SymbolicInstr} {l : Layout} {i : Nat} {x : SymbolicInstr}

theorem encodedAs (h : Linked p l) (wf : WellFormed p) (hwidth : encodedWidth p < 4294967296)
    {ps : List (Nat × Nat)} (hps : Pairs 0 p ps) (hx : p[i]? = some x) :
    EncodedAs p ps i x (l.encode (placedAt p i x)) := by
  have hmem := List.mem_of_getElem? hx
  have harity := h.arity x hmem
  cases href : x.reference? with
  | some symbol =>
    obtain ⟨kind, id⟩ := symbol
    have hnames := (SymbolicInstr.reference?_eq_some_iff harity).1 href
    have hmarked := h.marked x hmem kind id hnames
    have hmarker : p[p.idxOf (kind.marker id)]? = some (kind.marker id) := by
      rw [List.getElem?_eq_getElem (List.idxOf_lt_length_of_mem hmarked), List.getElem_idxOf]
    rw [l.encode_of_ne_preload (x := placedAt p i x) hnames.ne_preload,
      h.resolveOperands_of_names hx hnames]
    refine .branch hnames hmarker (fun j hj => wf.index_eq hj hmarker) ?_
    rw [toNat_ofNat_address hwidth, address_succ hmarker, kind.width_marker]
  | none =>
    cases hskip : x.op.hasSkipTarget with
    | true =>
      have hop : x.op ≠ .listPreload := by
        rcases Opcode.hasSkipTarget_iff.1 hskip with hop | hop <;> rw [hop] <;>
          exact Opcode.noConfusion
      obtain ⟨k, hk⟩ := hps.covers i x hx hskip
      rw [Nat.zero_add] at hk
      have hwhole : p.drop 0 = p ++ [] := by simp
      obtain ⟨y, hy, hindex⟩ := hps.skipIndex_eq hwhole hk
      obtain rfl : x = y := Option.some.inj (hx.symm.trans hy)
      rw [l.encode_of_ne_preload (x := placedAt p i x) hop, h.resolveOperands_of_skip hx href hskip]
      refine .skip hskip hk ?_
      rw [toNat_ofNat_address hwidth, hindex]
    | false =>
      by_cases hop : x.op = .listPreload
      · obtain ⟨list, key, rfl⟩ := SymbolicInstr.eq_listPreload harity hop
        exact .preload
      · rw [l.encode_of_ne_preload (x := placedAt p i x) hop,
          resolveOperands_of_plain href hskip]
        exact .plain ((SymbolicInstr.reference?_eq_none_iff harity).1 href) hskip hop

end Linked

/-! ### Tables -/

/-- A symbol leads behind its marker, and there are no other symbols. -/
theorem target?_scan_iff {p : List SymbolicInstr} (hfaults : (scan (place p)).faults = #[])
    (kind : SymbolKind) (id : UInt32) (t : Nat) :
    (scan (place p)).layout.target? kind id = some t ↔
      ∃ j, p[j]? = some (kind.marker id) ∧ t = address p j + 2 := by
  rw [← scanned_length] at hfaults ⊢
  rw [(symbolFacts (Nat.le_refl _) hfaults).target kind id t]
  constructor
  · rintro ⟨j, _, hj, rfl⟩
    exact ⟨j, hj, by rw [address_succ hj, kind.width_marker]⟩
  · rintro ⟨j, hj, rfl⟩
    exact ⟨j, (List.getElem?_eq_some_iff.1 hj).1, hj, by rw [address_succ hj, kind.width_marker]⟩

theorem place_eq_map_zipIdx (p : List SymbolicInstr) :
    place p = p.zipIdx.map fun x => placedAt p x.2 x.1 := by
  apply List.ext_getElem?
  intro i
  rw [getElem?_place]
  simp [Function.comp_def]

theorem SymbolicInstr.binding?_of_ne {x : SymbolicInstr} (h : x.op ≠ .listPreload) (pc : Nat) :
    x.binding? pc = none := by
  unfold binding?
  split
  case h_1 hop _ => exact absurd hop h
  case h_2 => rfl

/-- The bindings of instructions in their places, each with the instruction that asked for it. -/
theorem map_bindings {placed : List Placed} (h : ∀ x ∈ placed, x.instr.hasArity = true) :
    (placed.filterMap fun x => x.instr.binding? x.location.pc).map
        (fun b => (SymbolicInstr.listPreload b.list b.key, b.pc)) =
      (placed.map fun x => (x.instr, x.location.pc)).filter fun x => x.1.op == .listPreload := by
  induction placed with
  | nil => rfl
  | cons x placed ih =>
    have hrest := ih fun y hy => h y (List.mem_cons_of_mem _ hy)
    by_cases hop : x.instr.op = .listPreload
    · obtain ⟨list, key, hx⟩ := SymbolicInstr.eq_listPreload (h x List.mem_cons_self) hop
      have hbinding : x.instr.binding? x.location.pc = some ⟨list, key, x.location.pc⟩ := by
        rw [hx]
        rfl
      simp only [List.filterMap_cons, hbinding, List.map_cons, hrest]
      rw [List.filter_cons_of_pos (by simp [hop]), hx]
    · simp only [List.filterMap_cons, SymbolicInstr.binding?_of_ne hop, List.map_cons, hrest]
      rw [List.filter_cons_of_neg (by simp [hop])]

/-- An accepted program that fits in thirty-two bits is encoded exactly. -/
theorem assembled_exactly {p : List SymbolicInstr} {a : Assembly} (h : assemble p = .ok a)
    (hwidth : encodedWidth p < 4294967296) : Encodes p a := by
  obtain ⟨hcheck, rfl⟩ := assemble_eq_ok_iff.1 h
  have wf := wellFormed_of_check hcheck
  have linked := linked_of_check hcheck
  obtain ⟨hfaults, _, _⟩ := check_eq_nil_iff.1 hcheck
  refine ⟨linked.size_words, exists_pairs wf.blocks rfl 0, ?_, ?_, ?_, ?_⟩
  · intro ps hps i x hx
    have hlength : ((scan (place p)).layout.encode (placedAt p i x)).length = x.width :=
      Layout.length_encode _ (linked.arity x (List.mem_of_getElem? hx))
    have hextract := (linked.hasCode hx).toList_extract
    rw [hlength] at hextract
    rw [hextract]
    exact linked.encodedAs wf hwidth hps hx
  · intro id t
    exact target?_scan_iff hfaults .label id t
  · intro id t
    exact target?_scan_iff hfaults .function id t
  · have harity : ∀ x ∈ place p, x.instr.hasArity = true := by
      intro x hx
      obtain ⟨i, y, hy, rfl⟩ := mem_place_iff.1 hx
      exact linked.arity y (List.mem_of_getElem? hy)
    have hplaces : (place p).map (fun x => (x.instr, x.location.pc)) =
        p.zipIdx.map fun x => (x.1, address p x.2) := by
      rw [place_eq_map_zipIdx, List.map_map]
      rfl
    rw [← hplaces]
    exact map_bindings harity

/-- A block with an alternative inside one without, a preload, and a branch back to a marker. -/
def nestedBlocks : List SymbolicInstr :=
  [.label 9, .ifNonzero 0, .ifNonzero 1, .listPreload 3 4, .orElse, .jump 9, .endIf, .endIf]

theorem nestedBlocks_assembled_exactly :
    ∃ a, assemble nestedBlocks = .ok a ∧ encodedWidth nestedBlocks < 4294967296 ∧
      Encodes nestedBlocks a := by
  obtain ⟨a, ha⟩ : ∃ a, assemble nestedBlocks = .ok a :=
    ⟨link nestedBlocks, assemble_eq_ok_iff.2 ⟨by decide, rfl⟩⟩
  exact ⟨a, ha, by decide, assembled_exactly ha (by decide)⟩

end RegisterMachine
