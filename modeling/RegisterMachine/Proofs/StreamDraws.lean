import RegisterMachine.Output
import RegisterMachine.RandomStream

/-!
# Draws of random streams

Every part of scrambling loses nothing: an odd factor has an inverse, and a word that equals its
own shift to the right is zero. Distinct counters therefore give distinct draws, and what is left
to compare are counters: those of two contexts, of two seeds, and of two positions in a stream.
-/

namespace RegisterMachine

theorem mul_inj_of_inverse {factor x y : UInt64} (inverse : UInt64) (hunit : factor * inverse = 1)
    (h : x * factor = y * factor) : x = y := by
  have hback := congrArg (fun z => z * inverse) h
  simpa only [UInt64.mul_assoc, hunit, UInt64.mul_one] using hback

theorem xor_right_inj {x y mask : UInt64} (h : x ^^^ mask = y ^^^ mask) : x = y := by
  have hback := congrArg (fun z => z ^^^ mask) h
  simpa only [UInt64.xor_assoc, UInt64.xor_self, UInt64.xor_zero] using hback

theorem xor_left_inj {x y mask : UInt64} (h : mask ^^^ x = mask ^^^ y) : x = y := by
  rw [UInt64.xor_comm mask x, UInt64.xor_comm mask y] at h
  exact xor_right_inj h

theorem eq_zero_of_shiftRight {n d : UInt64} (hn : 0 < n.toNat % 64) (h : d >>> n = d) :
    d = 0 := by
  have hquotient : d.toNat / 2 ^ (n.toNat % 64) = d.toNat := by
    rw [← Nat.shiftRight_eq_div_pow, ← UInt64.toNat_shiftRight, h]
  have htwo : 1 < 2 ^ (n.toNat % 64) := Nat.one_lt_two_pow (by omega)
  apply UInt64.toNat_inj.1
  rcases Nat.eq_zero_or_pos d.toNat with hzero | hpos
  · exact hzero
  · have hlt := Nat.div_lt_self hpos htwo
    omega

/-- The difference of two words with the same image is left alone by the shift. -/
theorem xorShift_inj {n x y : UInt64} (hn : 0 < n.toNat % 64)
    (h : x ^^^ (x >>> n) = y ^^^ (y >>> n)) : x = y := by
  have hdifference : (x ^^^ y) >>> n = x ^^^ y := by
    have hcross : (x >>> n) ^^^ (y >>> n) = x ^^^ y := by
      have hmoved := congrArg (fun z => x ^^^ z ^^^ (y >>> n)) h
      simp only [← UInt64.xor_assoc, UInt64.xor_self, UInt64.zero_xor] at hmoved
      rw [hmoved, UInt64.xor_assoc, UInt64.xor_self, UInt64.xor_zero]
    rw [UInt64.shiftRight_xor, hcross]
  have hzero := eq_zero_of_shiftRight hn hdifference
  rw [← UInt64.xor_self (a := y)] at hzero
  exact xor_right_inj hzero

namespace ContextId

theorem toNat_ordinal_function (id : UInt32) : (function id).ordinal.toNat = id.toNat + 1 := by
  have hid := id.toNat_lt
  rw [ordinal, UInt64.toNat_add, UInt32.toNat_toUInt64]
  have hone : (1 : UInt64).toNat = 1 := rfl
  rw [hone]
  exact Nat.mod_eq_of_lt (by omega)

/-- No context has the number of another: those of functions begin after that of the main one and
do not wrap. -/
theorem ordinal_inj {a b : ContextId} (h : a.ordinal = b.ordinal) : a = b := by
  have hvalue := congrArg UInt64.toNat h
  have hmain : main.ordinal.toNat = 0 := rfl
  cases a with
  | main =>
    cases b with
    | main => rfl
    | function id =>
      rw [hmain, toNat_ordinal_function] at hvalue
      omega
  | function id =>
    cases b with
    | main =>
      rw [hmain, toNat_ordinal_function] at hvalue
      omega
    | function id' =>
      rw [toNat_ordinal_function, toNat_ordinal_function] at hvalue
      have hid : id = id' := UInt32.toNat_inj.1 (by omega)
      rw [hid]

end ContextId

namespace RandomStream

theorem scramble_inj {x y : UInt64} (h : scramble x = scramble y) : x = y := by
  have hsecond := mul_inj_of_inverse 0x319642b2d24d8ec3 (by decide) (xorShift_inj (by decide) h)
  have hfirst :=
    mul_inj_of_inverse 0x96de1b173f119089 (by decide) (xorShift_inj (by decide) hsecond)
  exact xorShift_inj (by decide) hfirst

theorem increment_inj {x y : UInt64} (h : x * increment = y * increment) : x = y :=
  mul_inj_of_inverse 0xf1de83e19937733d (by decide) h

def after (s : RandomStream) : Nat → RandomStream
  | 0 => s
  | k + 1 => (s.after k).advance

/-- The draw at a position of a stream; positions count from zero. -/
def drawAt (s : RandomStream) (k : Nat) : UInt64 := (s.after k).draw

theorem state_after (s : RandomStream) (k : Nat) :
    (s.after k).state = s.state + UInt64.ofNat k * increment := by
  induction k with
  | zero =>
    have hzero : UInt64.ofNat 0 = 0 := rfl
    rw [after, hzero, UInt64.zero_mul, UInt64.add_zero]
  | succ k ih =>
    have hone : UInt64.ofNat 1 = 1 := rfl
    rw [after, advance, ih, UInt64.ofNat_add, hone, UInt64.add_mul, UInt64.one_mul,
      UInt64.add_assoc]

theorem drawAt_eq (s : RandomStream) (k : Nat) :
    s.drawAt k = scramble (s.state + UInt64.ofNat (k + 1) * increment) := by
  rw [← state_after]
  rfl

theorem eq_of_drawAt {s t : RandomStream} {k : Nat} (h : s.drawAt k = t.drawAt k) : s = t := by
  rw [drawAt_eq, drawAt_eq] at h
  have hcounter := scramble_inj h
  have hstate : s.state = t.state := (UInt64.add_left_inj _).1 hcounter
  cases s
  cases t
  exact congrArg mk hstate

theorem draw_inj {s t : RandomStream} (h : s.draw = t.draw) : s = t := eq_of_drawAt (k := 0) h

theorem drawAt_ne {s : RandomStream} {i j : Nat} (hlt : i < j)
    (hnear : j < i + 18446744073709551616) : s.drawAt i ≠ s.drawAt j := by
  intro h
  rw [drawAt_eq, drawAt_eq] at h
  have hcounter := scramble_inj h
  have hposition := increment_inj ((UInt64.add_right_inj _).1 hcounter)
  have hvalue := congrArg UInt64.toNat hposition
  rw [UInt64.toNat_ofNat', UInt64.toNat_ofNat'] at hvalue
  omega

/-- Two streams derived from seeds and numbers are the same only if the derivations start from one
counter. -/
theorem forContext_inj {seed seed' ordinal ordinal' : UInt64}
    (h : forContext seed ordinal = forContext seed' ordinal') :
    seed ^^^ (ordinal * increment) = seed' ^^^ (ordinal' * increment) :=
  congrArg state (draw_inj (congrArg state h))

/-- No two contexts of one seed, and no two seeds of one context, draw the same at any position,
and no stream draws the same at two positions that are less than all counters apart. -/
theorem draws_never_collide :
    (∀ (seed : UInt64) (a b : ContextId), a ≠ b → ∀ k,
      (forContext seed a.ordinal).drawAt k ≠ (forContext seed b.ordinal).drawAt k) ∧
    (∀ (seed seed' : UInt64) (a : ContextId), seed ≠ seed' → ∀ k,
      (forContext seed a.ordinal).drawAt k ≠ (forContext seed' a.ordinal).drawAt k) ∧
    ∀ (s : RandomStream) (i j : Nat), i < j → j < i + 18446744073709551616 →
      s.drawAt i ≠ s.drawAt j := by
  refine ⟨?_, ?_, ?_⟩
  · intro seed a b hne k h
    have hmixed := forContext_inj (eq_of_drawAt h)
    exact hne (ContextId.ordinal_inj (increment_inj (xor_left_inj hmixed)))
  · intro seed seed' a hne k h
    have hmixed := forContext_inj (eq_of_drawAt h)
    exact hne (xor_right_inj hmixed)
  · intro s i j hlt hnear
    exact drawAt_ne hlt hnear

/-- The last function and the main context, two seeds that differ in one bit, and the two ends of
a whole round of a stream. -/
theorem farStreams_never_collide :
    (forContext 7 (ContextId.function 4294967295).ordinal).drawAt 100 ≠
        (forContext 7 ContextId.main.ordinal).drawAt 100 ∧
      (forContext 7 ContextId.main.ordinal).drawAt 3 ≠
        (forContext 6 ContextId.main.ordinal).drawAt 3 ∧
      (RandomStream.mk 0).drawAt 0 ≠ (RandomStream.mk 0).drawAt 18446744073709551615 :=
  ⟨draws_never_collide.1 7 (.function 4294967295) .main (by decide) 100,
    draws_never_collide.2.1 7 6 .main (by decide) 3,
    draws_never_collide.2.2 ⟨0⟩ 0 18446744073709551615 (by decide) (by decide)⟩

end RandomStream

end RegisterMachine
