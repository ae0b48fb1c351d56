import RegisterMachine.Number.Literal

/-!
# Digits read back

Decimal digits of a number are read back as the number, and a run of digits ends where something
else begins. Readers of text build on these facts and not on how digits are computed.
-/

namespace RegisterMachine

namespace Text

theorem isDigit_of_mem_digits {n : Nat} {c : Char} (h : c ∈ digits n) : c.isDigit = true :=
  Nat.isDigit_of_mem_toDigits (by decide) (by decide) h

theorem notMem_digits {c : Char} (h : c.isDigit = false) (n : Nat) : c ∉ digits n := by
  intro hmem
  rw [isDigit_of_mem_digits hmem] at h
  cases h

theorem digits_ne_nil (n : Nat) : digits n ≠ [] := Nat.toDigits_ne_nil

theorem digits_step {n : Nat} (h : 10 ≤ n) :
    digits n = digits (n / 10) ++ [Nat.digitChar (n % 10)] := by
  rw [digits, Nat.toDigits_eq_if (by decide), if_neg (by omega)]
  rfl

theorem head?_digits_ne {n : Nat} (h : 0 < n) : (digits n).head? ≠ some '0' := by
  induction n using Nat.strongRecOn with
  | ind n ih =>
    rcases Nat.lt_or_ge n 10 with hlt | hge
    · rw [digits, Nat.toDigits_of_lt_base hlt]
      simp only [List.head?_cons, ne_eq, Option.some.injEq, Nat.digitChar_eq_zero]
      omega
    · have hhead := ih (n / 10) (by omega) (by omega)
      rw [digits_step hge, List.head?_append]
      cases hd : (digits (n / 10)).head? with
      | none => exact absurd (List.head?_eq_none_iff.1 hd) (digits_ne_nil _)
      | some c =>
        rw [hd] at hhead
        simpa using hhead

theorem digitValue?_of_isDigit {c : Char} (h : c.isDigit = true) :
    digitValue? c = some (c.toNat - '0'.toNat) := by
  have hrange : 48 ≤ c.val ∧ c.val ≤ 57 := by simpa [Char.isDigit] using h
  exact if_pos hrange

theorem readDigits?_of_isDigit {cs : List Char} (h : ∀ c ∈ cs, c.isDigit = true) (acc : Nat) :
    readDigits? acc cs = some (Nat.ofDigitChars 10 cs acc) := by
  induction cs generalizing acc with
  | nil => rfl
  | cons c cs ih =>
    have hc := digitValue?_of_isDigit (h c List.mem_cons_self)
    have hcs := ih (fun d hd => h d (List.mem_cons_of_mem _ hd)) (10 * acc + (c.toNat - '0'.toNat))
    rw [readDigits?, hc, Option.bind_some, hcs, Nat.ofDigitChars_cons]

theorem readDecimal?_of_isDigit {cs : List Char} (h : ∀ c ∈ cs, c.isDigit = true) (hne : cs ≠ []) :
    readDecimal? cs = some (Nat.ofDigitChars 10 cs 0) := by
  rw [readDecimal?, if_neg (by simpa using hne), readDigits?_of_isDigit h]

theorem readDecimal?_digits (n : Nat) : readDecimal? (digits n) = some n := by
  rw [readDecimal?_of_isDigit (fun _ => isDigit_of_mem_digits) (digits_ne_nil n), digits,
    Nat.ofDigitChars_ten_toDigits]

end Text

namespace Number

def EndsDigits (cs : List Char) : Prop := ∀ c rest, cs = c :: rest → c.isDigit = false

theorem endsDigits_nil : EndsDigits [] := by
  intro c rest h
  cases h

theorem endsDigits_cons {c : Char} (h : c.isDigit = false) (cs : List Char) :
    EndsDigits (c :: cs) := by
  intro d rest heq
  cases heq
  exact h

theorem splitDigits_append {ds cs : List Char} (hds : ∀ c ∈ ds, c.isDigit = true)
    (hcs : EndsDigits cs) : splitDigits (ds ++ cs) = (ds, cs) := by
  have htake : cs.takeWhile Char.isDigit = [] ∧ cs.dropWhile Char.isDigit = cs := by
    cases cs with
    | nil => exact ⟨rfl, rfl⟩
    | cons c rest =>
      have hc := hcs c rest rfl
      simp [hc]
  rw [splitDigits, List.takeWhile_append_of_pos hds, List.dropWhile_append_of_pos hds, htake.1,
    htake.2, List.append_nil]

end Number

end RegisterMachine
