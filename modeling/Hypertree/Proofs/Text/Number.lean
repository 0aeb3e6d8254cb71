import Hypertree.Text.Number
import Hypertree.Proofs.Text

/-!
# Numbers read back from text

Decimal digits and hexadecimal digits of fixed width are read back, as long as the number is below
the bound of the reader. Both inductions are on the number written; the last digit is the last one
read, so what the reader has before it is the quotient by the base.
-/

namespace Hypertree.Text

/-! ### Decimal digits -/

theorem decimalValue?_digitChar : ∀ n < 10, decimalValue? (Nat.digitChar n) = some n := by
  decide

theorem decimal_ne_nil (n : Nat) : decimal n ≠ [] := by
  rw [decimal]
  split_ifs
  · exact List.cons_ne_nil _ _
  · exact List.append_ne_nil_of_right_ne_nil _ (List.cons_ne_nil _ _)

theorem isDigit_of_mem_decimal {n : Nat} : ∀ c ∈ decimal n, IsDigit c := by
  fun_induction decimal n with
  | case1 n hn =>
    intro c hc
    exact ⟨n, by omega, List.mem_singleton.mp hc⟩
  | case2 n hn ih =>
    intro c hc
    rcases List.mem_append.mp hc with hc | hc
    · exact ih c hc
    · exact ⟨n % 10, by omega, List.mem_singleton.mp hc⟩

theorem continueNumber_decimal {bound n : Nat} (hn : n < bound) (rest : Text) :
    continueNumber 10 decimalValue? bound 0 (decimal n ++ rest)
      = continueNumber 10 decimalValue? bound n rest := by
  fun_induction decimal n generalizing rest with
  | case1 n hsmall =>
    rw [List.singleton_append, continueNumber, decimalValue?_digitChar n hsmall]
    simp [hn]
  | case2 n hlarge ih =>
    have hnext : 10 * (n / 10) + n % 10 = n := Nat.div_add_mod n 10
    rw [List.append_assoc, ih (by omega), List.singleton_append, continueNumber,
      decimalValue?_digitChar _ (Nat.mod_lt _ (by decide))]
    simp only [hnext, if_pos hn]

/-- A text of digits has no sign. -/
theorem readNumber?_eq {base bound : Nat} {digitValue? : Char → Option Nat} {text : Text}
    (hne : text ≠ []) (h : ∀ c ∈ text, IsDigit c) :
    readNumber? base digitValue? bound text = continueNumber base digitValue? bound 0 text := by
  obtain ⟨c, rest, rfl⟩ := List.exists_cons_of_ne_nil hne
  have hplus := (h c List.mem_cons_self).ne_plus
  rw [readNumber?]
  · rfl
  · intro rest' heq
    exact hplus (List.cons.inj heq).1

/-- **A decimal number is read back.** -/
theorem readDecimal?_decimal {bound n : Nat} (hn : n < bound) :
    readDecimal? bound (decimal n) = some n := by
  have h := continueNumber_decimal hn []
  rw [List.append_nil] at h
  unfold readDecimal?
  rw [readNumber?_eq (decimal_ne_nil n) isDigit_of_mem_decimal, h]
  rfl

/-! ### Hexadecimal digits of fixed width -/

@[simp]
theorem length_hexPadded (width n : Nat) : (hexPadded width n).length = width := by
  induction width generalizing n with
  | zero => rfl
  | succ width ih => rw [hexPadded, List.length_append, ih, List.length_singleton]

theorem isDigit_of_mem_hexPadded {width n : Nat} : ∀ c ∈ hexPadded width n, IsDigit c := by
  induction width generalizing n with
  | zero =>
    intro c hc
    exact nomatch hc
  | succ width ih =>
    intro c hc
    rcases List.mem_append.mp hc with hc | hc
    · exact ih c hc
    · exact ⟨n % 16, Nat.mod_lt _ (by decide), List.mem_singleton.mp hc⟩

theorem continueNumber_hexPadded {bound : Nat} (width : Nat) : ∀ {n : Nat}, n < 16 ^ width →
    n < bound → ∀ rest : Text, continueNumber 16 hexValue? bound 0 (hexPadded width n ++ rest)
      = continueNumber 16 hexValue? bound n rest := by
  induction width with
  | zero =>
    intro n hn _ rest
    obtain rfl : n = 0 := by simpa using hn
    rfl
  | succ width ih =>
    intro n hn hbound rest
    have hnext : 16 * (n / 16) + n % 16 = n := Nat.div_add_mod n 16
    -- the digits are written from the left, so the last one is read after the others
    have hdiv : n / 16 < 16 ^ width := by
      rw [pow_succ] at hn
      exact Nat.div_lt_of_lt_mul (by omega)
    rw [hexPadded, List.append_assoc, ih hdiv (by omega), List.singleton_append, continueNumber,
      hexValue?_hexDigit _ (Nat.mod_lt _ (by decide))]
    simp only [hnext, if_pos hbound]

/-- **A hexadecimal number of fixed width is read back.** -/
theorem readHex?_hexPadded {bound width n : Nat} (hwidth : 0 < width) (hn : n < 16 ^ width)
    (hbound : n < bound) : readHex? bound (hexPadded width n) = some n := by
  have h := continueNumber_hexPadded width hn hbound []
  rw [List.append_nil] at h
  have hne : hexPadded width n ≠ [] := by
    rw [← List.length_pos_iff, length_hexPadded]
    exact hwidth
  unfold readHex?
  rw [readNumber?_eq hne isDigit_of_mem_hexPadded, h]
  rfl

end Hypertree.Text
