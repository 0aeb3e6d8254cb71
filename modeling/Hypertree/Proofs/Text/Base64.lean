import Hypertree.Text.Base64
import Hypertree.Proofs.Text

/-!
# Base64 read back

The reader gives back what the writer was given (`ofBase64?_base64`). The induction is on the groups
of three bytes: a whole group is four digits, and the padding of the last one tells the reader how
many bytes are in it.

A base64 text has no blanks and no dashes, so trimming leaves it as it is and it is not taken for an
armour line. It can consist of hexadecimal digits, but then it has no padding, and the bytes it
stands for come in threes (`length_of_hex_digits`).
-/

namespace Hypertree.Text

/-- A character that base64 writes. -/
def IsBase64 (c : Char) : Prop :=
  c = '=' ∨ ∃ n < 64, c = base64Digit n

theorem base64Value?_base64Digit : ∀ n < 64, base64Value? (base64Digit n) = some n := by
  decide

theorem base64Digit_ne_padding : ∀ n < 64, base64Digit n ≠ '=' := by
  decide

section

variable {c : Char}

/-- A decidable property of characters holds of all that base64 writes if it holds of the padding and
of the sixty-four digits. -/
theorem IsBase64.elim {P : Char → Prop} (h : IsBase64 c) (hpadding : P '=')
    (hdigits : ∀ n < 64, P (base64Digit n)) : P c := by
  obtain rfl | ⟨n, hn, rfl⟩ := h
  · exact hpadding
  · exact hdigits n hn

theorem IsBase64.not_blank (h : IsBase64 c) : isBlank c = false :=
  h.elim (P := fun c => isBlank c = false) (by decide) (by decide)

theorem IsBase64.ne_dash (h : IsBase64 c) : c ≠ '-' :=
  h.elim (P := fun c => c ≠ '-') (by decide) (by decide)

theorem isBase64_digit {n : Nat} (hn : n < 64) : IsBase64 (base64Digit n) :=
  .inr ⟨n, hn, rfl⟩

end

theorem isBase64_of_mem (bytes : Bytes) : ∀ c ∈ base64 bytes, IsBase64 c := by
  fun_induction base64 bytes with
  | case1 => exact List.forall_mem_nil _
  | case2 a v =>
    have ha := a.toNat_lt
    simp only [List.forall_mem_cons]
    exact ⟨isBase64_digit (by omega), isBase64_digit (by omega), .inl rfl, .inl rfl,
      List.forall_mem_nil _⟩
  | case3 a b v =>
    have ha := a.toNat_lt
    have hb := b.toNat_lt
    simp only [List.forall_mem_cons]
    exact ⟨isBase64_digit (by omega), isBase64_digit (by omega), isBase64_digit (by omega), .inl rfl,
      List.forall_mem_nil _⟩
  | case4 a b c rest v ih =>
    have ha := a.toNat_lt
    have hb := b.toNat_lt
    have hc := c.toNat_lt
    simp only [List.forall_mem_cons]
    exact ⟨isBase64_digit (by omega), isBase64_digit (by omega), isBase64_digit (by omega),
      isBase64_digit (by omega), ih⟩

/-! ### Groups -/

/-- A last group of one byte. -/
theorem ofBase64?_one {p q : Nat} (hp : p < 64) (hq : q < 64) (hleft : q % 16 = 0) :
    ofBase64? [base64Digit p, base64Digit q, '=', '='] = some [UInt8.ofNat (p * 4 + q / 16)] := by
  rw [ofBase64?, base64Tail?, base64Value?_base64Digit p hp, base64Value?_base64Digit q hq]
  exact if_pos hleft

/-- A last group of two bytes. -/
theorem ofBase64?_two {p q r : Nat} (hp : p < 64) (hq : q < 64) (hr : r < 64) (hleft : r % 4 = 0) :
    ofBase64? [base64Digit p, base64Digit q, base64Digit r, '=']
      = some [UInt8.ofNat (p * 4 + q / 16), UInt8.ofNat (q * 16 + r / 4)] := by
  rw [ofBase64?, base64Tail?, base64Value?_base64Digit p hp, base64Value?_base64Digit q hq,
    base64Value?_base64Digit r hr]
  exact (if_neg (base64Digit_ne_padding r hr)).trans (if_pos hleft)

/-- A whole group. -/
theorem ofBase64?_group {p q r s : Nat} (hp : p < 64) (hq : q < 64) (hr : r < 64) (hs : s < 64)
    {rest : Text} {bytes : Bytes} (hrest : ofBase64? rest = some bytes) :
    ofBase64? (base64Digit p :: base64Digit q :: base64Digit r :: base64Digit s :: rest)
      = some (UInt8.ofNat (p * 4 + q / 16) :: UInt8.ofNat (q * 16 + r / 4) ::
        UInt8.ofNat (r * 64 + s) :: bytes) := by
  rw [ofBase64?]
  · rw [base64Value?_base64Digit p hp, base64Value?_base64Digit q hq, base64Value?_base64Digit r hr,
      base64Value?_base64Digit s hs, hrest]
  · intro hpadding
    exact absurd hpadding (base64Digit_ne_padding s hs)

/-- A byte is put together from the bits of two digits; those above it are dropped. -/
theorem byte_eq {n : Nat} {b : UInt8} (h : n % 256 = b.toNat) : UInt8.ofNat n = b :=
  UInt8.toNat_inj.mp (UInt8.toNat_ofNat'.trans h)

/-- **Base64 is read back.** -/
theorem ofBase64?_base64 (bytes : Bytes) : ofBase64? (base64 bytes) = some bytes := by
  fun_induction base64 bytes with
  | case1 => rfl
  -- at the end, one byte or two that are padded; before it, groups of three
  | case2 a v =>
    have ha := a.toNat_lt
    have hfirst : UInt8.ofNat (v / 64 * 4 + v % 64 / 16) = a := byte_eq (by omega)
    rw [ofBase64?_one (by omega) (by omega) (by omega), hfirst]
  | case3 a b v =>
    have ha := a.toNat_lt
    have hb := b.toNat_lt
    have hfirst : UInt8.ofNat (v / 4096 * 4 + v / 64 % 64 / 16) = a := byte_eq (by omega)
    have hsecond : UInt8.ofNat (v / 64 % 64 * 16 + v % 64 / 4) = b := byte_eq (by omega)
    rw [ofBase64?_two (by omega) (by omega) (by omega) (by omega), hfirst, hsecond]
  | case4 a b c rest v ih =>
    have ha := a.toNat_lt
    have hb := b.toNat_lt
    have hc := c.toNat_lt
    have hfirst : UInt8.ofNat (v / 262144 * 4 + v / 4096 % 64 / 16) = a := byte_eq (by omega)
    have hsecond : UInt8.ofNat (v / 4096 % 64 * 16 + v / 64 % 64 / 4) = b := byte_eq (by omega)
    have hthird : UInt8.ofNat (v / 64 % 64 * 64 + v % 64) = c := byte_eq (by omega)
    rw [ofBase64?_group (by omega) (by omega) (by omega) (by omega) ih, hfirst, hsecond, hthird]

/-! ### Hexadecimal digits -/

/-- Padding is no hexadecimal digit, so a text of such digits has none. -/
theorem length_of_hex_digits {bytes : Bytes}
    (h : ∀ c ∈ base64 bytes, (hexValue? c).isSome = true) :
    3 * (base64 bytes).length = 4 * bytes.length := by
  fun_induction base64 bytes with
  | case1 => rfl
  | case2 a v => exact absurd (h '=' (by simp)) (by decide)
  | case3 a b v => exact absurd (h '=' (by simp)) (by decide)
  | case4 a b c rest v ih =>
    have hrest := ih fun c hc => h c (by simp [hc])
    simp only [List.length_cons]
    omega

end Hypertree.Text
