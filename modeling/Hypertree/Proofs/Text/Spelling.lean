import Hypertree.Proofs.Text.Number

/-!
# Which texts are read

What a reader makes of the output of a writer is one half of a text form; the other half is which
other texts it admits. A decimal number is read from its digits, after any number of zeros and at
most one plus sign (`readDecimal?_eq_some_iff`). Bytes are read from their own digits only, up to
the case of letters (`map_toLower_of_ofHex?`), and so is a number of fixed width without a sign
(`map_toLower_of_readHex?`).

Every induction is on the text. What was read so far is the value with which the reader goes on, so
the digits of the result are those of that value and then the text that is left.
-/

namespace Hypertree.Text

/-! ### Cutting and trimming -/

/-- A text is cut where the separator is. -/
theorem eq_of_splitOnce? {separator : Text} : ∀ {text a b : Text},
    splitOnce? separator text = some (a, b) → text = a ++ (separator ++ b)
  | [], a, b, h => by
    unfold splitOnce? at h
    split_ifs at h with hempty
    obtain ⟨rfl, rfl⟩ := Prod.mk.inj (Option.some.inj h)
    rw [List.isEmpty_iff.mp hempty]
    rfl
  | c :: text, a, b, h => by
    unfold splitOnce? at h
    split_ifs at h with hfront
    · obtain ⟨rfl, rfl⟩ := Prod.mk.inj (Option.some.inj h)
      obtain ⟨tail, htail⟩ := List.isPrefixOf_iff_prefix.mp hfront
      rw [← htail, List.drop_left, List.nil_append]
    · obtain ⟨⟨front, back⟩, hsplit, heq⟩ := Option.map_eq_some_iff.mp h
      obtain ⟨rfl, rfl⟩ := Prod.mk.inj heq
      rw [eq_of_splitOnce? hsplit, List.cons_append]

theorem not_endsSolid_concat {c : Char} (h : isBlank c = true) (text : Text) :
    ¬ EndsSolid (text ++ [c]) := by
  rintro ⟨init, d, heq, hd⟩
  obtain rfl := List.singleton_inj.mp (List.append_inj_right' heq rfl)
  rw [h] at hd
  exact Bool.noConfusion hd

/-- What a text ends with ends as the text does, if it is not empty. -/
theorem EndsSolid.of_append {front text : Text} (h : EndsSolid (front ++ text)) (hne : text ≠ []) :
    EndsSolid text := by
  obtain ⟨init, c, rfl⟩ := (List.eq_nil_or_concat' text).resolve_left hne
  refine ⟨init, c, rfl, ?_⟩
  by_contra hblank
  rw [← List.append_assoc] at h
  exact not_endsSolid_concat (Bool.eq_true_of_not_eq_false hblank) _ h

/-- A line that is left of a text ends as it should. -/
theorem endsSolid_trimEnd {text : Text} (hne : trimEnd text ≠ []) : EndsSolid (trimEnd text) := by
  unfold trimEnd at hne ⊢
  obtain ⟨c, rest, heq⟩ := List.exists_cons_of_ne_nil (mt List.reverse_eq_nil_iff.mpr hne)
  have hc : isBlank c = false := by
    have hhead := List.head?_dropWhile_not isBlank text.reverse
    simpa only [heq, List.head?_cons] using hhead
  exact ⟨rest.reverse, c, by rw [heq, List.reverse_cons], hc⟩

/-- Of a value at the end of a text that does not end with a blank, only blanks at its beginning are
dropped. -/
theorem exists_blanks_of_trim {front text : Text} (h : EndsSolid (front ++ text))
    (hfront : ¬ EndsSolid front) :
    ∃ blanks, (∀ c ∈ blanks, isBlank c = true) ∧ text = blanks ++ trim text := by
  have hblanks : ∀ c ∈ text.takeWhile isBlank, isBlank c = true := fun c hc =>
    List.mem_takeWhile_imp hc
  have hsplit := List.takeWhile_append_dropWhile (p := isBlank) (l := text)
  refine ⟨text.takeWhile isBlank, hblanks, ?_⟩
  -- a value of blanks alone would leave one at the end
  have hne : text.dropWhile isBlank ≠ [] := by
    intro hnil
    rw [hnil, List.append_nil] at hsplit
    rw [hsplit] at hblanks
    rcases List.eq_nil_or_concat' text with rfl | ⟨init, c, rfl⟩
    · exact hfront (by rwa [List.append_nil] at h)
    · rw [← List.append_assoc] at h
      exact not_endsSolid_concat (hblanks c (by simp)) _ h
  have hsolid : EndsSolid (text.dropWhile isBlank) := by
    rw [← hsplit, ← List.append_assoc] at h
    exact h.of_append hne
  rw [trim, hsolid.trimEnd_eq, hsplit]

/-! ### Decimal numbers -/

/-- A decimal numeral: the digits of a number, after zeros and at most one plus sign. -/
def Numeral (n : Nat) (text : Text) : Prop :=
  ∃ sign zeros, (sign = [] ∨ sign = ['+']) ∧
    text = sign ++ (List.replicate zeros '0' ++ decimal n)

theorem decimalValue?_eq_some {c : Char} {d : Nat} (h : decimalValue? c = some d) :
    d < 10 ∧ c = Nat.digitChar d := by
  unfold decimalValue? at h
  split_ifs at h with hc
  obtain rfl := Option.some.inj h
  have hlow : 48 ≤ c.toNat := hc.1
  have hhigh : c.toNat ≤ 57 := hc.2
  rw [← Char.ofNat_toNat c]
  generalize c.toNat = k at hlow hhigh
  interval_cases k <;> decide

/-- One more digit. -/
theorem decimal_append_digit {v d : Nat} (hv : 0 < v) (hd : d < 10) :
    decimal (10 * v + d) = decimal v ++ [Nat.digitChar d] := by
  have hdiv : (10 * v + d) / 10 = v := by omega
  have hmod : (10 * v + d) % 10 = d := by omega
  rw [decimal, if_neg (by omega), hdiv, hmod]

/-- What a reader goes on with after a digit. -/
theorem continueNumber_cons_eq_some_iff {base bound v n : Nat} {digitValue? : Char → Option Nat}
    {c : Char} {digits : Text} :
    continueNumber base digitValue? bound v (c :: digits) = some n ↔
      ∃ d, digitValue? c = some d ∧ base * v + d < bound ∧
        continueNumber base digitValue? bound (base * v + d) digits = some n := by
  rw [continueNumber]
  cases digitValue? c with
  | none => simp
  | some d => by_cases hbound : base * v + d < bound <;> simp [hbound]

/-- The digits that are read after a positive number follow its own. -/
theorem decimal_of_continueNumber {bound n : Nat} : ∀ {digits : Text} {v : Nat}, 0 < v →
    continueNumber 10 decimalValue? bound v digits = some n → decimal n = decimal v ++ digits
  | [], v, _, h => by
    obtain rfl := Option.some.inj h
    rw [List.append_nil]
  | c :: digits, v, hv, h => by
    obtain ⟨d, hd, -, hrest⟩ := continueNumber_cons_eq_some_iff.mp h
    obtain ⟨hlt, rfl⟩ := decimalValue?_eq_some hd
    rw [decimal_of_continueNumber (by omega) hrest, decimal_append_digit hv hlt, List.append_assoc]
    rfl

/-- The digits that are read from the beginning are zeros and then those of the number. -/
theorem exists_zeros_of_continueNumber {bound n : Nat} : ∀ {digits : Text}, digits ≠ [] →
    continueNumber 10 decimalValue? bound 0 digits = some n →
      ∃ zeros, digits = List.replicate zeros '0' ++ decimal n
  | [], hne, _ => absurd rfl hne
  | c :: digits, _, h => by
    obtain ⟨d, hd, -, hrest⟩ := continueNumber_cons_eq_some_iff.mp h
    obtain ⟨hlt, rfl⟩ := decimalValue?_eq_some hd
    rw [Nat.mul_zero, Nat.zero_add] at hrest
    rcases Nat.eq_zero_or_pos d with rfl | hpos
    · -- a zero; the last one is the number
      rcases eq_or_ne digits [] with rfl | hne
      · obtain rfl := Option.some.inj hrest
        exact ⟨0, by rw [decimal]; rfl⟩
      · obtain ⟨zeros, rfl⟩ := exists_zeros_of_continueNumber hne hrest
        exact ⟨zeros + 1, rfl⟩
    · refine ⟨0, ?_⟩
      rw [decimal_of_continueNumber hpos hrest, decimal, if_pos hlt]
      rfl

/-- What is read from at least one digit is below the bound. -/
theorem lt_of_continueNumber {base bound n : Nat} {digitValue? : Char → Option Nat} :
    ∀ {digits : Text} {v : Nat}, digits ≠ [] →
      continueNumber base digitValue? bound v digits = some n → n < bound
  | [], _, hne, _ => absurd rfl hne
  | c :: digits, v, _, h => by
    obtain ⟨d, -, hd, hrest⟩ := continueNumber_cons_eq_some_iff.mp h
    rcases eq_or_ne digits [] with rfl | hne
    · obtain rfl := Option.some.inj hrest
      exact hd
    · exact lt_of_continueNumber hne hrest

/-- What is read as digits are digits. -/
theorem exists_value_of_continueNumber {base bound n : Nat} {digitValue? : Char → Option Nat} :
    ∀ {digits : Text} {v : Nat}, continueNumber base digitValue? bound v digits = some n →
      ∀ c ∈ digits, ∃ d, digitValue? c = some d
  | [], _, _ => fun c hc => absurd hc List.not_mem_nil
  | c :: digits, v, h => by
    obtain ⟨d, hd, -, hrest⟩ := continueNumber_cons_eq_some_iff.mp h
    rw [List.forall_mem_cons]
    exact ⟨⟨d, hd⟩, exists_value_of_continueNumber hrest⟩

/-- A number is read from what follows the sign, if there is one. -/
theorem exists_sign_of_readNumber? {base bound n : Nat} {digitValue? : Char → Option Nat}
    {text : Text} (h : readNumber? base digitValue? bound text = some n) :
    ∃ sign digits, (sign = [] ∨ sign = ['+']) ∧ text = sign ++ digits ∧ digits ≠ [] ∧
      continueNumber base digitValue? bound 0 digits = some n := by
  unfold readNumber? at h
  dsimp only at h
  split at h
  -- one plus sign is taken off, and digits must follow
  next rest =>
    split_ifs at h with hempty
    exact ⟨['+'], rest, .inr rfl, rfl, mt List.isEmpty_iff.mpr hempty, h⟩
  next =>
    split_ifs at h with hempty
    exact ⟨[], text, .inl rfl, rfl, mt List.isEmpty_iff.mpr hempty, h⟩

/-- Zeros at the beginning do not count. -/
theorem continueNumber_zeros {bound : Nat} (hbound : 0 < bound) (zeros : Nat) (rest : Text) :
    continueNumber 10 decimalValue? bound 0 (List.replicate zeros '0' ++ rest) =
      continueNumber 10 decimalValue? bound 0 rest := by
  induction zeros with
  | zero => rfl
  | succ zeros ih =>
    have hzero : decimalValue? '0' = some 0 := rfl
    rw [List.replicate_succ, List.cons_append, continueNumber, hzero]
    simp only [Nat.mul_zero, Nat.add_zero, if_pos hbound, ih]

/-- **A decimal number is read from its numerals**, and from no other text. -/
theorem readDecimal?_eq_some_iff {bound n : Nat} {text : Text} :
    readDecimal? bound text = some n ↔ n < bound ∧ Numeral n text := by
  constructor
  · intro h
    obtain ⟨sign, digits, hsign, rfl, hne, h⟩ := exists_sign_of_readNumber? h
    obtain ⟨zeros, rfl⟩ := exists_zeros_of_continueNumber hne h
    exact ⟨lt_of_continueNumber hne h, sign, zeros, hsign, rfl⟩
  · rintro ⟨hn, sign, zeros, hsign, rfl⟩
    have hdigits : ∀ c ∈ List.replicate zeros '0' ++ decimal n, IsDigit c := by
      intro c hc
      rcases List.mem_append.mp hc with hc | hc
      · exact ⟨0, by decide, List.eq_of_mem_replicate hc⟩
      · exact isDigit_of_mem_decimal c hc
    have hne : List.replicate zeros '0' ++ decimal n ≠ [] :=
      List.append_ne_nil_of_right_ne_nil _ (decimal_ne_nil n)
    have hread : continueNumber 10 decimalValue? bound 0 (List.replicate zeros '0' ++ decimal n) =
        some n := by
      have h := continueNumber_decimal hn []
      rw [List.append_nil] at h
      rw [continueNumber_zeros (by omega), h]
      rfl
    unfold readDecimal?
    -- the digits are read alike with a sign and without
    rcases hsign with rfl | rfl
    · rw [List.nil_append, readNumber?_eq hne hdigits, hread]
    · rw [List.singleton_append, readNumber?]
      simp only [List.isEmpty_iff, hne, if_false, hread]

/-! ### Hexadecimal digits -/

/-- A digit is that of its value, up to case. -/
theorem hexValue?_eq_some {c : Char} {d : Nat} (h : hexValue? c = some d) :
    d < 16 ∧ c.toLower = hexDigit d := by
  have hdigits : ∀ k < 103, ∀ d ∈ hexValue? (Char.ofNat k),
      d < 16 ∧ (Char.ofNat k).toLower = hexDigit d := by decide
  have hle : c.toNat ≤ 102 := le_of_hexValue? h
  rw [← Char.ofNat_toNat c] at h ⊢
  exact hdigits c.toNat (by omega) d h

/-- The case of a text without letters in upper case. -/
theorem map_toLower_eq {text : Text} (h : (text.any fun c => 'A' ≤ c && c ≤ 'Z') = false) :
    text.map Char.toLower = text := by
  refine (List.map_congr_left fun c hc => ?_).trans (List.map_id text)
  have hc := List.any_eq_false.mp h c hc
  simp only [Bool.and_eq_true, decide_eq_true_eq] at hc
  exact dif_neg hc

/-- **Bytes are read from their digits**, up to case. -/
theorem map_toLower_of_ofHex? {text : Text} : ∀ {bytes : Bytes}, ofHex? text = some bytes →
    text.map Char.toLower = hex bytes := by
  induction text using ofHex?.induct with
  | case1 =>
    intro bytes h
    obtain rfl := Option.some.inj h
    rfl
  | case2 =>
    intro bytes h
    cases h
  | case3 high low rest n m tail hrest hhigh hlow ih =>
    intro bytes h
    rw [ofHex?, hhigh, hlow, hrest] at h
    obtain rfl := Option.some.inj h
    obtain ⟨hn, hhigh⟩ := hexValue?_eq_some hhigh
    obtain ⟨hm, hlow⟩ := hexValue?_eq_some hlow
    -- the two digits are the halves of the byte
    have hbyte : (UInt8.ofNat (16 * n + m)).toNat = 16 * n + m :=
      UInt8.toNat_ofNat_of_lt' (show 16 * n + m < 256 by omega)
    have hdiv : (16 * n + m) / 16 = n := by omega
    have hmod : (16 * n + m) % 16 = m := by omega
    rw [List.map_cons, List.map_cons, ih hrest, hhigh, hlow, hex, hex, List.flatMap_cons, hbyte,
      hdiv, hmod]
    rfl
  | case4 high low rest hnone ih =>
    intro bytes h
    unfold ofHex? at h
    split at h
    next n m tail hhigh hlow hrest => exact (hnone n m tail hhigh hlow hrest).elim
    next => cases h

/-- The first digit of several. -/
theorem hexPadded_succ_eq_cons (width n : Nat) :
    hexPadded (width + 1) n = hexDigit (n / 16 ^ width % 16) :: hexPadded width n := by
  induction width generalizing n with
  | zero => rw [pow_zero, Nat.div_one]; rfl
  | succ width ih =>
    rw [hexPadded, ih, Nat.div_div_eq_div_mul, ← pow_succ', List.cons_append]
    rfl

/-- The digits that are read after a number follow those of it. -/
theorem map_toLower_of_continueNumber {bound n : Nat} : ∀ {digits : Text} {v : Nat},
    continueNumber 16 hexValue? bound v digits = some n →
      digits.map Char.toLower = hexPadded digits.length n ∧ n / 16 ^ digits.length = v
  | [], v, h => by
    obtain rfl := Option.some.inj h
    exact ⟨rfl, Nat.div_one v⟩
  | c :: digits, v, h => by
    obtain ⟨d, hd, -, hrest⟩ := continueNumber_cons_eq_some_iff.mp h
    obtain ⟨hlt, hc⟩ := hexValue?_eq_some hd
    obtain ⟨hdigits, hdiv⟩ := map_toLower_of_continueNumber hrest
    rw [List.length_cons, List.map_cons, hdigits, hc, hexPadded_succ_eq_cons, hdiv, pow_succ,
      ← Nat.div_div_eq_div_mul, hdiv]
    have hmod : (16 * v + d) % 16 = d := by omega
    exact ⟨by rw [hmod], by omega⟩

/-- **A number without a sign is read from its digits**, up to case; how many there are is for the
text to say. -/
theorem map_toLower_of_readHex? {bound n : Nat} {text : Text} (h : readHex? bound text = some n)
    (hsign : '+' ∉ text) : text.map Char.toLower = hexPadded text.length n := by
  obtain ⟨sign, digits, rfl | rfl, rfl, -, hread⟩ := exists_sign_of_readNumber? h
  · exact (map_toLower_of_continueNumber hread).1
  · exact absurd List.mem_cons_self hsign

theorem lt_of_readHex? {bound n : Nat} {text : Text} (h : readHex? bound text = some n) :
    n < bound := by
  obtain ⟨sign, digits, -, -, hne, hread⟩ := exists_sign_of_readNumber? h
  exact lt_of_continueNumber hne hread

/-- What is read as a number has one byte for each character. -/
theorem utf8Size_of_readHex? {bound n : Nat} {text : Text} (h : readHex? bound text = some n) :
    utf8Size text = text.length := by
  obtain ⟨sign, digits, hsign, rfl, -, hread⟩ := exists_sign_of_readNumber? h
  refine utf8Size_eq_length_of_forall fun c hc => ?_
  rcases List.mem_append.mp hc with hc | hc
  · rcases hsign with rfl | rfl
    · exact absurd hc List.not_mem_nil
    · obtain rfl := List.mem_singleton.mp hc
      rfl
  · obtain ⟨d, hd⟩ := exists_value_of_continueNumber hread c hc
    exact utf8Size_of_hexValue? hd

end Hypertree.Text
