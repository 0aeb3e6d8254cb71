import Hypertree.Text
import Mathlib

/-!
# Lines, blanks and digits

What the readers of text forms make of what the writers produce. What stands before the first line
feed of a text is its first line (`lines_append`); a name, a separator and a value come apart at
the separator if the name does not contain its first character (`splitOnce?_append`); hexadecimal
digits and the UTF-8 form are read back (`ofHex?_hex`, `ofUtf8?_utf8`). Lines that are not empty can
be told from their join (`eq_of_join_eq`).

`isDigit` are the characters that writers use for numbers and byte strings. None of them is a blank,
a colon, a letter in upper case, or longer than one byte in UTF-8.
-/

namespace Hypertree.Text

/-! ### Lines -/

/-- Up to the first separator. -/
theorem splitOn_append {separator : Char} {line : Text} (h : separator ∉ line) (rest : Text) :
    splitOn separator (line ++ separator :: rest) = line :: splitOn separator rest := by
  induction line with
  | nil => rw [List.nil_append, splitOn, if_pos rfl]
  | cons c line ih =>
    have hc : c ≠ separator := fun heq => h (heq ▸ List.mem_cons_self)
    have hline : separator ∉ line := fun hmem => h (List.mem_cons_of_mem _ hmem)
    rw [List.cons_append, splitOn, if_neg hc, ih hline]

theorem splitOn_ne_nil (separator : Char) (text : Text) : splitOn separator text ≠ [] := by
  cases text with
  | nil => exact List.cons_ne_nil _ _
  | cons c text =>
    unfold splitOn
    split_ifs
    · exact List.cons_ne_nil _ _
    · split <;> exact List.cons_ne_nil _ _

/-- A text without separators is one part. -/
theorem splitOn_of_not_mem {separator : Char} {text : Text} (h : separator ∉ text) :
    splitOn separator text = [text] := by
  induction text with
  | nil => rfl
  | cons c text ih =>
    have hc : c ≠ separator := fun heq => h (heq ▸ List.mem_cons_self)
    rw [splitOn, if_neg hc, ih fun hmem => h (List.mem_cons_of_mem _ hmem)]

/-- The line before a line feed. -/
theorem lines_append {line : Text} (h : '\n' ∉ line) (rest : Text) :
    lines (line ++ '\n' :: rest) = dropReturn line :: lines rest := by
  have hne := splitOn_ne_nil '\n' rest
  unfold lines
  simp only [splitOn_append h, List.dropLast_cons_of_ne_nil hne, List.map_cons,
    List.getLast?_cons_of_ne_nil hne]
  split <;> rfl

/-- The last line has no line feed at its end. -/
theorem lines_of_not_mem {text : Text} (h : '\n' ∉ text) (hne : text ≠ []) :
    lines text = [text] := by
  unfold lines
  rw [splitOn_of_not_mem h]
  cases text with
  | nil => exact absurd rfl hne
  | cons c text => rfl

/-- What is appended to a text goes to its last part, if it has no separators. -/
theorem exists_splitOn_append {separator : Char} {suffix : Text} (h : separator ∉ suffix) :
    ∀ text, ∃ parts last, splitOn separator text = parts ++ [last] ∧
      splitOn separator (text ++ suffix) = parts ++ [last ++ suffix]
  | [] => ⟨[], [], rfl, splitOn_of_not_mem h⟩
  | c :: text => by
    obtain ⟨parts, last, hparts, happend⟩ := exists_splitOn_append h text
    rw [List.cons_append]
    unfold splitOn
    rw [hparts, happend]
    by_cases hc : c = separator
    · rw [if_pos hc, if_pos hc]
      exact ⟨[] :: parts, last, rfl, rfl⟩
    · rw [if_neg hc, if_neg hc]
      -- the first part takes the character in, and it may also be the last one
      cases parts with
      | nil => exact ⟨[], c :: last, rfl, rfl⟩
      | cons part parts => exact ⟨(c :: part) :: parts, last, rfl, rfl⟩

/-- A part has no separator in it. -/
theorem notMem_of_mem_splitOn {separator : Char} {part : Text} :
    ∀ {text : Text}, part ∈ splitOn separator text → separator ∉ part
  | [], h => by
    rw [splitOn, List.mem_singleton] at h
    rw [h]
    exact List.not_mem_nil
  | c :: text, h => by
    rw [splitOn] at h
    split_ifs at h with hc
    · rcases List.mem_cons.mp h with rfl | h
      · exact List.not_mem_nil
      · exact notMem_of_mem_splitOn h
    · -- the first part of the rest goes on with the character
      split at h
      next hparts => exact absurd hparts (splitOn_ne_nil separator text)
      next first parts hparts =>
        have hrest : ∀ part ∈ first :: parts, separator ∉ part := by
          rw [← hparts]
          exact fun part hpart => notMem_of_mem_splitOn hpart
        rcases List.mem_cons.mp h with rfl | h
        · rw [List.mem_cons, not_or]
          exact ⟨Ne.symm hc, hrest first List.mem_cons_self⟩
        · exact hrest part (List.mem_cons_of_mem _ h)

theorem dropReturn_of_not_mem {line : Text} (h : '\r' ∉ line) : dropReturn line = line := by
  unfold dropReturn
  split
  · next heq => exact absurd (List.mem_of_getLast? heq) h
  · rfl

theorem dropReturn_subset (line : Text) : dropReturn line ⊆ line := by
  unfold dropReturn
  split
  · exact List.dropLast_subset line
  · exact List.Subset.refl line

/-- A line has no line feed in it. -/
theorem newline_notMem_of_mem_lines {text line : Text} (h : line ∈ lines text) : '\n' ∉ line := by
  -- all but the last part are lines that a newline ended
  have hclosed : ∀ line ∈ (splitOn '\n' text).dropLast.map dropReturn, '\n' ∉ line := by
    intro line hline
    obtain ⟨part, hpart, rfl⟩ := List.mem_map.mp hline
    exact fun hmem => notMem_of_mem_splitOn (List.mem_of_mem_dropLast hpart)
      (dropReturn_subset part hmem)
  unfold lines at h
  dsimp only at h
  split at h
  · exact hclosed line h
  · exact hclosed line h
  next last hlast =>
    rcases List.mem_append.mp h with h | h
    · exact hclosed line h
    · rw [List.mem_singleton.mp h]
      exact notMem_of_mem_splitOn (List.mem_of_getLast? hlast)

/-- Joined parts are split again. -/
theorem splitOn_join {separator : Char} : ∀ {parts : List Text}, parts ≠ [] →
    (∀ part ∈ parts, separator ∉ part) → splitOn separator (join separator parts) = parts
  | [], hne, _ => absurd rfl hne
  | [part], _, h => splitOn_of_not_mem (h part List.mem_cons_self)
  | part :: next :: parts, _, h => by
    rw [join, splitOn_append (h part List.mem_cons_self),
      splitOn_join (List.cons_ne_nil _ _) fun part' h' => h part' (List.mem_cons_of_mem _ h')]
    exact List.cons_ne_nil _ _

/-- Joined lines are read again, and what follows them. -/
theorem lines_join : ∀ {parts : List Text}, parts ≠ [] →
    (∀ part ∈ parts, '\n' ∉ part ∧ dropReturn part = part) → ∀ rest,
      lines (join '\n' parts ++ '\n' :: rest) = parts ++ lines rest
  | [], hne, _, _ => absurd rfl hne
  | [part], _, h, rest => by
    obtain ⟨hpart, hreturn⟩ := h part List.mem_cons_self
    rw [join, lines_append hpart, hreturn, List.singleton_append]
  | part :: next :: parts, _, h, rest => by
    obtain ⟨hpart, hreturn⟩ := h part List.mem_cons_self
    have hrest := lines_join (List.cons_ne_nil next parts)
      (fun part' h' => h part' (List.mem_cons_of_mem _ h')) rest
    show lines ((part ++ '\n' :: join '\n' (next :: parts)) ++ '\n' :: rest) = _
    rw [List.append_assoc, List.cons_append, lines_append hpart, hreturn, hrest]
    rfl

/-- No parts can be told from some, as long as none is empty. -/
theorem join_ne_nil (separator : Char) {parts : List Text} (hne : parts ≠ [])
    (h : ∀ part ∈ parts, part ≠ []) : join separator parts ≠ [] := by
  match parts with
  | [] => exact absurd rfl hne
  | [part] => exact h part List.mem_cons_self
  | part :: _ :: _ => exact List.append_ne_nil_of_left_ne_nil (h part List.mem_cons_self) _

/-- **Joined texts come from the same parts**, if those have no separator in them and are not
empty. -/
theorem eq_of_join_eq {separator : Char} {a b : List Text}
    (ha : ∀ part ∈ a, part ≠ [] ∧ separator ∉ part)
    (hb : ∀ part ∈ b, part ≠ [] ∧ separator ∉ part)
    (h : join separator a = join separator b) : a = b := by
  rcases eq_or_ne a [] with rfl | hane <;> rcases eq_or_ne b [] with rfl | hbne
  · rfl
  · exact absurd h.symm (join_ne_nil separator hbne fun part hpart => (hb part hpart).1)
  · exact absurd h (join_ne_nil separator hane fun part hpart => (ha part hpart).1)
  · rw [← splitOn_join hane fun part hpart => (ha part hpart).2, h,
      splitOn_join hbne fun part hpart => (hb part hpart).2]

/-! ### Blanks -/

theorem trimEnd_subset (text : Text) : trimEnd text ⊆ text := by
  intro c hc
  exact List.mem_reverse.mp ((List.dropWhile_suffix _).subset (List.mem_reverse.mp hc))

/-- A text that ends with a character that is no blank. -/
def EndsSolid (text : Text) : Prop :=
  ∃ init c, text = init ++ [c] ∧ isBlank c = false

theorem EndsSolid.append {text : Text} (h : EndsSolid text) (front : Text) :
    EndsSolid (front ++ text) := by
  obtain ⟨init, c, rfl, hc⟩ := h
  exact ⟨front ++ init, c, (List.append_assoc ..).symm, hc⟩

theorem EndsSolid.trimEnd_eq {text : Text} (h : EndsSolid text) : trimEnd text = text := by
  obtain ⟨init, c, rfl, hc⟩ := h
  unfold trimEnd
  rw [List.reverse_append, List.reverse_singleton, List.singleton_append,
    List.dropWhile_cons_of_neg (by simp [hc]), List.reverse_cons, List.reverse_reverse]

/-- Blanks at the end are dropped, those that were there and those that were not. -/
theorem trimEnd_append {blanks : Text} (h : ∀ c ∈ blanks, isBlank c = true) (text : Text) :
    trimEnd (text ++ blanks) = trimEnd text := by
  unfold trimEnd
  rw [List.reverse_append, List.dropWhile_append_of_pos fun c hc => h c (List.mem_reverse.mp hc)]

/-- A carriage return is a blank. -/
theorem trimEnd_dropReturn (line : Text) : trimEnd (dropReturn line) = trimEnd line := by
  unfold dropReturn
  split
  · next heq =>
    obtain ⟨front, rfl⟩ := List.getLast?_eq_some_iff.mp heq
    rw [List.dropLast_concat, trimEnd_append fun c hc => List.mem_singleton.mp hc ▸ rfl]
  · rfl

theorem EndsSolid.ne_nil {text : Text} (h : EndsSolid text) : text ≠ [] := by
  obtain ⟨init, c, rfl, -⟩ := h
  exact List.append_ne_nil_of_right_ne_nil _ (List.cons_ne_nil _ _)

/-- A text that is not empty and has no blanks. -/
theorem EndsSolid.of_forall {text : Text} (hne : text ≠ []) (h : ∀ c ∈ text, isBlank c = false) :
    EndsSolid text :=
  ⟨text.dropLast, text.getLast hne, (List.dropLast_concat_getLast hne).symm,
    h _ (List.getLast_mem hne)⟩

/-- A text that begins and ends with characters that are no blanks. -/
theorem EndsSolid.trim_eq {c : Char} {text : Text} (h : EndsSolid (c :: text))
    (hc : isBlank c = false) : trim (c :: text) = c :: text := by
  rw [trim, List.dropWhile_cons_of_neg (by simp [hc]), h.trimEnd_eq]

/-- A text without blanks has none at its ends. -/
theorem trim_eq {text : Text} (h : ∀ c ∈ text, isBlank c = false) : trim text = text := by
  cases text with
  | nil => rfl
  | cons c text =>
    exact (EndsSolid.of_forall (List.cons_ne_nil _ _) h).trim_eq (h c List.mem_cons_self)

/-! ### UTF-8 -/

/-- Texts are read back from their UTF-8 form. -/
theorem ofUtf8?_utf8 (text : Text) : ofUtf8? (utf8 text) = some text := by
  have hpush : ∀ (bytes : Bytes) (front : ByteArray),
      bytes.foldl ByteArray.push front = List.toByteArray.loop bytes front := by
    intro bytes
    induction bytes with
    | nil => exact fun front => rfl
    | cons b bytes ih => exact fun front => ih (front.push b)
  have hbytes : (utf8 text).foldl ByteArray.push (ByteArray.emptyWithCapacity 64)
      = text.utf8Encode := hpush _ _
  rw [ofUtf8?, hbytes, List.utf8Decode?_utf8Encode]
  rfl

theorem utf8_injective : Function.Injective utf8 := by
  intro a b h
  have hread := ofUtf8?_utf8 a
  rw [h, ofUtf8?_utf8] at hread
  exact (Option.some.inj hread).symm

/-! ### Separators -/

/-- A text is cut at the first separator, if what stands before it does not contain the first
character of the separator. -/
theorem splitOnce?_append {c : Char} (separator name value : Text) (h : c ∉ name) :
    splitOnce? (c :: separator) (name ++ (c :: separator ++ value)) = some (name, value) := by
  induction name with
  | nil =>
    rw [List.nil_append, List.cons_append, splitOnce?, if_pos (by simp), ← List.cons_append,
      List.drop_left]
  | cons b name ih =>
    have hb : c ≠ b := fun heq => h (heq ▸ List.mem_cons_self)
    have hname : c ∉ name := fun hmem => h (List.mem_cons_of_mem _ hmem)
    rw [List.cons_append, splitOnce?, if_neg (by simp [hb]), ih hname]
    rfl

/-! ### Digits -/

/-- A digit that writers use. -/
def IsDigit (c : Char) : Prop :=
  ∃ n < 16, c = hexDigit n

theorem hexValue?_hexDigit : ∀ n < 16, hexValue? (hexDigit n) = some n := by
  decide

section

variable {c : Char}

/-- A decidable property of characters holds of all digits if it holds of the sixteen. -/
theorem IsDigit.elim {P : Char → Prop} (h : IsDigit c) (hP : ∀ n < 16, P (hexDigit n)) : P c := by
  obtain ⟨n, hn, rfl⟩ := h
  exact hP n hn

theorem IsDigit.not_blank (h : IsDigit c) : isBlank c = false :=
  h.elim (P := fun c => isBlank c = false) (by decide)

theorem IsDigit.utf8Size (h : IsDigit c) : c.utf8Size = 1 :=
  h.elim (P := fun c => c.utf8Size = 1) (by decide)

theorem IsDigit.not_upper (h : IsDigit c) : ('A' ≤ c && c ≤ 'Z') = false :=
  h.elim (P := fun c => ('A' ≤ c && c ≤ 'Z') = false) (by decide)

theorem IsDigit.ne_space (h : IsDigit c) : c ≠ ' ' :=
  h.elim (P := fun c => c ≠ ' ') (by decide)

theorem IsDigit.ne_plus (h : IsDigit c) : c ≠ '+' :=
  h.elim (P := fun c => c ≠ '+') (by decide)

end

theorem utf8Size_eq_length_of_forall {text : Text} (h : ∀ c ∈ text, c.utf8Size = 1) :
    utf8Size text = text.length := by
  induction text with
  | nil => rfl
  | cons c text ih =>
    rw [utf8Size, List.map_cons, List.sum_cons, h c List.mem_cons_self, List.length_cons,
      ← ih fun c' hc' => h c' (List.mem_cons_of_mem _ hc'), utf8Size, Nat.add_comm]

theorem utf8Size_eq_length {text : Text} (h : ∀ c ∈ text, IsDigit c) :
    utf8Size text = text.length :=
  utf8Size_eq_length_of_forall fun c hc => (h c hc).utf8Size

theorem isDigit_of_mem_hex {bytes : Bytes} {c : Char} (hc : c ∈ hex bytes) : IsDigit c := by
  obtain ⟨b, -, hb⟩ := List.mem_flatMap.mp hc
  have hlt := b.toNat_lt
  rcases List.mem_cons.mp hb with rfl | hb
  · exact ⟨b.toNat / 16, by omega, rfl⟩
  · exact ⟨b.toNat % 16, by omega, List.mem_singleton.mp hb⟩

theorem length_hex (bytes : Bytes) : (hex bytes).length = 2 * bytes.length := by
  induction bytes with
  | nil => rfl
  | cons b bytes ih =>
    unfold hex
    rw [List.flatMap_cons, List.length_append, ← hex, ih, List.length_cons]
    simp only [List.length_cons, List.length_nil]
    omega

/-- Hexadecimal digits are read back. -/
theorem ofHex?_hex (bytes : Bytes) : ofHex? (hex bytes) = some bytes := by
  induction bytes with
  | nil => rfl
  | cons b bytes ih =>
    have hlt := b.toNat_lt
    have hb : UInt8.ofNat (16 * (b.toNat / 16) + b.toNat % 16) = b := by
      rw [Nat.div_add_mod]
      exact UInt8.ofNat_toNat
    show ofHex? (hexDigit (b.toNat / 16) :: hexDigit (b.toNat % 16) :: hex bytes) = _
    rw [ofHex?, hexValue?_hexDigit _ (by omega), hexValue?_hexDigit _ (by omega), ih]
    simp only [hb]

/-- Digits in pairs are the digits of some bytes. -/
theorem exists_ofHex?_eq : ∀ {text : Text}, (∀ c ∈ text, (hexValue? c).isSome = true) →
    text.length % 2 = 0 → ∃ bytes, ofHex? text = some bytes ∧ 2 * bytes.length = text.length
  | [], _, _ => ⟨[], rfl, rfl⟩
  | [_], _, hlen => absurd hlen Nat.one_ne_zero
  | high :: low :: rest, h, hlen => by
    obtain ⟨n, hn⟩ := Option.isSome_iff_exists.mp (h high (by simp))
    obtain ⟨m, hm⟩ := Option.isSome_iff_exists.mp (h low (by simp))
    have hrest : ∀ c ∈ rest, (hexValue? c).isSome = true := fun c hc => h c (by simp [hc])
    simp only [List.length_cons] at hlen ⊢
    obtain ⟨bytes, hbytes, hlength⟩ := exists_ofHex?_eq hrest (by omega)
    refine ⟨UInt8.ofNat (16 * n + m) :: bytes, ?_, ?_⟩
    · rw [ofHex?, hn, hm, hbytes]
    · rw [List.length_cons]
      omega

theorem le_of_hexValue? {c : Char} {n : Nat} (h : hexValue? c = some n) : c ≤ 'f' := by
  unfold hexValue? at h
  split_ifs at h with h₁ h₂ h₃
  · exact h₁.2.trans (by decide)
  · exact h₂.2
  · exact h₃.2.trans (by decide)

/-- What has a value as a digit is one byte long. -/
theorem utf8Size_of_hexValue? {c : Char} {n : Nat} (h : hexValue? c = some n) :
    c.utf8Size = 1 := by
  have hval : c.val ≤ 0x7f := UInt32.le_trans (Char.le_def.mp (le_of_hexValue? h)) (by decide)
  unfold Char.utf8Size
  exact if_pos hval

/-- Bytes are read from two digits each. -/
theorem utf8Size_of_ofHex? : ∀ {text : Text} {bytes : Bytes}, ofHex? text = some bytes →
    utf8Size text = 2 * bytes.length
  | [], _, h => by
    obtain rfl := Option.some.inj h
    rfl
  | [_], _, h => nomatch h
  | high :: low :: rest, bytes, h => by
    unfold ofHex? at h
    split at h
    next n m tail hhigh hlow hrest =>
      obtain rfl := Option.some.inj h
      have hsize := utf8Size_of_ofHex? hrest
      unfold utf8Size at hsize ⊢
      rw [List.map_cons, List.map_cons, List.sum_cons, List.sum_cons, hsize,
        utf8Size_of_hexValue? hhigh, utf8Size_of_hexValue? hlow, List.length_cons]
      omega
    next => exact nomatch h

end Hypertree.Text
