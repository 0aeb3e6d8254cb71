import Hypertree.Text.Format
import Hypertree.Proofs.Text.Base64

/-!
# Text forms read back

The reader of public keys and signatures first decides which of the three forms it has before it
(`detect`) and then reads the text in that form (`decode_eq`). Armour is told by how it begins, which
no other form does. Hexadecimal digits are told by being nothing else, and a base64 text can be just
that: `aaaa` is three bytes in base64 and two others in hexadecimal, so no reader could get both
right (`base64_taken_for_hex`). This one takes such a text for hexadecimal digits; all other texts
are read back as what they are (`text_forms_read_back`).
-/

namespace Hypertree.Format

open Text (trim lines join hexValue? ofHex? ofBase64? isBlank)

variable {data : Bytes} {label : Label}

/-! ### Detection -/

/-- The form that the reader takes a text for. -/
def detect (text : Text) : Format :=
  if armourStart.isPrefixOf (trim text) then .armoured
  else if isHex (trim text) && (trim text).length % 2 = 0 then .hex
  else .base64

/-- The byte string of a text in a given form. -/
def read (text : Text) : Format → Except FormatFault Bytes
  | .hex =>
    match ofHex? text with
    | some bytes => .ok bytes
    | none => .error .hex
  | .base64 =>
    match ofBase64? text with
    | some bytes => .ok bytes
    | none => .error .base64
  | .armoured =>
    if (lines text).length < 3 then .error .armour
    else
      match ofBase64? (lines text).tail.dropLast.flatten with
      | some bytes => .ok bytes
      | none => .error .armourContent

theorem decode_eq (text : Text) : decode text = read (trim text) (detect text) := by
  unfold decode detect
  dsimp only
  by_cases harmour : armourStart.isPrefixOf (trim text) = true
  · rw [if_pos harmour, if_pos harmour]
    rfl
  · rw [if_neg harmour, if_neg harmour]
    split_ifs <;> rfl

theorem isHex_iff {text : Text} :
    isHex text = true ↔ text ≠ [] ∧ ∀ c ∈ text, (hexValue? c).isSome = true := by
  simp [isHex]

theorem armourStart_eq : armourStart = ['-', '-', '-', '-', '-', 'B', 'E', 'G', 'I', 'N'] :=
  rfl

/-- Without blanks and dashes, only the digits count. -/
theorem detect_of_no_dash {text : Text} (hblank : ∀ c ∈ text, isBlank c = false)
    (hdash : ∀ c ∈ text, c ≠ '-') :
    detect text = if isHex text && text.length % 2 = 0 then .hex else .base64 := by
  have hstart : armourStart.isPrefixOf text = false := by
    rw [armourStart_eq]
    cases text with
    | nil => rfl
    | cons c text =>
      have hc : '-' ≠ c := Ne.symm (hdash c List.mem_cons_self)
      rw [List.isPrefixOf_cons_cons, beq_false_of_ne hc, Bool.false_and]
  unfold detect
  rw [Text.trim_eq hblank, hstart]
  rfl

/-! ### Hexadecimal digits -/

theorem trim_hex (data : Bytes) : trim (Text.hex data) = Text.hex data :=
  Text.trim_eq fun _ hc => (Text.isDigit_of_mem_hex hc).not_blank

theorem detect_hex_iff : detect (encode data .hex label) = .hex ↔ data ≠ [] := by
  have hdigits : ∀ c ∈ Text.hex data, (hexValue? c).isSome = true := fun c hc =>
    (Text.isDigit_of_mem_hex hc).elim (P := fun c => (hexValue? c).isSome = true) (by decide)
  -- without a dash the armoured form is out, and what is left is to be read as hexadecimal
  have hdash : ∀ c ∈ Text.hex data, c ≠ '-' := fun c hc =>
    (Text.isDigit_of_mem_hex hc).elim (P := fun c => c ≠ '-') (by decide)
  have hlength := Text.length_hex data
  rw [encode, detect_of_no_dash (fun _ hc => (Text.isDigit_of_mem_hex hc).not_blank) hdash]
  constructor
  · rintro h rfl
    cases h
  · intro hne
    have hpos := List.length_pos_iff.mpr hne
    have hhex : isHex (Text.hex data) = true :=
      isHex_iff.mpr ⟨List.length_pos_iff.mp (by omega), hdigits⟩
    rw [hhex, hlength, Nat.mul_mod_right]
    rfl

/-- **Hexadecimal digits are read back.** -/
theorem decode_hex : decode (encode data .hex label) = .ok data := by
  by_cases hne : data = []
  · subst hne
    rfl
  · rw [decode_eq, detect_hex_iff.mpr hne, encode, trim_hex, read, Text.ofHex?_hex]

/-! ### Base64 -/

theorem trim_base64 (data : Bytes) : trim (Text.base64 data) = Text.base64 data :=
  Text.trim_eq fun c hc => (Text.isBase64_of_mem data c hc).not_blank

/-- The digits of whole groups are even in number, so only their kind counts. -/
theorem detect_base64 (data : Bytes) (label : Label) : detect (encode data .base64 label)
    = if isHex (Text.base64 data) then .hex else .base64 := by
  rw [encode, detect_of_no_dash (fun c hc => (Text.isBase64_of_mem data c hc).not_blank)
    fun c hc => (Text.isBase64_of_mem data c hc).ne_dash]
  cases hhex : isHex (Text.base64 data) with
  | false => rfl
  | true =>
    have hlength := Text.length_of_hex_digits (isHex_iff.mp hhex).2
    have heven : (Text.base64 data).length % 2 = 0 := by omega
    rw [heven]
    rfl

/-- **Base64 is read back if it cannot be taken for hexadecimal digits.** -/
theorem decode_base64 (h : isHex (Text.base64 data) = false) :
    decode (encode data .base64 label) = .ok data := by
  rw [decode_eq, detect_base64, h, encode, trim_base64]
  show read (Text.base64 data) .base64 = _
  rw [read, Text.ofBase64?_base64]

/-- Otherwise it is taken for them, and they are those of fewer bytes. -/
theorem decode_base64_of_isHex (label : Label) (h : isHex (Text.base64 data) = true) :
    data ≠ [] ∧ ∃ other, decode (encode data .base64 label) = .ok other ∧
      3 * other.length = 2 * data.length := by
  obtain ⟨hne, hdigits⟩ := isHex_iff.mp h
  have hlength := Text.length_of_hex_digits hdigits
  obtain ⟨other, hother, hhalf⟩ := Text.exists_ofHex?_eq hdigits (by omega)
  refine ⟨?_, other, ?_, by omega⟩
  · rintro rfl
    exact hne rfl
  · rw [decode_eq, detect_base64, h, encode, trim_base64]
    show read (Text.base64 data) .hex = _
    rw [read, hother]

/-! ### Armour -/

theorem flatten_wrap (text : Text) : (wrap text).flatten = text := by
  fun_induction wrap text with
  | case1 text hshort hempty =>
    rw [List.isEmpty_iff.mp hempty]
    rfl
  | case2 text hshort hne => exact List.append_nil text
  | case3 text hlong ih => rw [List.flatten_cons, ih, List.take_append_drop]

/-- The lines between those of the armour. Without any bytes there is one, which is empty. -/
theorem exists_lines_wrapped {text : Text} (h : ∀ c ∈ text, isBlank c = false) (rest : Text) :
    ∃ body, lines (join '\n' (wrap text) ++ '\n' :: rest) = body ++ lines rest ∧ body ≠ [] ∧
      body.flatten = text := by
  have hclean : ∀ part ∈ wrap text, ∀ c ∈ part, isBlank c = false := by
    intro part hpart c hc
    exact h c (flatten_wrap text ▸ List.mem_flatten_of_mem hpart hc)
  by_cases hempty : wrap text = []
  · have htext := flatten_wrap text
    rw [hempty] at htext ⊢
    exact ⟨[[]], Text.lines_append List.not_mem_nil rest, List.cons_ne_nil _ _, htext⟩
  · refine ⟨wrap text, Text.lines_join hempty (fun part hpart => ⟨?_, ?_⟩) rest, hempty,
      flatten_wrap text⟩
    · exact fun hmem => absurd (hclean part hpart _ hmem) (by decide)
    · exact Text.dropReturn_of_not_mem fun hmem => absurd (hclean part hpart _ hmem) (by decide)

theorem armourStart_begins_line (label : Label) : armourStart <+: armourLine "BEGIN" label := by
  cases label <;> decide

theorem newline_notMem_armourLine (label : Label) :
    '\n' ∉ armourLine "BEGIN" label ∧ '\n' ∉ armourLine "END" label := by
  cases label <;> decide

theorem endsSolid_armourLine (word : String) (label : Label) :
    Text.EndsSolid (armourLine word label) := by
  refine ⟨"-----".toList ++ (word.toList ++ (' ' :: (label.text ++ "----".toList))), '-', ?_, rfl⟩
  simp [armourLine]

theorem armourStart_begins_encode (data : Bytes) (label : Label) :
    armourStart <+: encode data .armoured label :=
  (armourStart_begins_line label).trans (List.prefix_append _ _)

/-- An armoured text begins and ends with dashes. -/
theorem trim_armoured (data : Bytes) (label : Label) :
    trim (encode data .armoured label) = encode data .armoured label := by
  have hend : Text.EndsSolid (encode data .armoured label) := by
    rw [encode, ← List.cons_append, ← List.append_assoc]
    exact ((endsSolid_armourLine "END" label).append ['\n']).append _
  obtain ⟨rest, hrest⟩ := armourStart_begins_encode data label
  rw [armourStart_eq, List.cons_append] at hrest
  rw [← hrest] at hend ⊢
  exact hend.trim_eq rfl

theorem detect_armoured : detect (encode data .armoured label) = .armoured := by
  rw [detect, trim_armoured,
    List.isPrefixOf_iff_prefix.mpr (armourStart_begins_encode data label)]
  rfl

/-- **Armoured texts are read back.** -/
theorem decode_armoured : decode (encode data .armoured label) = .ok data := by
  obtain ⟨hbegin, hend⟩ := newline_notMem_armourLine label
  obtain ⟨body, hbody, hne, hflatten⟩ := exists_lines_wrapped
    (fun c hc => (Text.isBase64_of_mem data c hc).not_blank) (armourLine "END" label)
  have hlast : lines (armourLine "END" label) = [armourLine "END" label] :=
    Text.lines_of_not_mem hend (endsSolid_armourLine "END" label).ne_nil
  have hlines : lines (encode data .armoured label)
      = Text.dropReturn (armourLine "BEGIN" label) :: (body ++ [armourLine "END" label]) := by
    rw [encode, Text.lines_append hbegin, hbody, hlast]
  have hlength : ¬ (lines (encode data .armoured label)).length < 3 := by
    have hpos := List.length_pos_iff.mpr hne
    rw [hlines, List.length_cons, List.length_append, List.length_singleton]
    omega
  rw [decode_eq, detect_armoured, trim_armoured, read, if_neg hlength, hlines, List.tail_cons,
    List.dropLast_concat, hflatten, Text.ofBase64?_base64]

/-! ### All forms -/

/-- **The text forms are read back, as far as they can be told apart.** The reader decides on a form
and reads the text in it. It takes armoured texts for what they are and reads them back. It reads
hexadecimal digits back, and takes them for what they are unless there are none. It takes base64 for
what it is, and reads it back, unless there is nothing in it but hexadecimal digits; these it reads
as such, and they stand for fewer bytes. -/
theorem text_forms_read_back (data : Bytes) (label : Label) :
    (∀ text, decode text = read (trim text) (detect text)) ∧
    (detect (encode data .armoured label) = .armoured ∧
      decode (encode data .armoured label) = .ok data) ∧
    ((detect (encode data .hex label) = .hex ↔ data ≠ []) ∧
      decode (encode data .hex label) = .ok data) ∧
    if isHex (Text.base64 data) then
      detect (encode data .base64 label) = .hex ∧ data ≠ [] ∧
        ∃ other, decode (encode data .base64 label) = .ok other ∧
          3 * other.length = 2 * data.length
    else
      detect (encode data .base64 label) = .base64 ∧
        decode (encode data .base64 label) = .ok data := by
  refine ⟨decode_eq, ⟨detect_armoured, decode_armoured⟩, ⟨detect_hex_iff, decode_hex⟩, ?_⟩
  have hdetect := detect_base64 data label
  -- digits of base64 that are all hexadecimal are the one ambiguous case
  split
  · next hhex =>
    obtain ⟨hne, hother⟩ := decode_base64_of_isHex label hhex
    rw [if_pos hhex] at hdetect
    exact ⟨hdetect, hne, hother⟩
  · next hhex =>
    rw [if_neg hhex] at hdetect
    exact ⟨hdetect, decode_base64 (Bool.not_eq_true _ ▸ hhex)⟩

/-- The text `aaaa` is the base64 of three bytes and the hexadecimal digits of two others. It is read
as the latter, so base64 is not always read back. -/
theorem base64_taken_for_hex :
    encode [0x69, 0xa6, 0x9a] .base64 .publicKey = encode [0xaa, 0xaa] .hex .publicKey ∧
      decode (encode [0x69, 0xa6, 0x9a] .base64 .publicKey) = .ok [0xaa, 0xaa] ∧
      ¬ ∀ (data : Bytes) (format : Format) (label : Label),
        decode (encode data format label) = .ok data := by
  have hsame : encode [0x69, 0xa6, 0x9a] .base64 .publicKey
      = encode [0xaa, 0xaa] .hex .publicKey := by decide
  have hread : decode (encode [0x69, 0xa6, 0x9a] .base64 .publicKey) = .ok [0xaa, 0xaa] := by
    rw [hsame, decode_hex]
  refine ⟨hsame, hread, fun h => ?_⟩
  have hback := h [0x69, 0xa6, 0x9a] .base64 .publicKey
  rw [hread] at hback
  cases hback

end Hypertree.Format
