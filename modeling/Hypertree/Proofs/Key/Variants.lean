import Hypertree.Proofs.Key.Tampering
import Hypertree.Proofs.Text.Spelling

/-!
# Which texts are backups

A key is read back from its text backup (`read_write`), and from some other texts: the readers of
fields skip blanks before a value, the reader of numbers admits a sign and zeros that writers do not
write, and the reader of nonces admits letters of both cases. `Variant` relates a written line to
the lines that are read as it, and `exists_variants_of_read` says that this is all: a text from
which a key is read consists of the lines of the backup of that key, in their order and each in a
variant, between the armour lines and with their own checksum.

Each reader takes lines from the front of its input. `Takes` says of which written lines those are
variants, and readers one after another take lines one after another (`Takes.append`).
-/

namespace Hypertree.Backup

open Text

/-! ### Variants of lines -/

/-- The fields whose values are decimal numbers. -/
def numberFields : List Field :=
  [.height, .layers, .nonceExponentLine, .index, .noncesLine]

/-- Eight characters that are read as a nonce: its digits, in either case. What they are if there is
a sign among them is left open. -/
def Entry (nonce : UInt32) (text : Text) : Prop :=
  text.length = 8 ∧ ('+' ∉ text → text.map Char.toLower = hexPadded 8 nonce.toNat)

/-- A line as it is written, and a line that says the same. -/
inductive Variant : Text → Text → Prop
  /-- Blanks before the value of a field. -/
  | value {field : Field} {blanks value : Text} (hblanks : Blanks blanks) :
      Variant (fieldLine field value) (fieldLine field (blanks ++ value))
  /-- Blanks before the value of a field, and another numeral of the number there. -/
  | number {field : Field} {blanks numeral : Text} {n : Nat} (hfield : field ∈ numberFields)
      (hblanks : Blanks blanks) (hnumeral : Numeral n numeral) :
      Variant (fieldLine field (decimal n)) (fieldLine field (blanks ++ numeral))
  /-- Digits of a nonce pair in another case. -/
  | nonce {nonce : Nonce} {first second : Text} (hfirst : Entry nonce.first first)
      (hsecond : Entry nonce.second second) : Variant (nonceLine nonce) (first ++ ' ' :: second)

/-- Up to `rest`, the lines of `input` are variants of the written ones, if they are lines that a
text is cut into. -/
def Takes (input rest written : List Text) : Prop :=
  (∀ line ∈ input, Clean line) → ∃ taken, List.Forall₂ Variant written taken ∧ input = taken ++ rest

theorem Takes.nil (input : List Text) : Takes input input [] :=
  fun _ => ⟨[], .nil, rfl⟩

theorem Takes.append {input mid rest a b : List Text} (h : Takes input mid a)
    (h' : Takes mid rest b) : Takes input rest (a ++ b) := by
  intro hclean
  obtain ⟨front, hfront, rfl⟩ := h hclean
  obtain ⟨back, hback, rfl⟩ := h' fun line hline => hclean line (List.mem_append_right _ hline)
  exact ⟨front ++ back, List.rel_append hfront hback, (List.append_assoc ..).symm⟩

theorem Takes.single {written line : Text} {rest : List Text}
    (h : Clean line → Variant written line) : Takes (line :: rest) rest [written] :=
  fun hclean => ⟨[line], .cons (h (hclean line List.mem_cons_self)) .nil, rfl⟩

/-! ### Fields -/

section

variable {field : Field} {n bound count : Nat} {input rest : List Text}

theorem nextLine_run {line : Text} (h : (nextLine field).run input = .ok (line, rest)) :
    input = line :: rest := by
  cases input with
  | nil => exact nomatch h
  | cons first others =>
    obtain ⟨rfl, rfl⟩ := Prod.mk.inj (Except.ok.inj h)
    rfl

theorem not_endsSolid_separator (field : Field) :
    ¬ EndsSolid (field.label.toList ++ separator) := by
  have h := not_endsSolid_concat (c := ' ') rfl (field.label.toList ++ [':'])
  rwa [List.append_assoc] at h

/-- The line of a field has its name and its value, and blanks between the two. -/
theorem exists_blanks_of_fieldValue {line text : Text} (h : fieldValue field line = .ok text)
    (hline : Clean line) : ∃ blanks, Blanks blanks ∧ line = fieldLine field (blanks ++ text) := by
  unfold fieldValue at h
  split at h
  next name value hsplit =>
    split_ifs at h with hname
    · obtain rfl := Except.ok.inj h
      obtain rfl := eq_of_splitOnce? hsplit
      obtain ⟨hsolid, hnewline⟩ := hline
      rw [hname, ← List.append_assoc] at hsolid
      obtain ⟨blanks, hblanks, hvalue⟩ :=
        exists_blanks_of_trim hsolid (not_endsSolid_separator field)
      -- the blanks are part of the line, so none of them ends it
      refine ⟨blanks, fun c hc => ⟨hblanks c hc, ?_⟩, ?_⟩
      · rintro rfl
        rw [hvalue] at hnewline
        simp [hc] at hnewline
      · rw [fieldLine, hname, ← hvalue]
    · exact nomatch h
  · exact nomatch h

theorem exists_line_of_value_run {text : Text} (h : (value field).run input = .ok (text, rest)) :
    ∃ line, input = line :: rest ∧ fieldValue field line = .ok text := by
  obtain ⟨line, mid, hline, h⟩ := run_bind_eq_ok_iff.mp h
  obtain ⟨hvalue, rfl⟩ := run_lift_eq_ok_iff.mp h
  exact ⟨line, nextLine_run hline, hvalue⟩

theorem takes_value {text : Text} (h : (value field).run input = .ok (text, rest)) :
    Takes input rest [fieldLine field text] := by
  obtain ⟨line, rfl, hvalue⟩ := exists_line_of_value_run h
  refine .single fun hline => ?_
  obtain ⟨blanks, hblanks, rfl⟩ := exists_blanks_of_fieldValue hvalue hline
  exact .value hblanks

theorem takes_number (hfield : field ∈ numberFields)
    (h : (number field bound).run input = .ok (n, rest)) :
    Takes input rest [fieldLine field (decimal n)] := by
  obtain ⟨text, mid, htext, h⟩ := run_bind_eq_ok_iff.mp h
  obtain ⟨hnumber, rfl⟩ := run_lift_eq_ok_iff.mp h
  obtain ⟨line, rfl, hvalue⟩ := exists_line_of_value_run htext
  refine .single fun hline => ?_
  obtain ⟨blanks, hblanks, rfl⟩ := exists_blanks_of_fieldValue hvalue hline
  unfold decimalValue at hnumber
  split at hnumber
  next m hm =>
    obtain rfl := Except.ok.inj hnumber
    exact .number hfield hblanks (readDecimal?_eq_some_iff.mp hm).2
  · exact nomatch hnumber

/-- Bytes are read from their digits in lower case only. -/
theorem eq_hex_of_hexValue {text : Text} {bytes : Bytes} (h : hexValue field n text = .ok bytes) :
    text = hex bytes := by
  unfold hexValue at h
  split_ifs at h with hsize hupper
  · exact nomatch h
  · split at h
    next b hhex =>
      obtain rfl := Except.ok.inj h
      rw [← map_toLower_of_ofHex? hhex, map_toLower_eq (Bool.eq_false_of_not_eq_true hupper)]
    next => exact nomatch h

theorem takes_hexBytes {bytes : Bytes} (h : (hexBytes field n).run input = .ok (bytes, rest)) :
    Takes input rest [fieldLine field (hex bytes)] := by
  obtain ⟨text, mid, htext, h⟩ := run_bind_eq_ok_iff.mp h
  obtain ⟨hhex, rfl⟩ := run_lift_eq_ok_iff.mp h
  rw [← eq_hex_of_hexValue hhex]
  exact takes_value htext

theorem takes_optionalHexBytes {bytes : Option Bytes}
    (h : (optionalHexBytes field n).run input = .ok (bytes, rest)) :
    Takes input rest [fieldLine field (bytes.elim absent hex)] := by
  obtain ⟨text, mid, htext, h⟩ := run_bind_eq_ok_iff.mp h
  split_ifs at h with habsent
  · obtain ⟨rfl, rfl⟩ := run_pure_eq_ok_iff.mp h
    rw [Option.elim_none, ← habsent]
    exact takes_value htext
  · obtain ⟨b, hhex, h⟩ := run_lift_bind_eq_ok_iff.mp h
    obtain ⟨rfl, rfl⟩ := run_pure_eq_ok_iff.mp h
    rw [Option.elim_some, ← eq_hex_of_hexValue hhex]
    exact takes_value htext

/-! ### Nonces -/

theorem entry_of_noncePart {nonce : UInt32} {text : Text} (h : noncePart text = .ok nonce) :
    Entry nonce text := by
  unfold noncePart at h
  split_ifs at h with hsize
  · exact nomatch h
  · split at h
    next m hm =>
      obtain rfl := Except.ok.inj h
      -- eight bytes that read as a number are eight characters
      have hlength : text.length = 8 := by
        rw [← utf8Size_of_readHex? hm]
        exact not_not.mp hsize
      have hlt : m < 2 ^ 32 := lt_of_readHex? hm
      refine ⟨hlength, fun hsign => ?_⟩
      rw [map_toLower_of_readHex? hm hsign, hlength, UInt32.toNat_ofNat_of_lt' hlt]
    next => exact nomatch h

theorem variant_of_nonceOfLine {line : Text} {nonce : Nonce} (h : nonceOfLine line = .ok nonce) :
    Variant (nonceLine nonce) line := by
  unfold nonceOfLine at h
  split at h
  · exact nomatch h
  next first second hsplit =>
    obtain ⟨a, ha, h⟩ := bind_eq_ok_iff.mp h
    obtain ⟨b, hb, h⟩ := bind_eq_ok_iff.mp h
    obtain rfl := Except.ok.inj h
    rw [eq_of_splitOnce? hsplit]
    exact .nonce (entry_of_noncePart ha) (entry_of_noncePart hb)

theorem takes_nonceLines : ∀ {input rest : List Text} {nonces : List Nonce},
    (nonceLines count).run input = .ok (nonces, rest) →
      Takes input rest (nonces.map nonceLine) := by
  induction count with
  | zero =>
    intro input rest nonces h
    obtain ⟨rfl, rfl⟩ := run_pure_eq_ok_iff.mp h
    exact .nil rest
  | succ count ih =>
    intro input rest nonces h
    obtain ⟨line, _, hline, h⟩ := run_bind_eq_ok_iff.mp h
    obtain ⟨nonce, hnonce, h⟩ := run_lift_bind_eq_ok_iff.mp h
    obtain ⟨tail, _, htail, h⟩ := run_bind_eq_ok_iff.mp h
    obtain ⟨rfl, rfl⟩ := run_pure_eq_ok_iff.mp h
    obtain rfl := nextLine_run hline
    exact (Takes.single fun _ => variant_of_nonceOfLine hnonce).append (ih htail)

/-! ### The body -/

/-- A digest is read from its name only. -/
theorem eq_name_of_ofName {name : Text} {digest : Digest}
    (h : Digest.ofName (String.ofList name) = .ok digest) : name = digest.name.toList := by
  unfold Digest.ofName at h
  split at h
  next d hd =>
    obtain rfl := Except.ok.inj h
    have hname := List.find?_some hd
    rw [of_decide_eq_true hname, String.toList_ofList]
  next => exact nomatch h

/-- The name of a second digest is read as the name of a first one. -/
theorem eq_name_of_ofName_map {name : Text} {digest : Option Digest}
    (h : (Digest.ofName (String.ofList name)).map some = .ok digest) :
    name = digest.elim absent (·.name.toList) := by
  cases hd : Digest.ofName (String.ofList name) with
  | error e =>
    rw [hd] at h
    exact nomatch h
  | ok d =>
    rw [hd] at h
    obtain rfl := Except.ok.inj h
    exact eq_name_of_ofName hd

theorem takes_header {header : Header} (h : readHeader.run input = .ok (header, rest)) :
    Takes input rest (headerLines header) := by
  obtain ⟨height, _, hheight, h⟩ := run_bind_eq_ok_iff.mp h
  obtain ⟨layers, _, hlayers, h⟩ := run_bind_eq_ok_iff.mp h
  obtain ⟨nonceExponent, _, hexponent, h⟩ := run_bind_eq_ok_iff.mp h
  obtain ⟨name, _, hname, h⟩ := run_bind_eq_ok_iff.mp h
  obtain ⟨digest, hdigest, h⟩ := run_lift_bind_eq_ok_iff.mp h
  obtain ⟨backupName, _, hbackupName, h⟩ := run_bind_eq_ok_iff.mp h
  have htaken := (takes_number (by decide) hheight).append <|
    (takes_number (by decide) hlayers).append <| (takes_number (by decide) hexponent).append <|
    (takes_value hname).append (takes_value hbackupName)
  rw [eq_name_of_ofName hdigest] at htaken
  -- the second digest is absent or has a name
  split_ifs at h with habsent
  · obtain ⟨backupDigest, _, hbackup, h⟩ := run_bind_eq_ok_iff.mp h
    obtain ⟨_, -, h⟩ := run_lift_bind_eq_ok_iff.mp h
    obtain ⟨rfl, rfl⟩ := run_pure_eq_ok_iff.mp h
    obtain ⟨rfl, rfl⟩ := run_pure_eq_ok_iff.mp hbackup
    rw [habsent] at htaken
    exact htaken
  · obtain ⟨backupDigest, hbackup, h⟩ := run_lift_bind_eq_ok_iff.mp h
    obtain ⟨_, -, h⟩ := run_lift_bind_eq_ok_iff.mp h
    obtain ⟨rfl, rfl⟩ := run_pure_eq_ok_iff.mp h
    rw [eq_name_of_ofName_map hbackup] at htaken
    exact htaken

theorem readVersion_run {u : Unit} (h : readVersion.run input = .ok (u, rest)) :
    ∃ version, input = version :: rest := by
  obtain ⟨text, mid, htext, h⟩ := run_bind_eq_ok_iff.mp h
  obtain ⟨version, hinput, -⟩ := exists_line_of_value_run htext
  split at h
  · exact nomatch h
  · -- neither the numbers nor the check on them reads a line
    obtain ⟨major, -, h⟩ := run_lift_bind_eq_ok_iff.mp h
    obtain ⟨minor, -, h⟩ := run_lift_bind_eq_ok_iff.mp h
    obtain ⟨-, rfl⟩ := run_lift_eq_ok_iff.mp h
    exact ⟨version, hinput⟩

/-- The lines that follow that of the version are those of the key. -/
theorem takes_body {key : PrivateKey} (h : readBody.run input = .ok (key, rest)) :
    ∃ version fields, input = version :: fields ∧ Takes fields rest (body key).tail := by
  obtain ⟨_, fields, hversion, h⟩ := run_bind_eq_ok_iff.mp h
  obtain ⟨version, hinput⟩ := readVersion_run hversion
  refine ⟨version, fields, hinput, ?_⟩
  -- every reader takes its own lines, and the guards take none
  obtain ⟨header, _, hheader, h⟩ := run_bind_eq_ok_iff.mp h
  obtain ⟨index, _, hindex, h⟩ := run_bind_eq_ok_iff.mp h
  obtain ⟨-, h⟩ := run_guard_eq_ok_iff.mp h
  obtain ⟨publicSeed, _, hpublicSeed, h⟩ := run_bind_eq_ok_iff.mp h
  obtain ⟨secretSeed, _, hsecretSeed, h⟩ := run_bind_eq_ok_iff.mp h
  obtain ⟨secretPrf, _, hsecretPrf, h⟩ := run_bind_eq_ok_iff.mp h
  obtain ⟨root, _, hroot, h⟩ := run_bind_eq_ok_iff.mp h
  obtain ⟨backupRoot, _, hbackupRoot, h⟩ := run_bind_eq_ok_iff.mp h
  obtain ⟨-, h⟩ := run_guard_eq_ok_iff.mp h
  obtain ⟨count, _, hcount, h⟩ := run_bind_eq_ok_iff.mp h
  obtain ⟨-, h⟩ := run_guard_eq_ok_iff.mp h
  obtain ⟨nonces, _, hnonces, h⟩ := run_bind_eq_ok_iff.mp h
  obtain ⟨rfl, rfl⟩ := run_pure_eq_ok_iff.mp h
  have hlength : nonces.length = count := length_of_nonceLines_run hnonces
  rw [← hlength] at hcount
  exact (takes_header hheader).append <| (takes_number (by decide) hindex).append <|
    (takes_hexBytes hpublicSeed).append <| (takes_hexBytes hsecretSeed).append <|
    (takes_hexBytes hsecretPrf).append <| (takes_hexBytes hroot).append <|
    (takes_optionalHexBytes hbackupRoot).append <| (takes_number (by decide) hcount).append <|
    takes_nonceLines hnonces

end

/-! ### The whole text -/

theorem withoutArmour_eq_ok {all body : List Text} {checksumLine : Text}
    (h : withoutArmour all = .ok (body, checksumLine)) :
    all = beginLine :: (body ++ [checksumLine, endLine]) := by
  unfold withoutArmour at h
  split at h
  · exact nomatch h
  next first rest =>
    split at h
    · exact nomatch h
    next last hlast =>
      split_ifs at h with harmour
      · obtain ⟨rfl, rfl⟩ := harmour
        split at h
        · exact nomatch h
        next line hline =>
          obtain ⟨rfl, rfl⟩ := Prod.mk.inj (Except.ok.inj h)
          -- the last two lines are cut off one after the other
          have hrest := List.dropLast_append_getLast? _ hlast
          have hfront := List.dropLast_append_getLast? _ hline
          rw [← hrest, ← hfront]
          simp

/-- The line of a checksum holds its digits and no blanks. -/
theorem eq_of_checksumOfLine {line : Text} {sum : Bytes} (h : checksumOfLine line = .ok sum) :
    line = fieldLine .checksumLine (hex sum) := by
  unfold checksumOfLine at h
  dsimp only at h
  split_ifs at h with hstart
  · obtain ⟨digits, rfl⟩ := List.isPrefixOf_iff_prefix.mp hstart
    rw [List.drop_left] at h
    rw [eq_hex_of_hexValue h, List.append_assoc]
    rfl
  · exact nomatch h

theorem clean_of_mem_significantLines {text line : Text} (h : line ∈ significantLines text) :
    Clean line := by
  have hline := isLine_of_mem_significantLines h
  obtain ⟨hmem, -⟩ := List.mem_filter.mp h
  obtain ⟨whole, -, rfl⟩ := List.mem_map.mp hmem
  exact ⟨endsSolid_trimEnd hline.1, hline.2⟩

/-- A key is read from the lines between the armour, if the checksum is theirs and no line is left
over. -/
theorem read_eq_ok_iff {suite : Suite} {text : Text} {key : PrivateKey} :
    read suite text = .ok key ↔ ∃ found, significantLines text = withArmour suite found ∧
      readBody.run found = .ok (key, []) := by
  constructor
  · intro h
    obtain ⟨⟨found, checksumLine⟩, harmour, h⟩ := bind_eq_ok_iff.mp h
    obtain ⟨expected, hexpected, h⟩ := bind_eq_ok_iff.mp h
    obtain ⟨hsum, h⟩ := guard_eq_ok_iff.mp h
    obtain ⟨⟨key', rest⟩, hbody, h⟩ := bind_eq_ok_iff.mp h
    obtain ⟨hrest, h⟩ := guard_eq_ok_iff.mp h
    obtain rfl := Except.ok.inj h
    rw [List.isEmpty_iff.mp hrest] at hbody
    -- the checksum of the lines found is the one that the text names
    refine ⟨found, ?_, hbody⟩
    rw [withoutArmour_eq_ok harmour, eq_of_checksumOfLine hexpected, ← hsum]
    rfl
  · rintro ⟨found, hlines, hbody⟩
    exact read_of_withArmour hlines hbody

/-- **Backups are read and nothing else**, up to variants of lines. If a key is read from a text
with the version that writers write, then the lines of the text are those of the backup of the key,
each in a variant, and the checksum is that of the variants. -/
theorem exists_variants_of_read {suite : Suite} {text : Text} {key : PrivateKey}
    (h : read suite text = .ok key)
    (hversion : (significantLines text)[1]? = some (fieldLine .version versionText)) :
    ∃ variants, List.Forall₂ Variant (body key) variants ∧
      significantLines text = withArmour suite variants := by
  obtain ⟨found, hlines, hbody⟩ := read_eq_ok_iff.mp h
  refine ⟨found, ?_, hlines⟩
  obtain ⟨version, fields, rfl, htakes⟩ := takes_body hbody
  have hclean : ∀ line ∈ fields, Clean line := by
    intro line hline
    have hmem : line ∈ significantLines text := by
      rw [hlines, withArmour]
      simp [hline]
    exact clean_of_mem_significantLines hmem
  obtain ⟨variants, hvariants, rfl⟩ := htakes hclean
  -- of this line the reader asks no more than the major version
  obtain rfl : version = fieldLine .version versionText := by
    rw [hlines] at hversion
    exact Option.some.inj hversion
  have hblanks : Blanks [] := fun c hc => absurd hc List.not_mem_nil
  have hline : Variant (fieldLine .version versionText) (fieldLine .version versionText) :=
    .value hblanks
  rw [List.append_nil]
  exact .cons hline hvariants

/-- The lines of `lastKey` with a blank before the height, a sign and a zero before the index, and
a nonce in upper case. -/
def relaxedBody : List Text :=
  ["version: 1.0".toList, "height:  2".toList, "layers: 2".toList, "nonce-exponent: 16".toList,
    "hash: sha2-256".toList, "backup-hash: sha3-256".toList, "index: +04".toList,
    fieldLine .publicSeedLine (hex lastKey.publicSeed),
    fieldLine .secretSeedLine (hex lastKey.secretSeed),
    fieldLine .secretPrfLine (hex lastKey.secretPrf), fieldLine .root (hex lastKey.root),
    fieldLine .backupRootLine (lastKey.backupRoot.elim absent hex), "nonces: 2".toList,
    "FFFFFFFF 00000000".toList, "00000007 00000008".toList]

/-- A text with these lines and their checksum. -/
def relaxed : Text :=
  (withArmour Suite.standard relaxedBody).flatMap (· ++ ['\n'])

theorem significantLines_relaxed :
    significantLines relaxed = withArmour Suite.standard relaxedBody := by
  -- the body is fixed and short; the checksum is not, and has digits only
  have htrimmed : ∀ line ∈ relaxedBody, trimEnd line = line ∧ line ≠ [] ∧ '\n' ∉ line := by
    decide +kernel
  have hsum : Solid (hex (checksum Suite.standard relaxedBody)) :=
    solid_hex (by rw [length_checksum]; decide)
  refine significantLines_flatMap fun line hline => ?_
  rw [withArmour, List.mem_cons, List.mem_append] at hline
  rcases hline with rfl | hline | hline
  · exact clean_armour.1
  · obtain ⟨htrim, hne, hnewline⟩ := htrimmed line hline
    rw [← htrim] at hne ⊢
    exact ⟨endsSolid_trimEnd hne, htrim.symm ▸ hnewline⟩
  · rcases List.mem_pair.mp hline with rfl | rfl
    · exact clean_fieldLine _ hsum
    · exact clean_armour.2

theorem read_relaxed : read Suite.standard relaxed = .ok lastKey :=
  read_eq_ok_iff.mpr ⟨relaxedBody, significantLines_relaxed, rfl⟩

theorem version_relaxed :
    (significantLines relaxed)[1]? = some (fieldLine .version versionText) := by
  rw [significantLines_relaxed]
  decide +kernel

theorem exists_variants_of_read_relaxed :
    read Suite.standard relaxed = .ok lastKey ∧
    (significantLines relaxed)[1]? = some (fieldLine .version versionText) ∧
    ∃ variants, List.Forall₂ Variant (body lastKey) variants ∧
      significantLines relaxed = withArmour Suite.standard variants :=
  ⟨read_relaxed, version_relaxed, exists_variants_of_read read_relaxed version_relaxed⟩

/-- **A key is read from a text that is not its backup**: lines of each kind of variant are read,
and are not lines that are written. -/
theorem relaxed_ne_lines :
    read Suite.standard relaxed = .ok lastKey ∧
    (significantLines relaxed)[1]? = some (fieldLine .version versionText) ∧
    significantLines relaxed ≠ lines Suite.standard lastKey ∧
    ∀ line ∈ ["height:  2", "index: +04", "FFFFFFFF 00000000"],
      line.toList ∈ significantLines relaxed ∧ line.toList ∉ lines Suite.standard lastKey := by
  have hlines : ∀ line ∈ ["height:  2", "index: +04", "FFFFFFFF 00000000"],
      line.toList ∈ significantLines relaxed ∧ line.toList ∉ lines Suite.standard lastKey := by
    rw [significantLines_relaxed, lines_eq_withArmour]
    decide +kernel
  refine ⟨read_relaxed, version_relaxed, fun heq => ?_, hlines⟩
  obtain ⟨hread, hwritten⟩ := hlines "index: +04" (by simp)
  rw [heq] at hread
  exact hwritten hread

end Hypertree.Backup
