import Hypertree.Key.Backup
import Hypertree.Proofs.Key
import Hypertree.Proofs.Reads
import Hypertree.Proofs.Text.Number

/-!
# Keys read back from text backups

`read_write`: reading the text backup of a well-formed key gives the key back, with empty caches.
Whatever text a key is read from, it is well formed (`wellFormed_of_read`).

The written values have no blanks (`Solid`), so neither the cutting into lines nor the trimming
touches them, and the reader sees the lines as they were written (`significantLines_flatMap`). The
fields are then read one by one, in the order of the lines.
-/

namespace Hypertree.Backup

open Text

/-! ### Lines -/

/-- A written value: not empty and without blanks. -/
def Solid (text : Text) : Prop :=
  text ≠ [] ∧ ∀ c ∈ text, isBlank c = false

theorem Solid.of_digits {text : Text} (hne : text ≠ []) (h : ∀ c ∈ text, IsDigit c) : Solid text :=
  ⟨hne, fun c hc => (h c hc).not_blank⟩

theorem solid_decimal (n : Nat) : Solid (decimal n) :=
  .of_digits (decimal_ne_nil n) isDigit_of_mem_decimal

theorem solid_hex {bytes : Bytes} (h : 0 < bytes.length) : Solid (hex bytes) := by
  refine .of_digits ?_ fun _ => isDigit_of_mem_hex
  rw [← List.length_pos_iff, length_hex]
  omega

theorem solid_of_all {text : Text} (hne : text ≠ []) (h : text.all (!isBlank ·) = true) :
    Solid text :=
  ⟨hne, fun c hc => by simpa using List.all_eq_true.mp h c hc⟩

theorem solid_name (d : Digest) : Solid d.name.toList := by
  cases d <;> exact solid_of_all (by decide) (by decide)

theorem solid_absent : Solid absent :=
  solid_of_all (by decide) (by decide)

theorem solid_versionText : Solid versionText := by
  refine ⟨List.append_ne_nil_of_right_ne_nil _ (List.cons_ne_nil _ _), ?_⟩
  intro c hc
  rcases List.mem_append.mp hc with hc | hc
  · exact (solid_decimal _).2 c hc
  · rcases List.mem_cons.mp hc with rfl | hc
    · decide
    · exact (solid_decimal _).2 c hc

/-- A line that stays as it is when it is cut out of a text and trimmed. -/
def Clean (line : Text) : Prop :=
  EndsSolid line ∧ '\n' ∉ line

theorem label_spec (field : Field) : ':' ∉ field.label.toList ∧ '\n' ∉ field.label.toList := by
  cases field <;> decide

theorem Solid.newline_notMem {text : Text} (h : Solid text) : '\n' ∉ text :=
  fun hmem => absurd (h.2 _ hmem) (by decide)

theorem clean_fieldLine (field : Field) {text : Text} (h : Solid text) :
    Clean (fieldLine field text) := by
  refine ⟨((EndsSolid.of_forall h.1 h.2).append _).append _, ?_⟩
  -- no line feed in the label, the separator or the value
  intro hmem
  rcases List.mem_append.mp hmem with hmem | hmem
  · exact (label_spec field).2 hmem
  · rcases List.mem_append.mp hmem with hmem | hmem
    · exact absurd hmem (by decide)
    · exact h.newline_notMem hmem

theorem clean_nonceLine (nonce : Nonce) : Clean (nonceLine nonce) := by
  have hsolid : ∀ x : UInt32, Solid (hexPadded 8 x.toNat) := by
    intro x
    have hne : hexPadded 8 x.toNat ≠ [] := List.ne_nil_of_length_pos (by simp)
    exact .of_digits hne isDigit_of_mem_hexPadded
  have hsecond := hsolid nonce.second
  refine ⟨((EndsSolid.of_forall hsecond.1 hsecond.2).append [' ']).append _, ?_⟩
  -- no line feed in the first half, the blank or the second half
  intro hmem
  rcases List.mem_append.mp hmem with hmem | hmem
  · exact (hsolid nonce.first).newline_notMem hmem
  · rcases List.mem_cons.mp hmem with hmem | hmem
    · exact absurd hmem (by decide)
    · exact hsecond.newline_notMem hmem

/-- What is left of a line: nothing if it is blank. -/
def remainder (line : Text) : List Text :=
  [trimEnd line].filter fun line => !line.isEmpty

theorem significantLines_append {line : Text} (h : '\n' ∉ line) (rest : Text) :
    significantLines (line ++ '\n' :: rest) = remainder line ++ significantLines rest := by
  unfold significantLines
  rw [lines_append h, List.map_cons, trimEnd_dropReturn, ← List.singleton_append,
    List.filter_append]
  rfl

theorem significantLines_of_not_mem {text : Text} (h : '\n' ∉ text) :
    significantLines text = remainder text := by
  rcases eq_or_ne text [] with rfl | hne
  · rfl
  · rw [significantLines, lines_of_not_mem h hne]
    rfl

theorem Clean.remainder_eq {line : Text} (h : Clean line) : remainder line = [line] := by
  have hne : (!line.isEmpty) = true := by simp [h.1.ne_nil]
  unfold remainder
  rw [h.1.trimEnd_eq]
  exact List.filter_cons_of_pos hne

/-- Clean lines come out of their text as they went in. -/
theorem significantLines_flatMap {texts : List Text} (h : ∀ t ∈ texts, Clean t) :
    significantLines (texts.flatMap (· ++ ['\n'])) = texts := by
  induction texts with
  | nil => rfl
  | cons t texts ih =>
    have ht := h t List.mem_cons_self
    rw [List.flatMap_cons, List.append_assoc, List.singleton_append, significantLines_append ht.2,
      ht.remainder_eq, ih fun t' ht' => h t' (List.mem_cons_of_mem _ ht'), List.singleton_append]

/-! ### Fields -/

theorem fieldValue_fieldLine (field : Field) {text : Text} (h : Solid text) :
    fieldValue field (fieldLine field text) = .ok text := by
  have hsplit : splitOnce? separator (fieldLine field text) = some (field.label.toList, text) :=
    splitOnce?_append [' '] _ _ (label_spec field).1
  unfold fieldValue
  rw [hsplit]
  simp only [if_true, trim_eq h.2]

theorem reads_line (field : Field) (line : Text) : Reads (nextLine field) [line] line :=
  fun _ => rfl

theorem reads_value (field : Field) {text : Text} (h : Solid text) :
    Reads (value field) [fieldLine field text] text :=
  (reads_line field _).bind_lift (fieldValue_fieldLine field h)

theorem decimalValue_decimal (field : Field) {bound n : Nat} (h : n < bound) :
    decimalValue field bound (decimal n) = .ok n := by
  unfold decimalValue
  rw [readDecimal?_decimal h]

theorem reads_number (field : Field) {bound n : Nat} (h : n < bound) :
    Reads (number field bound) [fieldLine field (decimal n)] n :=
  (reads_value field (solid_decimal n)).bind_lift (decimalValue_decimal field h)

theorem hexValue_hex (field : Field) {n : Nat} {bytes : Bytes} (h : bytes.length = n) :
    hexValue field n (hex bytes) = .ok bytes := by
  have hsize : utf8Size (hex bytes) = 2 * n := by
    rw [utf8Size_eq_length fun _ => isDigit_of_mem_hex, length_hex, h]
  have hupper : (hex bytes).any (fun c => 'A' ≤ c && c ≤ 'Z') = false := by
    rw [List.any_eq_false]
    intro c hc
    simp [(isDigit_of_mem_hex hc).not_upper]
  unfold hexValue
  rw [if_neg (not_not_intro hsize), hupper, if_neg Bool.false_ne_true, ofHex?_hex]

theorem reads_hexBytes (field : Field) {n : Nat} {bytes : Bytes} (h : bytes.length = n)
    (hn : 0 < n) : Reads (hexBytes field n) [fieldLine field (hex bytes)] bytes :=
  (reads_value field (solid_hex (h ▸ hn))).bind_lift (hexValue_hex field h)

theorem hex_ne_absent (bytes : Bytes) : hex bytes ≠ absent := by
  intro h
  have hmem : 'n' ∈ hex bytes := by rw [h]; decide
  exact (isDigit_of_mem_hex hmem).elim (P := fun c => c ≠ 'n') (by decide) rfl

theorem solid_optional {n : Nat} (hn : 0 < n) {bytes : Option Bytes}
    (h : ∀ b, bytes = some b → b.length = n) : Solid (bytes.elim absent hex) := by
  cases bytes with
  | none => exact solid_absent
  | some b => exact solid_hex (by rw [h b rfl]; exact hn)

theorem reads_optionalHexBytes (field : Field) {n : Nat} (hn : 0 < n) {bytes : Option Bytes}
    (h : ∀ b, bytes = some b → b.length = n) :
    Reads (optionalHexBytes field n) [fieldLine field (bytes.elim absent hex)] bytes := by
  refine (reads_value field (solid_optional hn h)).bind (b := []) ?_
  cases bytes with
  | none =>
    rw [Option.elim_none, if_pos rfl]
    exact reads_pure none
  | some b =>
    rw [Option.elim_some, if_neg (hex_ne_absent b)]
    exact (reads_lift (hexValue_hex field (h b rfl))).bind_pure

/-! ### Nonces -/

theorem noncePart_hexPadded (x : UInt32) : noncePart (hexPadded 8 x.toNat) = .ok x := by
  have hsize : utf8Size (hexPadded 8 x.toNat) = 8 := by
    rw [utf8Size_eq_length isDigit_of_mem_hexPadded, length_hexPadded]
  unfold noncePart
  rw [if_neg (not_not_intro hsize),
    readHex?_hexPadded (by decide) (show x.toNat < 16 ^ 8 from x.toNat_lt) x.toNat_lt]
  simp only [UInt32.ofNat_toNat]

theorem nonceOfLine_nonceLine (nonce : Nonce) : nonceOfLine (nonceLine nonce) = .ok nonce := by
  have hsplit : splitOnce? [' '] (nonceLine nonce)
      = some (hexPadded 8 nonce.first.toNat, hexPadded 8 nonce.second.toNat) :=
    splitOnce?_append [] _ _ fun hmem => (isDigit_of_mem_hexPadded _ hmem).ne_space rfl
  unfold nonceOfLine
  rw [hsplit]
  simp only [noncePart_hexPadded]
  rfl

theorem reads_nonceLines (nonces : List Nonce) :
    Reads (nonceLines nonces.length) (nonces.map nonceLine) nonces := by
  induction nonces with
  | nil => exact reads_pure []
  | cons nonce nonces ih =>
    refine (reads_line .nonceEntry (nonceLine nonce)).bind ?_
    exact (reads_lift (nonceOfLine_nonceLine nonce)).bind_nil ih.bind_pure

/-! ### The body -/

theorem reads_version : Reads readVersion [fieldLine .version versionText] () := by
  refine (reads_value .version solid_versionText).bind (b := []) ?_
  have hsplit : splitOnce? ['.'] versionText
      = some (decimal versionMajor.toNat, decimal versionMinor.toNat) :=
    splitOnce?_append [] _ _ fun hmem =>
      (isDigit_of_mem_decimal _ hmem).elim (P := fun c => c ≠ '.') (by decide) rfl
  rw [hsplit]
  refine (reads_lift (decimalValue_decimal .version (by decide))).bind_nil ?_
  refine (reads_lift (decimalValue_decimal .version (by decide))).bind_nil ?_
  exact reads_lift rfl

theorem ofName_name (d : Digest) : Digest.ofName (String.ofList d.name.toList) = .ok d := by
  rw [String.ofList_toList]
  cases d <;> rfl

theorem name_ne_absent (d : Digest) : d.name.toList ≠ absent := by
  cases d <;> decide

/-- The lines of a header. -/
def headerLines (header : Header) : List Text :=
  [fieldLine .height (decimal header.height), fieldLine .layers (decimal header.layers),
    fieldLine .nonceExponentLine (decimal header.nonceExponent),
    fieldLine .hashLine header.digest.name.toList,
    fieldLine .backupHashLine (header.backupDigest.elim absent (·.name.toList))]

theorem solid_backupName (d : Option Digest) : Solid (d.elim absent (·.name.toList)) := by
  cases d with
  | none => exact solid_absent
  | some d => exact solid_name d

theorem reads_header {header : Header} (hv : header.Valid) :
    Reads readHeader (headerLines header) header := by
  have hsmall : ∀ {k : Nat}, k ≤ 60 → k < 2 ^ 32 := fun hk => lt_of_le_of_lt hk (by decide)
  refine (reads_number .height (hsmall hv.height_le)).bind ?_
  refine (reads_number .layers (hsmall (le_trans hv.layers_le (by decide)))).bind ?_
  refine (reads_number .nonceExponentLine
    (hsmall (le_trans hv.nonceExponent_le (by decide)))).bind ?_
  refine (reads_value .hashLine (solid_name header.digest)).bind ?_
  refine (reads_lift (ofName_name header.digest)).bind_nil ?_
  refine (reads_value .backupHashLine (solid_backupName header.backupDigest)).bind (b := []) ?_
  obtain ⟨digest, backupDigest, height, layers, nonceExponent⟩ := header
  have hend := (reads_lift (σ := Text) hv.validate_eq).bind_pure
    (f := fun _ => (⟨digest, backupDigest, height, layers, nonceExponent⟩ : Header))
  dsimp only at hend ⊢
  -- the word for no second digest is not the name of one
  cases backupDigest with
  | none => exact (reads_pure none).bind_nil hend
  | some d =>
    rw [Option.elim_some, if_neg (name_ne_absent d), ofName_name]
    exact (reads_lift rfl).bind_nil hend

theorem body_eq (key : PrivateKey) :
    body key = fieldLine .version versionText :: (headerLines key.header ++
      (fieldLine .index (decimal key.index) :: fieldLine .publicSeedLine (hex key.publicSeed) ::
        fieldLine .secretSeedLine (hex key.secretSeed) ::
        fieldLine .secretPrfLine (hex key.secretPrf) :: fieldLine .root (hex key.root) ::
        fieldLine .backupRootLine (key.backupRoot.elim absent hex) ::
        fieldLine .noncesLine (decimal key.nonces.size) ::
        key.nonces.entries.toList.map nonceLine)) :=
  rfl

/-- The lines of a body are read back. -/
theorem reads_body {key : PrivateKey} (h : key.WellFormed) :
    Reads readBody (body key) { key with caches := .empty } := by
  have hv := h.header
  have hn : 0 < key.header.n := key.header.digest.size_pos
  have hindex : key.index < 2 ^ 64 :=
    lt_of_le_of_lt h.index_le
      (Nat.pow_lt_pow_right (by decide) (lt_of_le_of_lt hv.height_le (by decide)))
  have hcount : key.nonces.size < 2 ^ 64 := by
    rw [h.nonces]
    exact Nat.pow_lt_pow_right (by decide) (lt_of_le_of_lt hv.treeHeight_le (by decide))
  have hsome : (key.backupRoot.isSome != key.header.backupDigest.isSome) = false := by
    rw [h.backup_isSome, bne_self_eq_false]
  rw [body_eq]
  -- one reader for each line, in the order of the lines
  refine reads_version.bind ?_
  refine (reads_header hv).bind ?_
  refine (reads_number .index hindex).bind ?_
  rw [if_neg (Nat.not_lt.mpr h.index_le)]
  refine (reads_hexBytes .publicSeedLine h.publicSeed hn).bind ?_
  refine (reads_hexBytes .secretSeedLine h.secretSeed hn).bind ?_
  refine (reads_hexBytes .secretPrfLine h.secretPrf hn).bind ?_
  refine (reads_hexBytes .root h.root hn).bind ?_
  refine (reads_optionalHexBytes .backupRootLine hn h.backupRoot).bind ?_
  rw [hsome, if_neg Bool.false_ne_true]
  refine (reads_number .noncesLine hcount).bind ?_
  rw [if_neg (not_not_intro h.nonces)]
  have hnonces := (reads_nonceLines key.nonces.entries.toList).bind_pure (f := fun nonces =>
    { key with nonces := ⟨nonces.toArray⟩, caches := .empty })
  exact hnonces

theorem clean_body {key : PrivateKey} (h : key.WellFormed) : ∀ line ∈ body key, Clean line := by
  have hn : 0 < key.header.n := key.header.digest.size_pos
  have hhex : ∀ {bytes : Bytes}, bytes.length = key.header.n → Solid (hex bytes) := fun hlen =>
    solid_hex (hlen ▸ hn)
  rw [body_eq, headerLines]
  intro line hline
  simp only [List.cons_append, List.nil_append, List.mem_cons] at hline
  -- the fields in their order, and then the nonces
  rcases hline with rfl | rfl | rfl | rfl | rfl | rfl | rfl | rfl | rfl | rfl | rfl | rfl | rfl |
    hline
  · exact clean_fieldLine _ solid_versionText
  · exact clean_fieldLine _ (solid_decimal _)
  · exact clean_fieldLine _ (solid_decimal _)
  · exact clean_fieldLine _ (solid_decimal _)
  · exact clean_fieldLine _ (solid_name _)
  · exact clean_fieldLine _ (solid_backupName _)
  · exact clean_fieldLine _ (solid_decimal _)
  · exact clean_fieldLine _ (hhex h.publicSeed)
  · exact clean_fieldLine _ (hhex h.secretSeed)
  · exact clean_fieldLine _ (hhex h.secretPrf)
  · exact clean_fieldLine _ (hhex h.root)
  · exact clean_fieldLine _ (solid_optional hn h.backupRoot)
  · exact clean_fieldLine _ (solid_decimal _)
  · obtain ⟨nonce, -, rfl⟩ := List.mem_map.mp hline
    exact clean_nonceLine nonce

/-! ### The whole text -/

theorem length_checksum (suite : Suite) (body : List Text) : (checksum suite body).length = 32 :=
  suite.length_hash _ _

theorem clean_armour : Clean beginLine ∧ Clean endLine :=
  ⟨⟨⟨beginLine.dropLast, '-', by decide, by decide⟩, by decide⟩,
    ⟨⟨endLine.dropLast, '-', by decide, by decide⟩, by decide⟩⟩

/-- The lines of a text backup, with other lines in the place of its body. -/
def linesWithBody (suite : Suite) (key : PrivateKey) (altered : List Text) : List Text :=
  beginLine :: (altered ++ [fieldLine .checksumLine (hex (checksum suite (body key))), endLine])

theorem lines_eq_linesWithBody (suite : Suite) (key : PrivateKey) :
    lines suite key = linesWithBody suite key (body key) :=
  rfl

theorem clean_linesWithBody (suite : Suite) (key : PrivateKey) {altered : List Text}
    (h : ∀ line ∈ altered, Clean line) : ∀ line ∈ linesWithBody suite key altered, Clean line := by
  have hsum : Solid (hex (checksum suite (body key))) :=
    solid_hex (by rw [length_checksum]; decide)
  intro line hline
  unfold linesWithBody at hline
  simp only [List.mem_cons, List.mem_append, List.not_mem_nil, or_false] at hline
  rcases hline with rfl | hline | rfl | rfl
  · exact clean_armour.1
  · exact h line hline
  · exact clean_fieldLine _ hsum
  · exact clean_armour.2

theorem clean_lines (suite : Suite) {key : PrivateKey} (h : key.WellFormed) :
    ∀ line ∈ lines suite key, Clean line := by
  rw [lines_eq_linesWithBody]
  exact clean_linesWithBody suite key (clean_body h)

theorem withoutArmour_eq (body : List Text) (checksumLine : Text) :
    withoutArmour (beginLine :: (body ++ [checksumLine, endLine])) = .ok (body, checksumLine) := by
  have hsplit : body ++ [checksumLine, endLine] = (body ++ [checksumLine]) ++ [endLine] := by simp
  rw [hsplit, withoutArmour]
  simp only [List.getLast?_concat, List.dropLast_concat, and_self, if_true]

theorem checksumOfLine_fieldLine {sum : Bytes} (h : sum.length = 32) :
    checksumOfLine (fieldLine .checksumLine (hex sum)) = .ok sum := by
  have hline : fieldLine .checksumLine (hex sum)
      = (Field.checksumLine.label.toList ++ separator) ++ hex sum := by
    unfold fieldLine
    rw [List.append_assoc]
  unfold checksumOfLine
  rw [hline]
  simp only [List.isPrefixOf_iff_prefix, List.prefix_append, if_true, List.drop_left]
  exact hexValue_hex _ h

/-- The lines of a text with a given body and the checksum of that body. -/
def withArmour (suite : Suite) (body : List Text) : List Text :=
  beginLine :: (body ++ [fieldLine .checksumLine (hex (checksum suite body)), endLine])

theorem lines_eq_withArmour (suite : Suite) (key : PrivateKey) :
    lines suite key = withArmour suite (body key) :=
  rfl

/-- A body is read from between the armour, with its checksum. -/
theorem read_of_withArmour {suite : Suite} {text : Text} {body : List Text} {key : PrivateKey}
    (hlines : significantLines text = withArmour suite body)
    (hbody : readBody.run body = .ok (key, [])) : read suite text = .ok key := by
  unfold read
  rw [hlines, withArmour, withoutArmour_eq]
  simp only [checksumOfLine_fieldLine (length_checksum suite body), hbody, bind, Except.bind,
    if_true, List.isEmpty_nil]
  rfl

/-- **A well-formed key is read back from its text backup**, without its caches. -/
theorem read_write (suite : Suite) {key : PrivateKey} (h : key.WellFormed) :
    read suite (write suite key) = .ok { key with caches := .empty } := by
  have hlines : significantLines (write suite key) = lines suite key :=
    significantLines_flatMap (clean_lines suite h)
  rw [lines_eq_withArmour] at hlines
  exact read_of_withArmour hlines (reads_body h).run

/-! ### What is read -/

section

variable {field : Field} {n count : Nat} {input rest : List Text}

theorem length_of_hexValue {text : Text} {bytes : Bytes} (h : hexValue field n text = .ok bytes) :
    bytes.length = n := by
  unfold hexValue at h
  split_ifs at h with hsize hupper
  · exact nomatch h
  · split at h
    next b hhex =>
      obtain rfl := Except.ok.inj h
      have hdigits := utf8Size_of_ofHex? hhex
      omega
    next => exact nomatch h

theorem length_of_hexBytes_run {bytes : Bytes}
    (h : (hexBytes field n).run input = .ok (bytes, rest)) : bytes.length = n := by
  obtain ⟨text, _, -, h⟩ := run_bind_eq_ok_iff.mp h
  exact length_of_hexValue (run_lift_eq_ok_iff.mp h).1

theorem length_of_optionalHexBytes_run {bytes : Option Bytes}
    (h : (optionalHexBytes field n).run input = .ok (bytes, rest)) :
    ∀ b, bytes = some b → b.length = n := by
  obtain ⟨text, _, -, h⟩ := run_bind_eq_ok_iff.mp h
  rintro b rfl
  split_ifs at h
  · exact nomatch (run_pure_eq_ok_iff.mp h).1
  · obtain ⟨bytes, hbytes, h⟩ := run_lift_bind_eq_ok_iff.mp h
    obtain rfl := Option.some.inj (run_pure_eq_ok_iff.mp h).1
    exact length_of_hexValue hbytes

theorem length_of_nonceLines_run : ∀ {input rest : List Text} {nonces : List Nonce},
    (nonceLines count).run input = .ok (nonces, rest) → nonces.length = count := by
  induction count with
  | zero =>
    intro input rest nonces h
    rw [(run_pure_eq_ok_iff.mp h).1]
    rfl
  | succ count ih =>
    intro input rest nonces h
    obtain ⟨line, _, -, h⟩ := run_bind_eq_ok_iff.mp h
    obtain ⟨nonce, -, h⟩ := run_lift_bind_eq_ok_iff.mp h
    obtain ⟨tail, _, htail, h⟩ := run_bind_eq_ok_iff.mp h
    rw [(run_pure_eq_ok_iff.mp h).1, List.length_cons, ih htail]

theorem valid_of_readHeader_run {header : Header}
    (h : readHeader.run input = .ok (header, rest)) : header.Valid := by
  obtain ⟨height, _, -, h⟩ := run_bind_eq_ok_iff.mp h
  obtain ⟨layers, _, -, h⟩ := run_bind_eq_ok_iff.mp h
  obtain ⟨nonceExponent, _, -, h⟩ := run_bind_eq_ok_iff.mp h
  obtain ⟨name, _, -, h⟩ := run_bind_eq_ok_iff.mp h
  obtain ⟨digest, -, h⟩ := run_lift_bind_eq_ok_iff.mp h
  obtain ⟨backupName, _, -, h⟩ := run_bind_eq_ok_iff.mp h
  -- the header is checked with a second digest as without one
  split_ifs at h
  all_goals
    obtain ⟨backupDigest, _, -, h⟩ := run_bind_eq_ok_iff.mp h
    obtain ⟨_, hvalid, h⟩ := run_lift_bind_eq_ok_iff.mp h
    rw [(run_pure_eq_ok_iff.mp h).1]
    exact Header.valid_iff_validate.mpr hvalid

/-- What each line of a body has to hold is all that a key is asked for. -/
theorem wellFormed_of_readBody_run {key : PrivateKey}
    (h : readBody.run input = .ok (key, rest)) : key.WellFormed := by
  obtain ⟨_, _, -, h⟩ := run_bind_eq_ok_iff.mp h
  obtain ⟨header, _, hheader, h⟩ := run_bind_eq_ok_iff.mp h
  obtain ⟨index, _, -, h⟩ := run_bind_eq_ok_iff.mp h
  obtain ⟨hindex, h⟩ := run_guard_eq_ok_iff.mp h
  obtain ⟨publicSeed, _, hpublicSeed, h⟩ := run_bind_eq_ok_iff.mp h
  obtain ⟨secretSeed, _, hsecretSeed, h⟩ := run_bind_eq_ok_iff.mp h
  obtain ⟨secretPrf, _, hsecretPrf, h⟩ := run_bind_eq_ok_iff.mp h
  obtain ⟨root, _, hroot, h⟩ := run_bind_eq_ok_iff.mp h
  obtain ⟨backupRoot, _, hbackupRoot, h⟩ := run_bind_eq_ok_iff.mp h
  obtain ⟨hsome, h⟩ := run_guard_eq_ok_iff.mp h
  obtain ⟨count, _, -, h⟩ := run_bind_eq_ok_iff.mp h
  obtain ⟨hcount, h⟩ := run_guard_eq_ok_iff.mp h
  obtain ⟨nonces, _, hnonces, h⟩ := run_bind_eq_ok_iff.mp h
  rw [(run_pure_eq_ok_iff.mp h).1]
  -- the sizes come from the readers of the fields, the rest from the guards between them
  exact {
    header := valid_of_readHeader_run hheader
    index_le := Nat.le_of_not_lt hindex
    publicSeed := length_of_hexBytes_run hpublicSeed
    secretSeed := length_of_hexBytes_run hsecretSeed
    secretPrf := length_of_hexBytes_run hsecretPrf
    root := length_of_hexBytes_run hroot
    backupRoot := length_of_optionalHexBytes_run hbackupRoot
    backup_isSome := by simpa using hsome
    nonces := (length_of_nonceLines_run hnonces).trans (not_not.mp hcount)
    caches := Caches.all_empty }

/-- **A key read from a text backup is well formed.** -/
theorem wellFormed_of_read {suite : Suite} {text : Text} {key : PrivateKey}
    (h : read suite text = .ok key) : key.WellFormed := by
  obtain ⟨⟨body, checksumLine⟩, -, h⟩ := bind_eq_ok_iff.mp h
  obtain ⟨expected, -, h⟩ := bind_eq_ok_iff.mp h
  obtain ⟨-, h⟩ := guard_eq_ok_iff.mp h
  obtain ⟨⟨key', rest⟩, hbody, h⟩ := bind_eq_ok_iff.mp h
  obtain ⟨-, h⟩ := guard_eq_ok_iff.mp h
  obtain rfl := Except.ok.inj h
  exact wellFormed_of_readBody_run hbody

end

end Hypertree.Backup
