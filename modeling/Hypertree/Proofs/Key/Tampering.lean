import Hypertree.Proofs.Key.Respaced

/-!
# Tampered backups

The checksum of a text backup covers the lines of its body, and a reader compares it before it
looks into any of them. So a text with the checksum line of a backup and another body is refused for
its checksum, whatever the other lines say (`tampering_detected`), or two byte strings with the same
digest have been found.

The digest is one of bytes and not of lines. Nothing is lost between the two: a reader never sees an
empty line or a line feed within a line, so different bodies are different byte strings
(`bodyBytes_injective`).
-/

namespace Hypertree.Backup

open Text

/-- The bytes of a body, whose digest is its checksum. -/
def bodyBytes (body : List Text) : Bytes :=
  utf8 (join '\n' body)

/-- A line that a reader sees: not empty, and without line feeds. -/
def IsLine (line : Text) : Prop :=
  line ≠ [] ∧ '\n' ∉ line

theorem Clean.isLine {line : Text} (h : Clean line) : IsLine line :=
  ⟨h.1.ne_nil, h.2⟩

theorem isLine_of_mem_significantLines {text line : Text} (h : line ∈ significantLines text) :
    IsLine line := by
  obtain ⟨hmem, hne⟩ := List.mem_filter.mp h
  obtain ⟨whole, hwhole, rfl⟩ := List.mem_map.mp hmem
  refine ⟨by simpa using hne, ?_⟩
  exact fun hnewline => newline_notMem_of_mem_lines hwhole (trimEnd_subset whole hnewline)

/-- **Different bodies have different bytes.** -/
theorem bodyBytes_injective {a b : List Text} (ha : ∀ line ∈ a, IsLine line)
    (hb : ∀ line ∈ b, IsLine line) (h : bodyBytes a = bodyBytes b) : a = b :=
  eq_of_join_eq ha hb (utf8_injective h)

section

variable {suite : Suite} {key : PrivateKey} {text : Text} {altered : List Text}

/-- An altered body consists of lines, as all that a reader sees. -/
theorem isLine_of_mem_altered (hlines : significantLines text = linesWithBody suite key altered) :
    ∀ line ∈ altered, IsLine line := by
  intro line hline
  have hmem : line ∈ significantLines text := by
    rw [hlines]
    exact List.mem_cons_of_mem _ (List.mem_append_left _ hline)
  exact isLine_of_mem_significantLines hmem

/-- The checksum is compared before anything is read of the body. -/
theorem read_of_checksum_ne (hlines : significantLines text = linesWithBody suite key altered)
    (hne : checksum suite altered ≠ checksum suite (body key)) :
    read suite text = .error .checksumMismatch := by
  unfold read
  rw [hlines, linesWithBody, withoutArmour_eq]
  simp only [bind, Except.bind, checksumOfLine_fieldLine (length_checksum suite (body key)),
    if_neg hne]
  rfl

/-- **Tampering is detected.** A text that has the armour and the checksum line of the backup of a
key, but another body, is refused for its checksum; or else the two bodies are two byte strings with
the same digest. -/
theorem tampering_detected (h : key.WellFormed)
    (hlines : significantLines text = linesWithBody suite key altered) (hne : altered ≠ body key) :
    read suite text = .error .checksumMismatch ∨
      (bodyBytes altered ≠ bodyBytes (body key) ∧
        suite.hash .sha256 (bodyBytes altered) = suite.hash .sha256 (bodyBytes (body key))) := by
  have hbytes : bodyBytes altered ≠ bodyBytes (body key) := by
    intro heq
    exact hne (bodyBytes_injective (isLine_of_mem_altered hlines)
      (fun line hline => (clean_body h line hline).isLine) heq)
  by_cases hsum : checksum suite altered = checksum suite (body key)
  · exact Or.inr ⟨hbytes, hsum⟩
  · exact Or.inl (read_of_checksum_ne hlines hsum)

end

/-- Digests that add up the bytes of a message. -/
def additive : Suite where
  hash d message := List.replicate d.size message.sum
  length_hash _ _ := List.length_replicate

/-- A key that has made its last signature. -/
def lastKey : PrivateKey :=
  { spentKey with caches := .empty }

/-- The same key before its first. -/
def firstKey : PrivateKey :=
  { lastKey with index := 0 }

/-- The text backup of `lastKey`, with the index of `firstKey` written in. -/
def rolledBack : Text :=
  (linesWithBody additive lastKey (body firstKey)).flatMap (· ++ ['\n'])

theorem tampering_detected_rolledBack :
    lastKey.WellFormed ∧ body firstKey ≠ body lastKey ∧
    significantLines rolledBack = linesWithBody additive lastKey (body firstKey) ∧
    read additive rolledBack = .error .checksumMismatch := by
  have hkey : lastKey.WellFormed := wellFormed_spentKey
  have hfirst : firstKey.WellFormed := hkey.update (Nat.zero_le _) hkey.caches
  have hlines : significantLines rolledBack = linesWithBody additive lastKey (body firstKey) :=
    significantLines_flatMap (clean_linesWithBody additive lastKey (clean_body hfirst))
  have hne : body firstKey ≠ body lastKey := by decide +kernel
  refine ⟨hkey, hne, hlines, ?_⟩
  obtain hrefused | ⟨-, hdigest⟩ := tampering_detected hkey hlines hne
  · exact hrefused
  · exact absurd hdigest (by decide +kernel)

end Hypertree.Backup
