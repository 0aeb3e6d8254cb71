import Hypertree.Proofs.Key.Backup

/-!
# Backups with other spacing

`Respaced` relates two texts that differ in blank lines, in blanks at the ends of lines, and in the
characters that end a line. They have the same significant lines (`Respaced.significantLines_eq`),
so whatever is read from one is read from the other; in particular, a key comes back from its text
backup however that was spaced on the way (`key_restored`).

A backup says nothing about caches, so none of this asks anything of them.
-/

namespace Hypertree.Backup

open Text

/-- Blanks within one line. -/
def Blanks (text : Text) : Prop :=
  ∀ c ∈ text, isBlank c = true ∧ c ≠ '\n'

/-- What ends a line: a line feed, or a carriage return and a line feed. -/
inductive LineEnd : Text → Prop
  | lineFeed : LineEnd ['\n']
  | returnLineFeed : LineEnd ['\r', '\n']

/-- The second text is the first one with lines of blanks put in, blanks put after lines, and lines
ended in one way or the other. -/
inductive Respaced : Text → Text → Prop
  /-- What follows the last line feed. -/
  | last {line blanks : Text} (hline : '\n' ∉ line) (hblanks : Blanks blanks) :
      Respaced line (line ++ blanks)
  | line {line blanks ending text text' : Text} (hline : '\n' ∉ line) (hblanks : Blanks blanks)
      (hending : LineEnd ending) (h : Respaced text text') :
      Respaced (line ++ '\n' :: text) (line ++ (blanks ++ (ending ++ text')))
  | blankLine {blanks ending text text' : Text} (hblanks : Blanks blanks)
      (hending : LineEnd ending) (h : Respaced text text') :
      Respaced text (blanks ++ (ending ++ text'))

theorem blanks_of_all {text : Text} (h : (text.all fun c => isBlank c && c != '\n') = true) :
    Blanks text :=
  fun c hc => by simpa using List.all_eq_true.mp h c hc

theorem Blanks.newline_notMem {blanks : Text} (h : Blanks blanks) : '\n' ∉ blanks :=
  fun hmem => (h _ hmem).2 rfl

theorem remainder_append {blanks : Text} (h : Blanks blanks) (line : Text) :
    remainder (line ++ blanks) = remainder line := by
  unfold remainder
  rw [trimEnd_append fun c hc => (h c hc).1]

/-- A carriage return before the line feed is one more blank. -/
theorem LineEnd.exists_blanks {ending : Text} (h : LineEnd ending) :
    ∃ blanks, Blanks blanks ∧ ending = blanks ++ ['\n'] := by
  cases h with
  | lineFeed => exact ⟨[], fun c hc => absurd hc List.not_mem_nil, rfl⟩
  | returnLineFeed =>
    refine ⟨['\r'], fun c hc => ?_, rfl⟩
    obtain rfl := List.mem_singleton.mp hc
    decide

/-- A line with blanks after it, whatever ends it. -/
theorem significantLines_spaced {line blanks ending : Text} (hline : '\n' ∉ line)
    (hblanks : Blanks blanks) (hending : LineEnd ending) (text : Text) :
    significantLines (line ++ (blanks ++ (ending ++ text))) =
      remainder line ++ significantLines text := by
  obtain ⟨more, hmore, rfl⟩ := hending.exists_blanks
  have hspaced : '\n' ∉ line ++ blanks ++ more := by
    simp [hline, hblanks.newline_notMem, hmore.newline_notMem]
  have htext : line ++ (blanks ++ (more ++ ['\n'] ++ text)) =
      line ++ blanks ++ more ++ '\n' :: text := by simp
  rw [htext, significantLines_append hspaced, remainder_append hmore, remainder_append hblanks]

/-- **Spacing does not matter**: the lines that count are the same. -/
theorem Respaced.significantLines_eq {text text' : Text} (h : Respaced text text') :
    significantLines text' = significantLines text := by
  induction h with
  | @last line blanks hline hblanks =>
    have hspaced : '\n' ∉ line ++ blanks := by simp [hline, hblanks.newline_notMem]
    rw [significantLines_of_not_mem hspaced, significantLines_of_not_mem hline,
      remainder_append hblanks]
  | line hline hblanks hending _ ih =>
    rw [significantLines_spaced hline hblanks hending, significantLines_append hline, ih]
  | blankLine hblanks hending _ ih =>
    have hempty := significantLines_spaced List.not_mem_nil hblanks hending
    exact (hempty _).trans ih

theorem Respaced.read_eq {text text' : Text} (h : Respaced text text') (suite : Suite) :
    read suite text' = read suite text := by
  unfold read
  rw [h.significantLines_eq]

/-- **A key comes back from its text backup**, without its caches, and from each text that has
another spacing than the backup. -/
theorem key_restored (suite : Suite) {key : PrivateKey}
    (h : { key with caches := .empty }.WellFormed) :
    read suite (write suite key) = .ok { key with caches := .empty } ∧
    ∀ text, Respaced (write suite key) text →
      read suite text = .ok { key with caches := .empty } := by
  -- what is written of a key is also written of the key without its caches
  have hread := read_write suite h
  exact ⟨hread, fun text htext => (htext.read_eq suite).trans hread⟩

/-- A text in which each line ends with a tab, a carriage return and a line feed, with a line of
blanks before the first and a blank after the last. -/
def loose (texts : List Text) : Text :=
  [' ', ' '] ++ (['\n'] ++ (texts.flatMap (· ++ ['\t', '\r', '\n']) ++ [' ']))

theorem respaced_loose {texts : List Text} (h : ∀ t ∈ texts, '\n' ∉ t) :
    Respaced (texts.flatMap (· ++ ['\n'])) (loose texts) := by
  refine .blankLine (blanks_of_all (by decide)) .lineFeed ?_
  induction texts with
  | nil => exact .last List.not_mem_nil (blanks_of_all (by decide))
  | cons t texts ih =>
    have htail := ih fun t' ht' => h t' (List.mem_cons_of_mem _ ht')
    have htab : Blanks ['\t'] := blanks_of_all (by decide)
    simpa using Respaced.line (h t List.mem_cons_self) htab .returnLineFeed htail

/-- A key under two digests, spent to the last signature, with a cache in a layer that it does not
have. -/
def spentKey : PrivateKey where
  header := { backupDigest := some .sha3, height := 2, layers := 2 }
  index := 4
  publicSeed := Bytes.zeros 32
  secretSeed := Bytes.zeros 32
  secretPrf := Bytes.zeros 32
  root := Bytes.zeros 32
  backupRoot := some (Bytes.zeros 32)
  nonces := ⟨#[⟨0xffffffff, 0⟩, ⟨7, 8⟩]⟩
  caches := Caches.empty.insertTree 9 9 (.empty 0)

theorem wellFormed_spentKey : { spentKey with caches := .empty }.WellFormed where
  header := Header.valid_iff_validate.mpr rfl
  index_le := by decide
  publicSeed := rfl
  secretSeed := rfl
  secretPrf := rfl
  root := rfl
  backupRoot := by
    rintro root hroot
    obtain rfl := Option.some.inj hroot
    rfl
  backup_isSome := rfl
  nonces := rfl
  caches := Caches.all_empty

theorem key_restored_spentKey :
    { spentKey with caches := .empty }.WellFormed ∧
    Respaced (write Suite.standard spentKey) (loose (lines Suite.standard spentKey)) ∧
    read Suite.standard (write Suite.standard spentKey) = .ok { spentKey with caches := .empty } ∧
    read Suite.standard (loose (lines Suite.standard spentKey)) =
      .ok { spentKey with caches := .empty } := by
  obtain ⟨hread, hspaced⟩ := key_restored Suite.standard wellFormed_spentKey
  have hloose : Respaced (write Suite.standard spentKey) (loose (lines Suite.standard spentKey)) :=
    respaced_loose fun line hline => (clean_lines Suite.standard wellFormed_spentKey line hline).2
  exact ⟨wellFormed_spentKey, hloose, hread, hspaced _ hloose⟩

end Hypertree.Backup
