import Hypertree.Proofs.Engine.Verify
import Hypertree.Proofs.Signature.Canonical

/-!
# Verification of encoded signatures

Verification is offered on values and on their encodings. `Engine.verifyBytes_eq_ok_iff`: on strings
it has the answer that it has on the signature and the public key that they encode, and it has none
on other strings.

A public key is written without a mark for its optional part: an absent backup root is zeros. So
every string of three digests is a public key (`PublicKey.isOk_ofBytes_iff`), but not every public
key with parts of that size is read back. `PublicKey.Sized.ofBytes_toBytes` says what becomes of
those that are not: their backup root is zeros, and they lose it.
-/

namespace Hypertree

namespace PublicKey

/-- The parts of a public key have the size of a digest. -/
structure Sized (key : PublicKey) (digest : Digest) : Prop where
  root : key.root.length = digest.size
  backupRoot : ∀ root, key.backupRoot = some root → root.length = digest.size
  publicSeed : key.publicSeed.length = digest.size

variable {key : PublicKey} {digest : Digest} {bytes : Bytes}

/-- Of the backup roots of one size, zeros are the one that is not kept. -/
theorem filter_isZero {n : Nat} {backupRoot : Option Bytes}
    (h : ∀ root, backupRoot = some root → root.length = n) :
    (backupRoot.filter fun root => !Bytes.isZero root)
      = if backupRoot = some (Bytes.zeros n) then none else backupRoot := by
  cases backupRoot with
  | none => rfl
  | some root =>
    obtain rfl := h root rfl
    -- being zero and being the zero value of this size are the same test
    by_cases hzero : Bytes.isZero root = true
    · rw [if_pos (congrArg some (Bytes.eq_zeros_of_isZero hzero))]
      simp [Option.filter, hzero]
    · have hne : some root ≠ some (Bytes.zeros root.length) := by
        intro heq
        apply hzero
        rw [Option.some.inj heq]
        simp [Bytes.isZero, Bytes.zeros]
      rw [if_neg hne]
      simp [Option.filter, hzero]

/-- **What is read back** from the encoding of a public key. -/
theorem Sized.ofBytes_toBytes (h : key.Sized digest) : ofBytes key.toBytes digest
    = .ok (if key.backupRoot = some (Bytes.zeros digest.size) then { key with backupRoot := none }
        else key) := by
  rw [PublicKey.ofBytes_toBytes digest h.root h.backupRoot h.publicSeed,
    filter_isZero h.backupRoot]
  split_ifs <;> rfl

/-- **The strings that are public keys** are those of the length of three digests. -/
theorem isOk_ofBytes_iff :
    (∃ key, ofBytes bytes digest = .ok key) ↔ bytes.length = 3 * digest.size := by
  simp only [ofBytes]
  by_cases hlength : bytes.length = 3 * digest.size
  · rw [if_pos hlength]
    exact iff_of_true ⟨_, rfl⟩ hlength
  · rw [if_neg hlength]
    exact iff_of_false (by simp) hlength

/-- What was read from a string. -/
theorem of_ofBytes (h : ofBytes bytes digest = .ok key) :
    key.Sized digest ∧ key.backupRoot ≠ some (Bytes.zeros digest.size) ∧ key.toBytes = bytes := by
  have hlength := isOk_ofBytes_iff.mp ⟨key, h⟩
  simp only [ofBytes, if_pos hlength] at h
  obtain rfl := Except.ok.inj h
  set n := digest.size with hn
  have hroot : (bytes.take n).length = n := by
    rw [List.length_take]
    omega
  have hmiddle : ((bytes.drop n).take n).length = n := by
    rw [List.length_take, List.length_drop]
    omega
  have hseed : (bytes.drop (2 * n)).length = n := by
    rw [List.length_drop]
    omega
  have hcut : bytes.take n ++ ((bytes.drop n).take n ++ bytes.drop (2 * n)) = bytes := by
    rw [two_mul, ← List.drop_drop, List.take_append_drop, List.take_append_drop]
  by_cases hzero : Bytes.isZero ((bytes.drop n).take n) = true
  · rw [if_pos hzero]
    have hzeros := Bytes.eq_zeros_of_isZero hzero
    rw [hmiddle] at hzeros
    refine ⟨⟨hroot, by simp, hseed⟩, by simp, ?_⟩
    -- the absent root is written as the zeros that stood there
    rw [toBytes, Option.getD_none, hroot, ← hzeros, hcut]
  · rw [if_neg hzero]
    refine ⟨⟨hroot, ?_, hseed⟩, ?_, hcut⟩
    · rintro root ⟨⟩
      exact hmiddle
    · intro heq
      apply hzero
      rw [Option.some.inj heq]
      simp [Bytes.isZero, Bytes.zeros]

/-- They are the encodings of the public keys with parts of the right size and without zeros for a
backup root. -/
theorem ofBytes_eq_ok_iff : ofBytes bytes digest = .ok key ↔
    key.Sized digest ∧ key.backupRoot ≠ some (Bytes.zeros digest.size) ∧ key.toBytes = bytes := by
  constructor
  · exact of_ofBytes
  · rintro ⟨hsized, hzero, rfl⟩
    rw [hsized.ofBytes_toBytes, if_neg hzero]

/-- A public key is not restored exactly if its backup root is zeros. -/
theorem Sized.ofBytes_ne_iff (h : key.Sized digest) :
    ofBytes key.toBytes digest ≠ .ok key ↔ key.backupRoot = some (Bytes.zeros digest.size) := by
  rw [Ne, ofBytes_eq_ok_iff, not_iff_comm]
  exact ⟨fun hzero => ⟨h, hzero, rfl⟩, fun hback => hback.2.1⟩

end PublicKey

/-- The public key of a well-formed key has parts of that size. -/
theorem PrivateKey.WellFormed.sized {key : PrivateKey} (h : key.WellFormed) :
    key.publicKey.Sized key.header.digest :=
  ⟨h.root, h.backupRoot, h.publicSeed⟩

namespace Engine

variable {e : Engine} {message : Bytes} {answer : Bool}

/-- Verification of values does not fail. -/
theorem exists_verify_eq (e : Engine) (signature : Signature) (message : Bytes) (key : PublicKey) :
    ∃ answer, e.verify signature message key = .ok answer := by
  cases hs : e.setting? signature.selector with
  | none => exact ⟨false, verify_of_none (Or.inl hs) message⟩
  | some s =>
    cases hroot : verificationRoot key signature.selector with
    | none => exact ⟨false, verify_of_none (Or.inr hroot) message⟩
    | some root => exact ⟨_, verify_eq hs hroot message⟩

/-- **What verification answers on strings**: they are encodings, and it is the answer on what they
encode. -/
theorem verifyBytes_eq_ok_iff {signature key : Bytes} :
    e.verifyBytes signature message key = .ok answer ↔
      ∃ (s : Signature) (pk : PublicKey), s.Encodable e.params.n e.params.treeHeight ∧
        pk.Sized e.params.digest ∧ pk.backupRoot ≠ some (Bytes.zeros e.params.n) ∧
        signature = s.toBytes ∧ key = pk.toBytes ∧ e.verify s message pk = .ok answer := by
  constructor
  · intro h
    obtain ⟨pk, hpk, h⟩ := bind_eq_ok_iff.mp h
    obtain ⟨s, hs, hanswer⟩ := bind_eq_ok_iff.mp h
    obtain ⟨hsized, hzero, hkey⟩ := PublicKey.ofBytes_eq_ok_iff.mp hpk
    obtain ⟨hencodable, hsignature⟩ := Signature.ofBytes_eq_ok_iff.mp hs
    exact ⟨s, pk, hencodable, hsized, hzero, hsignature, hkey.symm, hanswer⟩
  · rintro ⟨s, pk, hencodable, hsized, hzero, rfl, rfl, hanswer⟩
    have hpk := PublicKey.ofBytes_eq_ok_iff.mpr ⟨hsized, hzero, rfl⟩
    have hs := Signature.ofBytes_eq_ok_iff.mpr ⟨hencodable, rfl⟩
    exact bind_eq_ok_iff.mpr ⟨pk, hpk, bind_eq_ok_iff.mpr ⟨s, hs, hanswer⟩⟩

/-- **Verification agrees on values and on their encodings.** A signature is any whose fields fit
into the encoding: randomizers of a digest, paths of a tree, at most 255 layers with numbers up to
255, one-time signatures of any length; the other bounds of `Signature.Encodable` are those of 64-bit
indices and lengths and of 32-bit leaves. Of public keys, every string of three digests is one and
is written again as it was; the ones that are not restored are those whose backup root is zeros,
which lose it. -/
theorem verify_encoded (e : Engine) :
    (∀ (signature : Signature) (message : Bytes) (key : PublicKey),
      signature.Encodable e.params.n e.params.treeHeight → key.Sized e.params.digest →
      key.backupRoot ≠ some (Bytes.zeros e.params.n) →
      ∃ answer, e.verify signature message key = .ok answer ∧
        e.verifyBytes signature.toBytes message key.toBytes = .ok answer) ∧
    ∀ digest : Digest,
      (∀ bytes, (∃ key, PublicKey.ofBytes bytes digest = .ok key) ↔
        bytes.length = 3 * digest.size) ∧
      (∀ bytes key, PublicKey.ofBytes bytes digest = .ok key → key.toBytes = bytes) ∧
      ∀ key : PublicKey, key.Sized digest →
        (PublicKey.ofBytes key.toBytes digest ≠ .ok key ↔
          key.backupRoot = some (Bytes.zeros digest.size)) ∧
        (key.backupRoot = some (Bytes.zeros digest.size) →
          PublicKey.ofBytes key.toBytes digest = .ok { key with backupRoot := none }) := by
  refine ⟨?_, fun digest => ⟨?_, ?_, ?_⟩⟩
  · -- both parts are read back as they were written, so the answers are of the same values
    intro signature message key hsignature hkey hzero
    obtain ⟨answer, hanswer⟩ := e.exists_verify_eq signature message key
    exact ⟨answer, hanswer,
      verifyBytes_eq_ok_iff.mpr ⟨signature, key, hsignature, hkey, hzero, rfl, rfl, hanswer⟩⟩
  · intro bytes
    exact PublicKey.isOk_ofBytes_iff
  · intro bytes key h
    exact (PublicKey.of_ofBytes h).2.2
  · intro key hkey
    -- a zero second root reads as no root, and nothing else is lost
    refine ⟨hkey.ofBytes_ne_iff, fun hzero => ?_⟩
    rw [hkey.ofBytes_toBytes, if_pos hzero]

/-- A signature and a public key of `Engine.small` without a backup root, and the same key with
zeros in its place. -/
theorem verify_encoded_small : ∃ (signature : Signature) (key : PublicKey),
    small.verify signature [0] key = .ok true ∧
    small.verifyBytes signature.toBytes [0] key.toBytes = .ok true ∧
    PublicKey.ofBytes { key with backupRoot := some (Bytes.zeros 32) }.toBytes .sha256 = .ok key := by
  obtain ⟨key, -, -, -, -, hkey, hrooted⟩ := generateFromSeeds_eq seedsFit_small
  have hindex : 0 < key.header.maxSignatures := Nat.two_pow_pos _
  have hprimary : small.setting? .primary = some small.primary := rfl
  have href := small.reference?_eq hprimary (hrooted .primary) 0 [0]
  set pk : PublicKey := ⟨key.root, none, key.publicSeed⟩ with hpk
  have htrue : small.verify _ [0] pk = .ok true :=
    verify_of_reference? hkey hrooted hindex href rfl rfl
  have hroot : key.root.length = 32 := hkey.wellFormed.root.trans hkey.n_eq
  have hseed : key.publicSeed.length = 32 := hkey.wellFormed.publicSeed.trans hkey.n_eq
  obtain ⟨hverify, hpublic⟩ := verify_encoded small
  obtain ⟨answer, hvalue, hbytes⟩ := hverify _ [0] pk (encodable_reference hkey hindex href)
    ⟨hroot, by simp [hpk], hseed⟩ (by simp [hpk])
  obtain ⟨-, -, hrestored⟩ := hpublic .sha256
  obtain ⟨-, hlost⟩ := hrestored { pk with backupRoot := some (Bytes.zeros 32) }
    ⟨hroot, by rintro root ⟨⟩; rfl, hseed⟩
  rw [htrue] at hvalue
  obtain rfl := Except.ok.inj hvalue
  exact ⟨_, pk, htrue, hbytes, hlost rfl⟩

end Engine

end Hypertree
