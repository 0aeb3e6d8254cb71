import Hypertree.Proofs.OneTime.Chain
import Hypertree.Proofs.Params

/-!
# What one-time signing and recovery come to

Under valid parameters there are two cases. Seeds that support a leaf sign every message of the size
of a digest, and the signature leads back to the public key, so it verifies. Otherwise the cause is
reported: `seedFault` names the first seed that is absent or too long or too short, then the absent
nonce, and signing looks at the size of the message before it looks for the nonce
(`publicKey_error`, `sign_error`, `sign_error_of_message`). Recovery reports nothing; it has no
result for sizes that do not fit.

`sign_recover` puts the cases together.
-/

namespace Hypertree

/-- Valid parameters make valid one-time keys under every digest. -/
theorem Setting.valid_oneTime {s : Setting} (hv : s.params.validate = .ok ()) : s.oneTime.Valid :=
  Winternitz.valid_of_size s.digest ((Params.validate_eq_ok_iff _).mp hv).2.1

namespace OneTime

/-! ### Seeds that support no leaf -/

/-- Why a seed of another size than the digest is refused. -/
def seedFault (n : Nat) (seed : Bytes) (material : Material) (field : Field) : Error :=
  if seed = [] then .missingKeyMaterial material else .invalidLength field n seed.length

/-- Why there is no one-time key for a leaf. -/
def leafFault (s : Setting) (seeds : Seeds) : Error :=
  if seeds.secretSeed.length ≠ s.n then seedFault s.n seeds.secretSeed .secretSeed .secretSeed
  else if seeds.publicSeed.length ≠ s.n then
    seedFault s.n seeds.publicSeed .publicSeed .publicSeed
  else .missingKeyMaterial .leafNonce

/-- Both seeds have the size of a digest. -/
def SeedsSized (s : Setting) (seeds : Seeds) : Prop :=
  seeds.secretSeed.length = s.n ∧ seeds.publicSeed.length = s.n

instance (s : Setting) (seeds : Seeds) : Decidable (SeedsSized s seeds) :=
  inferInstanceAs (Decidable (_ ∧ _))

theorem supports_iff {s : Setting} {seeds : Seeds} {leaf : Nat} :
    Supports s seeds leaf ↔ SeedsSized s seeds ∧ leaf < seeds.nonces.size := by
  constructor
  · intro h
    exact ⟨⟨h.secretSeed, h.publicSeed⟩, h.nonce⟩
  · rintro ⟨⟨hsecret, hpublic⟩, hleaf⟩
    exact ⟨hpublic, hsecret, hleaf⟩

theorem checkSeed_error {n : Nat} {seed : Bytes} (h : seed.length ≠ n) (material : Material)
    (field : Field) :
    checkSeed n seed material field = .error (seedFault n seed material field) := by
  cases seed with
  | nil => rfl
  | cons x rest =>
    unfold checkSeed seedFault
    rw [if_neg h, if_neg (List.cons_ne_nil x rest)]
    rfl

section

variable {s : Setting} {seeds : Seeds} {leaf : Nat}

theorem checkSeeds_ok (h : SeedsSized s seeds) : checkSeeds s seeds = .ok () := by
  unfold checkSeeds
  rw [checkSeed_eq s.n_pos h.1, checkSeed_eq s.n_pos h.2]
  rfl

theorem checkSeeds_error (h : ¬ SeedsSized s seeds) :
    checkSeeds s seeds = .error (leafFault s seeds) := by
  unfold checkSeeds leafFault
  by_cases hsecret : seeds.secretSeed.length = s.n
  · have hpublic : seeds.publicSeed.length ≠ s.n := fun hpublic => h ⟨hsecret, hpublic⟩
    rw [checkSeed_eq s.n_pos hsecret, checkSeed_error hpublic, if_neg (not_not.mpr hsecret),
      if_pos hpublic]
    rfl
  · rw [checkSeed_error hsecret, if_pos hsecret]
    rfl

/-- With seeds of the right sizes, what a leaf can lack is its nonce. -/
theorem leafFault_of_sized (h : SeedsSized s seeds) :
    leafFault s seeds = .missingKeyMaterial .leafNonce := by
  unfold leafFault
  rw [if_neg (not_not.mpr h.1), if_neg (not_not.mpr h.2)]

theorem chainFromSecret_error (hleaf : seeds.nonces.size ≤ leaf) (base : Address) (i steps : Nat) :
    chainFromSecret s seeds base leaf i steps = .error (.missingKeyMaterial .leafNonce) := by
  have hnone : seeds.nonces.get? leaf = none := Array.getElem?_eq_none hleaf
  simp only [chainFromSecret, hnone]
  rfl

theorem chains_pos (s : Setting) : 0 < s.oneTime.chains := by
  unfold Winternitz.chains Winternitz.checksumDigits
  exact Nat.succ_pos _

/-- Without a nonce, no chain of a leaf has a start. -/
theorem mapPieces_chainFromSecret_error (hleaf : seeds.nonces.size ≤ leaf) (base : Address)
    (steps : Nat → Nat) :
    Schedule.mapPieces s.n (fun i _ => chainFromSecret s seeds base leaf i (steps i))
      (Bytes.zeros s.oneTime.signatureBytes) = .error (.missingKeyMaterial .leafNonce) := by
  apply Schedule.mapPieces_error s.n_pos (chains_pos s) _ (length_zeros_signatureBytes s)
  intro i _
  exact chainFromSecret_error hleaf base i (steps i)

/-- **No public key** for a leaf that the seeds do not support. -/
theorem publicKey_error (h : ¬ Supports s seeds leaf) (layer tree : Nat) :
    publicKey s seeds layer tree leaf = .error (leafFault s seeds) := by
  by_cases hsized : SeedsSized s seeds
  · have hleaf : seeds.nonces.size ≤ leaf :=
      Nat.le_of_not_lt fun hlt => h (supports_iff.mpr ⟨hsized, hlt⟩)
    rw [leafFault_of_sized hsized]
    simp only [publicKey, checkSeeds_ok hsized, bind, Except.bind]
    exact mapPieces_chainFromSecret_error hleaf _ fun _ => s.oneTime.w - 1
  · simp only [publicKey, checkSeeds_error hsized, bind, Except.bind]

/-- **No signature** with the key of a leaf that the seeds do not support. -/
theorem sign_error (h : ¬ Supports s seeds leaf) (layer tree : Nat) {message : Bytes}
    (hm : message.length = s.n) :
    sign s seeds layer tree leaf message = .error (leafFault s seeds) := by
  have hm' : message.length = s.oneTime.n := hm
  by_cases hsized : SeedsSized s seeds
  · have hleaf : seeds.nonces.size ≤ leaf :=
      Nat.le_of_not_lt fun hlt => h (supports_iff.mpr ⟨hsized, hlt⟩)
    rw [leafFault_of_sized hsized]
    simp only [sign, checkSeeds_ok hsized, hm', bind, Except.bind, if_true, getD_toArray_digits]
    exact mapPieces_chainFromSecret_error hleaf _ (digit s message)
  · simp only [sign, checkSeeds_error hsized, bind, Except.bind]

/-! ### Messages and signatures of other sizes -/

/-- **No signature** of a message that is not as long as a digest. -/
theorem sign_error_of_message (layer tree : Nat) {message : Bytes} (hm : message.length ≠ s.n) :
    sign s seeds layer tree leaf message
      = .error (if SeedsSized s seeds then .invalidLength .messageDigest s.n message.length
          else leafFault s seeds) := by
  have hm' : ¬ message.length = s.oneTime.n := hm
  by_cases hsized : SeedsSized s seeds
  · rw [if_pos hsized]
    simp only [sign, checkSeeds_ok hsized, if_neg hm', bind, Except.bind]
    rfl
  · rw [if_neg hsized]
    simp only [sign, checkSeeds_error hsized, bind, Except.bind]

/-- Recovery has no result for sizes that do not fit. -/
theorem recover_none (publicSeed : Bytes) (layer tree leaf : Nat) {signature message : Bytes}
    (h : ¬ (signature.length = s.oneTime.signatureBytes ∧ message.length = s.n)) :
    recover s signature message publicSeed layer tree leaf = .ok none :=
  if_neg h

end

/-! ### Both together -/

/-- **A one-time signature leads back to its public key, and everything else is refused.** The cases
are: seeds that support the leaf and a message of the size of a digest; seeds that do not support
the leaf; a message of another size; sizes for which recovery has no result. -/
theorem sign_recover {s : Setting} (hv : s.params.validate = .ok ()) (seeds : Seeds)
    (layer tree leaf : Nat) :
    (Supports s seeds leaf → ∀ message : Bytes, message.length = s.n →
      ∃ signature key, sign s seeds layer tree leaf message = .ok signature ∧
        signature.length = s.oneTime.chains * s.n ∧
        publicKey s seeds layer tree leaf = .ok key ∧
        recover s signature message seeds.publicSeed layer tree leaf = .ok (some key) ∧
        verify s signature message key seeds.publicSeed layer tree leaf = .ok true) ∧
    (¬ Supports s seeds leaf →
      publicKey s seeds layer tree leaf = .error (leafFault s seeds) ∧
        ∀ message : Bytes, message.length = s.n →
          sign s seeds layer tree leaf message = .error (leafFault s seeds)) ∧
    (∀ message : Bytes, message.length ≠ s.n →
      sign s seeds layer tree leaf message
        = .error (if SeedsSized s seeds then .invalidLength .messageDigest s.n message.length
            else leafFault s seeds)) ∧
    ∀ signature message publicSeed key : Bytes,
      ¬ (signature.length = s.oneTime.chains * s.n ∧ message.length = s.n) →
        recover s signature message publicSeed layer tree leaf = .ok none ∧
          verify s signature message key publicSeed layer tree leaf = .ok false := by
  have hp : s.oneTime.Valid := Setting.valid_oneTime hv
  refine ⟨?_, ?_, ?_, ?_⟩
  · -- the signer's steps and the verifier's add up to whole chains
    intro h message hm
    have hsize : (signatureNodes s seeds layer tree leaf message).flatten.length
        = s.oneTime.signatureBytes := length_flatten_signatureNodes layer tree message
    have hrecover : recover s (signatureNodes s seeds layer tree leaf message).flatten message
        seeds.publicSeed layer tree leaf
        = .ok (some (publicNodes s seeds layer tree leaf).flatten) := by
      rw [recover_eq hp seeds.publicSeed layer tree leaf hsize hm, nodesOf_signatureNodes,
        recoveredNodes_signatureNodes hp]
    refine ⟨_, _, sign_eq h hp layer tree hm, hsize, publicKey_eq h layer tree, hrecover, ?_⟩
    unfold verify
    rw [hrecover]
    show Except.ok _ = _
    rw [beq_self_eq_true]
  · -- without seeds or a nonce there is neither a key nor a signature
    intro h
    refine ⟨publicKey_error h layer tree, ?_⟩
    intro message hm
    exact sign_error h layer tree hm
  · intro message hm
    exact sign_error_of_message layer tree hm
  · -- verification compares what recovery returns, and here it returns nothing
    intro signature message publicSeed key hsizes
    have hnone := recover_none publicSeed layer tree leaf hsizes
    refine ⟨hnone, ?_⟩
    unfold verify
    rw [hnone]
    rfl

/-- The published hash functions and the default parameters. -/
def plain : Setting :=
  ⟨.standard, .sha256, {}⟩

/-- Seeds of zeros, with a nonce pair of zeros for each of some leaves. -/
def zeroSeeds (leaves : Nat) : Seeds :=
  ⟨Bytes.zeros 32, Bytes.zeros 32, ⟨Array.replicate leaves ⟨0, 0⟩⟩⟩

/-- With nonces for two leaves, leaf `1` has a key and signs, and leaf `2` has none. -/
theorem sign_recover_zeroSeeds :
    (∃ signature key, sign plain (zeroSeeds 2) 0 0 1 (Bytes.zeros 32) = .ok signature ∧
      signature.length = 67 * 32 ∧ publicKey plain (zeroSeeds 2) 0 0 1 = .ok key ∧
      recover plain signature (Bytes.zeros 32) (Bytes.zeros 32) 0 0 1 = .ok (some key) ∧
      verify plain signature (Bytes.zeros 32) key (Bytes.zeros 32) 0 0 1 = .ok true) ∧
    publicKey plain (zeroSeeds 2) 0 0 2 = .error (.missingKeyMaterial .leafNonce) ∧
    sign plain (zeroSeeds 2) 0 0 1 [] = .error (.invalidLength .messageDigest 32 0) ∧
    recover plain [] (Bytes.zeros 32) (Bytes.zeros 32) 0 0 1 = .ok none := by
  have hv : plain.params.validate = .ok () := rfl
  have hsupports : Supports plain (zeroSeeds 2) 1 := ⟨rfl, rfl, by decide⟩
  have hlack : ¬ Supports plain (zeroSeeds 2) 2 := fun h => absurd h.nonce (by decide)
  refine ⟨?_, ?_, ?_, ?_⟩
  · exact (sign_recover hv (zeroSeeds 2) 0 0 1).1 hsupports (Bytes.zeros 32) rfl
  · exact ((sign_recover hv (zeroSeeds 2) 0 0 2).2.1 hlack).1
  · exact (sign_recover hv (zeroSeeds 2) 0 0 1).2.2.1 [] (by decide)
  · exact ((sign_recover hv (zeroSeeds 2) 0 0 1).2.2.2 [] (Bytes.zeros 32) (Bytes.zeros 32) []
      (by decide)).1

end OneTime

end Hypertree
