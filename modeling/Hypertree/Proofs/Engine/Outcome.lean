import Hypertree.Proofs.Engine.Verify
import Hypertree.Proofs.Key.Backup

/-!
# What signing comes to

Keys come from seeds, from bytes or from text backups, and may hold anything of the right size in
their caches. All of them are well formed, and every operation keeps them so. A well-formed key is
enough for signing to end in one of four ways, each under its own condition (`sign_cases`): the
engine is one for other keys, all indices are used, the second digest was asked for and there is
none, or there is a signature. Sizes are all that could go wrong below, and they are kept by the
nodes of every tree (`Tree.IsSized`).
-/

namespace Hypertree

/-! ### The parts of a signature -/

/-- Layers that were signed are in place and have the right sizes. -/
theorem SignedLayers.fitsLayer {V : NodeProperty} (hV : ∀ t : Tree, t.Hereditary (V t))
    {s : Setting} {seeds : Seeds} {index : Nat} {r : Bytes} {signatures : List TreeSignature} :
    ∀ {layer : Nat} {message : Bytes}, SignedLayers V s seeds index r layer message signatures →
      ∀ (i : Nat) (hi : i < signatures.length),
        signatures[i].FitsLayer s index r (layer + i) := by
  induction signatures with
  | nil => exact fun _ i hi => absurd hi (Nat.not_lt_zero i)
  | cons signature rest ih =>
    rintro layer message ⟨path, root, hpath, rfl, -, hrest⟩ i hi
    obtain ⟨hauth, -, hots⟩ := fitsTree_sign (hV _) (s.leafAt_lt index layer) message hpath
    -- the first layer is this one, the others are those of the rest
    cases i with
    | zero => exact ⟨rfl, rfl, rfl, hauth, hots⟩
    | succ i =>
      have hi' : i < rest.length := Nat.lt_of_succ_lt_succ hi
      have hfits := ih hrest i hi'
      rw [Nat.succ_add_eq_add_succ] at hfits
      exact hfits

namespace Engine

/-- A signature has the form that the engine asks for: it is at an index under a selector, with one
layer for each tree on the way to the root, in place and of the right sizes. -/
def Shapes (e : Engine) (selector : Selector) (index : Nat) (signature : Signature) : Prop :=
  signature.selector = selector ∧ signature.index = index ∧
    signature.layers.length = e.params.layers ∧
    ∃ s, e.setting? selector = some s ∧ signature.r.length = s.n ∧
      ∀ (i : Nat) (hi : i < signature.layers.length),
        signature.layers[i].FitsLayer s index signature.r i

variable {e : Engine} {key : PrivateKey} {V : NodeProperty}

theorem Signs.shapes (hV : ∀ t : Tree, t.Hereditary (V t)) {selector : Selector} {index : Nat}
    {message : Bytes} {signature : Signature}
    (h : e.Signs V key selector index message signature) : e.Shapes selector index signature := by
  obtain ⟨s, root, hs, -, hselector, hindex, hr, hlength, hlayers⟩ := h
  refine ⟨hselector, hindex, hlength, s, hs, ?_, ?_⟩
  · rw [hr]
    exact Setting.length_prfIndex ..
  · intro i hi
    have hfits := hlayers.fitsLayer hV i hi
    rwa [Nat.zero_add] at hfits

/-! ### Keys of other engines -/

theorem checkKey_cases (e : Engine) (key : PrivateKey) :
    e.checkKey key = .ok () ∨ ∃ part, e.checkKey key = .error (.parameterMismatch part) := by
  unfold checkKey
  split_ifs
  · exact Or.inl rfl
  all_goals exact Or.inr ⟨_, rfl⟩

/-- The nonces of a well-formed key are as many as its geometry asks for, so they make no
difference. -/
theorem checkKey_eq_ok_iff_matches (h : key.WellFormed) :
    e.checkKey key = .ok () ↔ key.Matches e := by
  constructor
  · intro hcheck
    obtain ⟨hheight, hlayers, hdigest, hbackup, -⟩ := e.checkKey_eq_ok_iff.mp hcheck
    exact ⟨hheight, hlayers, hdigest, hbackup⟩
  · intro hmatches
    exact PrivateKey.MadeFor.checkKey ⟨hmatches, h⟩

theorem checkKey_of_not_matches (h : key.WellFormed) (hne : ¬ key.Matches e) :
    ∃ part, e.checkKey key = .error (.parameterMismatch part) :=
  (e.checkKey_cases key).resolve_left fun hok => hne ((checkKey_eq_ok_iff_matches h).mp hok)

/-! ### Keys of the engine -/

/-- A key has everything to sign with, unless the second digest is asked for and there is none. -/
theorem signingRoot_eq (h : key.MadeFor e) (selector : Selector) :
    (selector = .backup ∧ key.header.backupDigest = none ∧
        e.signingRoot key selector = .error (.missingKeyMaterial .backupHash)) ∨
      (¬ (selector = .backup ∧ key.header.backupDigest = none) ∧
        ∃ p, e.signingRoot key selector = .ok p) := by
  cases selector with
  | primary => exact Or.inr ⟨by simp, _, rfl⟩
  | backup =>
    have hbackup := h.backupDigest
    cases hdigest : key.header.backupDigest with
    | none =>
      rw [hdigest] at hbackup
      refine Or.inl ⟨rfl, rfl, ?_⟩
      simp only [signingRoot, backup?, ← hbackup, Option.map_none]
    -- a well-formed key with a second digest has a root under it
    | some d =>
      have hsome := h.wellFormed.backup_isSome
      rw [hdigest, Option.isSome_some] at hsome
      obtain ⟨root, hroot⟩ := Option.isSome_iff_exists.mp hsome
      rw [hdigest] at hbackup
      refine Or.inr ⟨by simp, (⟨e.suite, d, e.params⟩, root), ?_⟩
      simp only [signingRoot, backup?, ← hbackup, hroot, Option.map_some]

/-- Signing with a committed index of the key comes to a signature, or the key lacks what the
selector asks for. -/
theorem signCommitted_outcome_cases (h : key.MadeFor e) {committed : CommittedIndex}
    (hcommitted : key.checkCommitted committed = .ok ()) (message : Bytes) (selector : Selector) :
    (selector = .backup ∧ key.header.backupDigest = none ∧
        e.signCommitted key committed message selector
          = (.error (.missingKeyMaterial .backupHash), key)) ∨
      (¬ (selector = .backup ∧ key.header.backupDigest = none) ∧
        ∃ signature caches, e.signCommitted key committed message selector
            = (.ok signature, { key with caches }) ∧
          caches.InRange key.header ∧ e.Shapes selector committed.index signature) := by
  -- the key and the index are accepted, so only the root may be missing
  have hprepare : e.prepare key committed selector = e.signingRoot key selector := by
    rw [prepare, h.checkKey, hcommitted]
    rfl
  refine (signingRoot_eq h selector).imp ?_ ?_
  · rintro ⟨hselector, hnone, herror⟩
    refine ⟨hselector, hnone, ?_⟩
    rw [Engine.signCommitted, hprepare, herror]
  · rintro ⟨hpresent, p, hp⟩
    refine ⟨hpresent, ?_⟩
    obtain ⟨err, herror, -⟩ | ⟨_, signature, caches, -, hsigns, hout, hrange, -⟩ :=
      signCommitted_cases h Tree.hereditary_isSized h.holds_isSized committed message selector
    · rw [hprepare, hp] at herror
      cases herror
    · exact ⟨signature, caches, hout, hrange, hsigns.shapes Tree.hereditary_isSized⟩

/-- **The four outcomes of signing** with a well-formed key. -/
theorem sign_cases (h : key.WellFormed) (message : Bytes) (selector : Selector) :
    (¬ key.Matches e ∧
      ∃ part, e.sign key message selector = (.error (.parameterMismatch part), key)) ∨
    (key.Matches e ∧ key.index = key.header.maxSignatures ∧
      e.sign key message selector = (.error (.keysExhausted key.header.maxSignatures), key)) ∨
    (key.Matches e ∧ key.index < key.header.maxSignatures ∧
      (selector = .backup ∧ key.header.backupDigest = none) ∧
      e.sign key message selector
        = (.error (.missingKeyMaterial .backupHash), { key with index := key.index + 1 })) ∨
    (key.Matches e ∧ key.index < key.header.maxSignatures ∧
      ¬ (selector = .backup ∧ key.header.backupDigest = none) ∧
      ∃ signature caches, e.sign key message selector
          = (.ok signature, { key with index := key.index + 1, caches }) ∧
        caches.InRange key.header ∧ e.Shapes selector key.index signature) := by
  -- the key is compared with the engine, an index is taken, and then the root is looked up
  by_cases hmatches : key.Matches e
  · have hkey : key.MadeFor e := ⟨hmatches, h⟩
    refine Or.inr ?_
    rcases Nat.lt_or_eq_of_le h.index_le with hindex | hindex
    · refine Or.inr ?_
      rw [sign_eq hkey, if_pos hindex]
      refine (signCommitted_outcome_cases (hkey.advance hindex) (checkCommitted_next key) message
        selector).imp ?_ ?_
      · rintro ⟨hselector, hnone, hout⟩
        exact ⟨hmatches, hindex, ⟨hselector, hnone⟩, hout⟩
      · rintro ⟨hpresent, signature, caches, hout, hrange, hshapes⟩
        exact ⟨hmatches, hindex, hpresent, signature, caches, hout, hrange, hshapes⟩
    · refine Or.inl ⟨hmatches, hindex, ?_⟩
      rw [sign_eq hkey, if_neg hindex.not_lt]
  · obtain ⟨part, hcheck⟩ := checkKey_of_not_matches h hmatches
    refine Or.inl ⟨hmatches, part, ?_⟩
    rw [sign, hcheck]

end Engine

/-! ### Well-formed keys stay well formed -/

namespace PrivateKey.WellFormed

variable {key : PrivateKey}

/-- Taking the next index leaves a well-formed key. -/
theorem reserve (h : key.WellFormed) {r : Reservation} {key' : PrivateKey}
    (hreserve : key.reserve = .ok (r, key')) : key'.WellFormed := by
  obtain ⟨hindex, -, rfl⟩ := reserve_eq_ok_iff.mp hreserve
  exact h.update hindex h.caches

/-- Signing with a committed index leaves a well-formed key, under any engine. -/
theorem signCommitted (h : key.WellFormed) (e : Engine) (committed : CommittedIndex)
    (message : Bytes) (selector : Selector) :
    (e.signCommitted key committed message selector).2.WellFormed := by
  by_cases hmatches : key.Matches e
  · have hkey : key.MadeFor e := ⟨hmatches, h⟩
    obtain ⟨err, -, hout⟩ | ⟨_, signature, caches, -, -, hout, hrange, -⟩ :=
      Engine.signCommitted_cases hkey Tree.hereditary_isSized hkey.holds_isSized committed message
        selector
    · rw [hout]
      exact h
    · rw [hout]
      exact h.update h.index_le hrange
  · obtain ⟨part, hcheck⟩ := Engine.checkKey_of_not_matches h hmatches
    rw [Engine.signCommitted, Engine.prepare, hcheck]
    exact h

/-- Signing leaves a well-formed key, under any engine. -/
theorem sign (h : key.WellFormed) (e : Engine) (message : Bytes) (selector : Selector) :
    (e.sign key message selector).2.WellFormed := by
  obtain ⟨-, part, hout⟩ | ⟨-, -, hout⟩ | ⟨-, hindex, -, hout⟩ |
    ⟨-, hindex, -, signature, caches, hout, hrange, -⟩ := Engine.sign_cases (e := e) h message
      selector
  · rw [hout]
    exact h
  · rw [hout]
    exact h
  · rw [hout]
    exact h.update hindex h.caches
  · rw [hout]
    exact h.update hindex hrange

end PrivateKey.WellFormed

namespace Engine

/-- **Signing on every usable key.** Keys from seeds, from bytes and from text backups are well
formed, and every operation on a key keeps it so. With a well-formed key, signing

* refuses it, unchanged, if and only if its geometry or its digests are not the engine's;
* or else says that it is used up, and leaves it unchanged, if and only if all indices are used;
* or else spends an index for nothing if and only if the second digest is asked for and the key has
  none;
* or else returns a signature at the next index, and changes nothing of the key but the next index
  and the caches.
-/
theorem usable_key_outcomes (e : Engine) :
    (∀ publicSeed secretSeed secretPrf nonces key publicKey,
      e.generateFromSeeds publicSeed secretSeed secretPrf nonces = .ok (key, publicKey) →
      key.WellFormed) ∧
    (∀ bytes key, PrivateKey.ofBytes bytes = .ok key → key.WellFormed) ∧
    (∀ suite text key, Backup.read suite text = .ok key → key.WellFormed) ∧
    ∀ key : PrivateKey, key.WellFormed →
      (∀ r key', key.reserve = .ok (r, key') → key'.WellFormed) ∧
      (e.evict key).2.WellFormed ∧
      (∀ committed message selector,
        (e.signCommitted key committed message selector).2.WellFormed) ∧
      ∀ message selector,
        (e.sign key message selector).2.WellFormed ∧
        ((∃ part, e.sign key message selector = (.error (.parameterMismatch part), key)) ↔
          ¬ key.Matches e) ∧
        (key.Matches e →
          (e.sign key message selector = (.error (.keysExhausted (2 ^ key.header.height)), key) ↔
            key.index = 2 ^ key.header.height)) ∧
        (key.Matches e → key.index < 2 ^ key.header.height →
          (e.sign key message selector
              = (.error (.missingKeyMaterial .backupHash), { key with index := key.index + 1 }) ↔
            selector = .backup ∧ key.header.backupDigest = none) ∧
          (¬ (selector = .backup ∧ key.header.backupDigest = none) →
            ∃ signature caches, e.sign key message selector
                = (.ok signature, { key with index := key.index + 1, caches }) ∧
              e.Shapes selector key.index signature)) := by
  refine ⟨?_, ?_, ?_, ?_⟩
  · intro publicSeed secretSeed secretPrf nonces key publicKey hgenerate
    obtain ⟨key', heq, -, -, -, hsound, -⟩ :=
      generateFromSeeds_eq (seedsFit_of_generateFromSeeds hgenerate)
    rw [hgenerate] at heq
    obtain ⟨rfl, -⟩ := Prod.mk.inj (Except.ok.inj heq)
    exact hsound.wellFormed
  · exact fun bytes key => PrivateKey.wellFormed_of_ofBytes
  · exact fun suite text key => Backup.wellFormed_of_read
  intro key h
  refine ⟨fun r key' => h.reserve, h.evict e, h.signCommitted e, fun message selector => ?_⟩
  have hmax : key.header.maxSignatures = 2 ^ key.header.height := rfl
  refine ⟨h.sign e message selector, ?_⟩
  rw [← hmax]
  -- the outcomes differ from each other, so each tells its condition
  obtain ⟨hne, part, hout⟩ | ⟨hmatches, hindex, hout⟩ | ⟨hmatches, hindex, ⟨rfl, hnone⟩, hout⟩ |
    ⟨hmatches, hindex, hpresent, signature, caches, hout, -, hshapes⟩ :=
      sign_cases (e := e) h message selector
  · simp [hout, hne]
  · simp [hout, hmatches, hindex]
  · simp [hout, hmatches, hindex.ne, hnone]
  · simp [hout, hmatches, hindex.ne, hpresent, hshapes]

theorem usable_key_outcomes_small : ∃ key publicKey,
    small.generateFromSeeds (Bytes.zeros 32) (Bytes.zeros 32) (Bytes.zeros 32)
      ⟨Array.replicate 2 ⟨0, 0⟩⟩ = .ok (key, publicKey) ∧ key.WellFormed ∧ key.index = 0 ∧
    ∀ message selector, ∃ signature caches, small.sign key message selector
        = (.ok signature, { key with index := 1, caches }) ∧
      small.Shapes selector 0 signature := by
  obtain ⟨key, hgenerate, hindex, -, -, hsound, -⟩ := generateFromSeeds_eq seedsFit_small
  obtain ⟨hseeds, -, -, houtcomes⟩ := usable_key_outcomes small
  have hkey : key.WellFormed := hseeds _ _ _ _ _ _ hgenerate
  have hmatches : key.Matches small := hsound.toMatches
  refine ⟨key, key.publicKey, hgenerate, hkey, hindex, fun message selector => ?_⟩
  obtain ⟨-, -, -, hsign⟩ := houtcomes key hkey
  obtain ⟨-, -, -, hlast⟩ := hsign message selector
  have hlt : key.index < 2 ^ key.header.height := by
    rw [hindex]
    exact Nat.two_pow_pos _
  have hpresent : ¬ (selector = .backup ∧ key.header.backupDigest = none) := by
    rw [hmatches.backupDigest]
    exact (nomatch ·.2)
  obtain ⟨signature, caches, hout, hshapes⟩ := (hlast hmatches hlt).2 hpresent
  rw [hindex] at hout hshapes
  exact ⟨signature, caches, hout, hshapes⟩

end Engine

end Hypertree
