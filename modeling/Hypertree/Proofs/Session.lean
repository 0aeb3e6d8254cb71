import Hypertree.Proofs.Engine.Verify
import Hypertree.Proofs.Key.Backup

/-!
# Sessions

A session is a key at work: indices are reserved, dropped, committed and signed with in any order,
nodes are evicted, and the key is replaced by what its encoding or its text backup reads back as.
`Session.Step` is one such operation and `Session.Run` any number of them. Each operation may be
made by another engine, as long as all agree with a given one; only cache policies, workers and
nonce bounds may differ.

`Session.Sound` holds of every session that begins with a sound key (`Run.sound`): the key is sound,
only its index and caches have changed, indices in flight belong to it, and what was issued is the
reference. What one operation does to it is `Step.sound`. From it follows that replacing the key
always succeeds, and that signing has the outcome of the reference.
-/

namespace Hypertree

namespace PrivateKey.SoundFor

variable {key : PrivateKey} {e : Engine}

/-- What is read back from the encoding of a sound key is sound. -/
theorem atIndex (h : key.SoundFor e) :
    { key with caches := key.caches.atIndex key.header.treeHeight key.index }.SoundFor e :=
  h.update h.wellFormed.index_le (h.wellFormed.caches.atIndex _ _)
    (h.caches.atIndex (fun _ _ _ _ hc => hc) _ _)

/-- A sound key without its caches is sound. -/
theorem withoutCaches (h : key.SoundFor e) : { key with caches := .empty }.SoundFor e :=
  h.update h.wellFormed.index_le Caches.all_empty Caches.all_empty

end PrivateKey.SoundFor

/-- A signature that was returned, with what had been asked for. -/
structure Issued where
  selector : Selector
  index : Nat
  message : Bytes
  signature : Signature

/-- A key at work. -/
structure Session where
  key : PrivateKey
  /-- Reservations neither committed nor dropped. -/
  reservations : List Reservation
  /-- Committed indices not yet signed with. -/
  committed : List CommittedIndex
  /-- The signatures returned so far. -/
  issued : List Issued

namespace Session

/-- A session begins with a key. -/
def start (key : PrivateKey) : Session :=
  ⟨key, [], [], []⟩

/-- The session after an attempt to sign. -/
def record (s : Session) (selector : Selector) (index : Nat) (message : Bytes)
    (outcome : Except Error Signature × PrivateKey) : Session :=
  { s with
    key := outcome.2
    issued := match outcome.1 with
      | .ok signature => ⟨selector, index, message, signature⟩ :: s.issued
      | .error _ => s.issued }

/-- One operation, by an engine that agrees with a given one. -/
inductive Step (e : Engine) : Session → Session → Prop where
  /-- The next index is reserved. -/
  | reserve {s : Session} {r : Reservation} {key : PrivateKey} : s.key.reserve = .ok (r, key) →
      Step e s { s with key, reservations := r :: s.reservations }
  /-- A reservation is given up. -/
  | drop {s : Session} {r : Reservation} : r ∈ s.reservations →
      Step e s { s with reservations := s.reservations.erase r }
  /-- Any outstanding reservation is committed. -/
  | commit {s : Session} {r : Reservation} : r ∈ s.reservations →
      Step e s { s with
        reservations := s.reservations.erase r
        committed := r.commit :: s.committed }
  /-- A message is signed at the next index. -/
  | sign {s : Session} {e' : Engine} (message : Bytes) (selector : Selector) : e.Agrees e' →
      Step e s (s.record selector s.key.index message (e'.sign s.key message selector))
  /-- A message is signed at any committed index, which is consumed. -/
  | signCommitted {s : Session} {e' : Engine} (c : CommittedIndex) (message : Bytes)
      (selector : Selector) : e.Agrees e' → c ∈ s.committed →
      Step e s ({ s with committed := s.committed.erase c }.record selector c.index message
        (e'.signCommitted s.key c message selector))
  /-- Cached nodes are evicted. -/
  | evict {s : Session} {e' : Engine} : e.Agrees e' →
      Step e s { s with key := (e'.evict s.key).2 }
  /-- The key is encoded and read back. -/
  | reload {s : Session} {key : PrivateKey} : PrivateKey.ofBytes s.key.toBytes = .ok key →
      Step e s { s with key }
  /-- The key is written as a text backup and read back. -/
  | restore {s : Session} {e' : Engine} {key : PrivateKey} : e.Agrees e' →
      Backup.read e'.suite (Backup.write e'.suite s.key) = .ok key → Step e s { s with key }

/-- Any number of operations. -/
def Run (e : Engine) : Session → Session → Prop :=
  Relation.ReflTransGen (Step e)

/-- What holds in every session that began with a key. -/
structure Sound (e : Engine) (key : PrivateKey) (s : Session) : Prop where
  key_sound : s.key.SoundFor e
  evolves : key.Evolves s.key
  reserved : ∀ r ∈ s.reservations, r.tag = key.tag ∧ r.index < s.key.index
  committed : ∀ c ∈ s.committed, c.tag = key.tag ∧ c.index < s.key.index
  issued : ∀ i ∈ s.issued, i.index < key.header.maxSignatures ∧
    e.reference? key i.selector i.index i.message = some i.signature

variable {e : Engine} {key : PrivateKey} {s s' : Session}

theorem sound_start (h : key.SoundFor e) : (start key).Sound e key where
  key_sound := h
  evolves := .refl key
  reserved := fun _ hr => nomatch hr
  committed := fun _ hc => nomatch hc
  issued := fun _ hi => nomatch hi

/-- A key is put in the place of another that it evolves from. -/
theorem Sound.withKey (h : s.Sound e key) {key' : PrivateKey} (hsound : key'.SoundFor e)
    (hevolves : s.key.Evolves key') (hindex : s.key.index ≤ key'.index) :
    { s with key := key' }.Sound e key where
  key_sound := hsound
  evolves := h.evolves.trans hevolves
  reserved := fun r hr => ⟨(h.reserved r hr).1, lt_of_lt_of_le (h.reserved r hr).2 hindex⟩
  committed := fun c hc => ⟨(h.committed c hc).1, lt_of_lt_of_le (h.committed c hc).2 hindex⟩
  issued := h.issued

/-- Indices in flight may be given up. -/
theorem Sound.of_subset (h : s.Sound e key) {reservations : List Reservation}
    {committed : List CommittedIndex} (hr : reservations ⊆ s.reservations)
    (hc : committed ⊆ s.committed) : { s with reservations, committed }.Sound e key :=
  { h with
    reserved := fun r hmem => h.reserved r (hr hmem)
    committed := fun c hmem => h.committed c (hc hmem) }

/-- The reference for a key is that for the key it evolved from. -/
theorem Sound.reference?_eq (h : s.Sound e key) {e' : Engine} (hagree : e.Agrees e') :
    e'.reference? s.key = e.reference? key := by
  obtain ⟨index, caches, hkey⟩ := h.evolves
  rw [hkey, hagree.reference?_eq]
  rfl

theorem Sound.maxSignatures_eq (h : s.Sound e key) :
    s.key.header.maxSignatures = key.header.maxSignatures := by
  obtain ⟨index, caches, hkey⟩ := h.evolves
  rw [hkey]

/-- An attempt to sign that keeps the key sound and returns the reference, if anything. -/
theorem Sound.record (h : s.Sound e key) {selector : Selector} {index : Nat} {message : Bytes}
    {outcome : Except Error Signature × PrivateKey} (hsound : outcome.2.SoundFor e)
    (hevolves : s.key.Evolves outcome.2) (hindex : s.key.index ≤ outcome.2.index)
    (hok : ∀ signature, outcome.1 = .ok signature → index < key.header.maxSignatures ∧
      e.reference? key selector index message = some signature) :
    (s.record selector index message outcome).Sound e key := by
  refine { h.withKey hsound hevolves hindex with issued := ?_ }
  intro i hi
  unfold Session.record at hi
  -- a failure is not recorded
  cases hout : outcome.1 with
  | error err =>
    rw [hout] at hi
    exact h.issued i hi
  | ok signature =>
    rw [hout] at hi
    rcases List.mem_cons.mp hi with rfl | hi
    · exact hok signature hout
    · exact h.issued i hi

/-! ### One operation -/

/-- **Every operation keeps a session sound.** -/
theorem Step.sound (hstep : Step e s s') (h : s.Sound e key) : s'.Sound e key := by
  have hsound := h.key_sound
  cases hstep with
  | reserve hreserve =>
    -- the reservations made before stay below the index, and the new one is its predecessor
    obtain ⟨hindex, rfl, rfl⟩ := PrivateKey.reserve_eq_ok_iff.mp hreserve
    have hnext := h.withKey (hsound.advance hindex) (s.key.evolves_update _ _) (Nat.le_succ _)
    refine { hnext with reserved := ?_ }
    intro r hr
    rcases List.mem_cons.mp hr with rfl | hr
    · exact ⟨h.evolves.tag_eq, Nat.lt_succ_self _⟩
    · exact hnext.reserved r hr
  | drop hr => exact h.of_subset List.erase_subset (List.Subset.refl _)
  | commit hr =>
    refine { h.of_subset List.erase_subset (List.Subset.refl s.committed) with committed := ?_ }
    intro c hc
    rcases List.mem_cons.mp hc with rfl | hc
    · exact h.reserved _ hr
    · exact h.committed c hc
  | sign message selector hagree =>
    obtain ⟨hsound', hevolves, hindex, hok⟩ :=
      Engine.sign_spec (hsound.congr hagree) message selector
    refine h.record (hsound'.congr hagree.symm) hevolves hindex ?_
    intro signature hsig
    obtain ⟨hlt, href⟩ := hok signature hsig
    exact ⟨h.maxSignatures_eq ▸ hlt, h.reference?_eq hagree ▸ href⟩
  | signCommitted c message selector hagree hc =>
    obtain ⟨hsound', hevolves, hindex, hok⟩ :=
      Engine.signCommitted_spec (hsound.congr hagree) c message selector
    have hconsumed : { s with committed := s.committed.erase c }.Sound e key :=
      h.of_subset (List.Subset.refl _) List.erase_subset
    refine hconsumed.record (hsound'.congr hagree.symm) hevolves hindex.ge ?_
    intro signature hsig
    obtain ⟨hlt, href⟩ := hok signature hsig
    have hmax : c.index < s.key.header.maxSignatures :=
      lt_of_lt_of_le hlt hsound.wellFormed.index_le
    exact ⟨h.maxSignatures_eq ▸ hmax, h.reference?_eq hagree ▸ href⟩
  | evict hagree =>
    have hevicted := (hsound.congr hagree).evict.congr hagree.symm
    exact h.withKey hevicted (s.key.evolves_update _ _) le_rfl
  | reload hkey =>
    rw [PrivateKey.ofBytes_toBytes hsound.wellFormed] at hkey
    obtain rfl := Except.ok.inj hkey
    exact h.withKey hsound.atIndex (s.key.evolves_update _ _) le_rfl
  | restore hagree hkey =>
    rw [Backup.read_write _ hsound.wellFormed] at hkey
    obtain rfl := Except.ok.inj hkey
    exact h.withKey hsound.withoutCaches (s.key.evolves_update _ _) le_rfl

/-- **Every session that begins with a sound key is sound.** -/
theorem Run.sound (hkey : key.SoundFor e) (hrun : Run e (start key) s) : s.Sound e key := by
  -- the induction is on the operations made
  induction hrun with
  | refl => exact sound_start hkey
  | tail _ hstep ih => exact hstep.sound ih

/-! ### What sessions return -/

/-- The key of a sound session can always be replaced by what its encoding, or its text backup, is
read back as. -/
theorem Sound.replaceable (h : s.Sound e key) (suite : Suite) :
    (∃ key', PrivateKey.ofBytes s.key.toBytes = .ok key') ∧
      ∃ key', Backup.read suite (Backup.write suite s.key) = .ok key' :=
  ⟨⟨_, PrivateKey.ofBytes_toBytes h.key_sound.wellFormed⟩,
    ⟨_, Backup.read_write suite h.key_sound.wellFormed⟩⟩

/-- A rooted key with an index left signs any message, under every configured selector. -/
theorem exists_issued (hkey : key.SoundFor e) (hrooted : key.Rooted e)
    (hindex : key.index < key.header.maxSignatures) (selector : Selector)
    (hselector : (e.setting? selector).isSome) (message : Bytes) :
    ∃ s signature, Run e (start key) s ∧
      s.issued = [⟨selector, key.index, message, signature⟩] := by
  have hout := Engine.sign_outcome hkey message selector
  obtain ⟨t, hs⟩ := Option.isSome_iff_exists.mp hselector
  have hroot := hrooted selector
  rw [hs, Option.map_some] at hroot
  rw [if_pos hindex, e.reference?_eq hs hroot] at hout
  obtain ⟨signature, hsign⟩ : ∃ signature, (e.sign key message selector).1 = .ok signature :=
    ⟨_, toOption_eq_some_iff.mp hout⟩
  refine ⟨_, signature, Relation.ReflTransGen.single (.sign message selector (.refl e)), ?_⟩
  simp only [start, record, hsign]

/-- **Caches and persistence never change a signature.** Whatever a session has done to a generated
key, with whatever engines, every signature it returned is the reference; signing at the next index
or with a committed index has the outcome of the reference, which exists for every configured
selector; and the key can be replaced by what its encoding or its text backup is read back as. -/
theorem issued_eq_reference (e : Engine) {publicSeed secretSeed secretPrf : Bytes}
    {nonces : NonceTable} (h : e.SeedsFit publicSeed secretSeed secretPrf nonces) :
    ∃ key, e.generateFromSeeds publicSeed secretSeed secretPrf nonces = .ok (key, key.publicKey) ∧
      key.seeds = ⟨publicSeed, secretSeed, nonces⟩ ∧ key.secretPrf = secretPrf ∧
      (∀ selector index message,
        (e.reference? key selector index message).isSome = (e.setting? selector).isSome) ∧
      ∀ s, Run e (start key) s →
        (∀ i ∈ s.issued, e.reference? key i.selector i.index i.message = some i.signature) ∧
        ∀ e', e.Agrees e' →
          (∀ message selector, (e'.sign s.key message selector).1.toOption
            = if s.key.index < e.params.maxSignatures
              then e.reference? key selector s.key.index message else none) ∧
          (∀ c ∈ s.committed, ∀ message selector,
            (e'.signCommitted s.key c message selector).1.toOption
              = e.reference? key selector c.index message) ∧
          (∃ key', PrivateKey.ofBytes s.key.toBytes = .ok key') ∧
          ∃ key', Backup.read e'.suite (Backup.write e'.suite s.key) = .ok key' := by
  obtain ⟨key, hgen, -, hseeds, hprf, hkey, hrooted⟩ := Engine.generateFromSeeds_eq h
  refine ⟨key, hgen, hseeds, hprf, ?_, ?_⟩
  · -- the key has a root for each selector for which the engine has a setting
    intro selector index message
    have hroot := hrooted selector
    cases hs : e.setting? selector with
    | none => simp [Engine.reference?, hs]
    | some t =>
      rw [hs, Option.map_some] at hroot
      rw [e.reference?_eq hs hroot]
      rfl
  · -- the key stays sound, and it is as sound for an engine that agrees
    intro s hrun
    have hsound := hrun.sound hkey
    refine ⟨fun i hi => (hsound.issued i hi).2, ?_⟩
    intro e' hagree
    have hkey' : s.key.SoundFor e' := hsound.key_sound.congr hagree
    refine ⟨?_, ?_, hsound.replaceable _⟩
    · intro message selector
      rw [Engine.sign_outcome hkey', hsound.reference?_eq hagree, hsound.maxSignatures_eq,
        hkey.maxSignatures]
    · intro c hc message selector
      have hcommitted := hsound.committed c hc
      rw [← hsound.evolves.tag_eq, ← PrivateKey.checkCommitted_eq_ok_iff] at hcommitted
      rw [Engine.signCommitted_outcome hkey' hcommitted, hsound.reference?_eq hagree]

/-- A fresh key of `Engine.small` returns the reference. -/
theorem issued_eq_reference_small :
    ∃ key s signature, Engine.small.generateFromSeeds (Bytes.zeros 32) (Bytes.zeros 32)
        (Bytes.zeros 32) ⟨Array.replicate 2 ⟨0, 0⟩⟩ = .ok (key, key.publicKey) ∧
      Run Engine.small (start key) s ∧ s.issued = [⟨.primary, 0, [], signature⟩] ∧
      Engine.small.reference? key .primary 0 [] = some signature := by
  obtain ⟨key, hgen, -, -, -, hruns⟩ := issued_eq_reference Engine.small Engine.seedsFit_small
  obtain ⟨key', hgen', hindex, -, -, hkey, hrooted⟩ :=
    Engine.generateFromSeeds_eq Engine.seedsFit_small
  obtain rfl : key = key' := (Prod.mk.inj (Except.ok.inj (hgen.symm.trans hgen'))).1
  obtain ⟨s, signature, hrun, hissued⟩ := exists_issued hkey hrooted
    (by rw [hindex]; exact Nat.two_pow_pos _) .primary rfl []
  rw [hindex] at hissued
  refine ⟨key, s, signature, hgen, hrun, hissued, ?_⟩
  exact (hruns s hrun).1 _ (by rw [hissued]; exact List.mem_singleton_self _)

/-- **Every signature that a session returns is accepted**, by every engine that agrees, and so is
its encoding under the encoded public key. For the backup selector the latter needs a backup root
that is not all zeros, as that stands for none. -/
theorem issued_verify (e : Engine) {publicSeed secretSeed secretPrf : Bytes}
    {nonces : NonceTable} (h : e.SeedsFit publicSeed secretSeed secretPrf nonces) :
    ∃ key, e.generateFromSeeds publicSeed secretSeed secretPrf nonces = .ok (key, key.publicKey) ∧
      ∀ s, Run e (start key) s →
        (∀ i ∈ s.issued, ∀ e', e.Agrees e' →
          e'.verify i.signature i.message key.publicKey = .ok true ∧
          ((i.selector = .backup → key.backupRoot ≠ some (Bytes.zeros e.params.n)) →
            e'.verifyBytes i.signature.toBytes i.message key.publicKey.toBytes = .ok true)) ∧
        (∃ key', PrivateKey.ofBytes s.key.toBytes = .ok key') ∧
        ∃ key', Backup.read e.suite (Backup.write e.suite s.key) = .ok key' := by
  obtain ⟨key, hgen, -, -, -, hkey, hrooted⟩ := Engine.generateFromSeeds_eq h
  refine ⟨key, hgen, ?_⟩
  intro s hrun
  have hsound := hrun.sound hkey
  refine ⟨?_, hsound.replaceable _⟩
  intro i hi e' hagree
  -- what was issued is the reference, and references verify
  obtain ⟨hindex, href⟩ := hsound.issued i hi
  rw [hagree.reference?_eq] at href
  have hkey' := hkey.congr hagree
  have hrooted' := hrooted.congr hagree
  have hn : e.params.n = e'.params.n := by rw [Header.n, Header.n, hagree.digest]
  refine ⟨Engine.verify_of_reference? hkey' hrooted' hindex href rfl rfl, ?_⟩
  intro hzero
  exact Engine.verifyBytes_of_reference? hkey' hrooted' hindex href (hn ▸ hzero)

/-- A fresh key of `Engine.small` signs under its backup digest, and the signature is accepted. -/
theorem issued_verify_small :
    ∃ key s signature, Engine.small.generateFromSeeds (Bytes.zeros 32) (Bytes.zeros 32)
        (Bytes.zeros 32) ⟨Array.replicate 2 ⟨0, 0⟩⟩ = .ok (key, key.publicKey) ∧
      Run Engine.small (start key) s ∧ s.issued = [⟨.backup, 0, [], signature⟩] ∧
      Engine.small.verify signature [] key.publicKey = .ok true := by
  obtain ⟨key, hgen, hruns⟩ := issued_verify Engine.small Engine.seedsFit_small
  obtain ⟨key', hgen', hindex, -, -, hkey, hrooted⟩ :=
    Engine.generateFromSeeds_eq Engine.seedsFit_small
  obtain rfl : key = key' := (Prod.mk.inj (Except.ok.inj (hgen.symm.trans hgen'))).1
  obtain ⟨s, signature, hrun, hissued⟩ := exists_issued hkey hrooted
    (by rw [hindex]; exact Nat.two_pow_pos _) .backup rfl []
  rw [hindex] at hissued
  refine ⟨key, s, signature, hgen, hrun, hissued, ?_⟩
  exact ((hruns s hrun).1 _ (by rw [hissued]; exact List.mem_singleton_self _) _ (.refl _)).1

end Session

end Hypertree
