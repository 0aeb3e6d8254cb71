import Hypertree.Proofs.Engine.Sign

/-!
# Generated keys

`generateFromSeeds_eq`: seeds of the right sizes always give a key pair, and those drawn at random
have the right sizes (`generate_eq`). The key (`freshKey`) has these seeds and starts at index zero;
it is sound, and its roots are those of its top trees (`PrivateKey.Rooted`). Nothing that a signer
does to a key changes its roots, so a key that was generated stays rooted.
-/

namespace Hypertree

/-- The one tree of the top layer. -/
def Setting.topTree (s : Setting) (seeds : Seeds) : Tree :=
  ⟨s, seeds, s.params.layers - 1, 0⟩

/-- The key has a root for each configured selector, that of its top tree. -/
def PrivateKey.Rooted (key : PrivateKey) (e : Engine) : Prop :=
  ∀ selector, Engine.verificationRoot key.publicKey selector
    = (e.setting? selector).map fun s => (s.topTree key.seeds).rootValue

theorem Setting.Agrees.rootValue_eq {s t : Setting} (h : s.Agrees t)
    (hlayers : s.params.layers = t.params.layers) (seeds : Seeds) :
    (s.topTree seeds).rootValue = (t.topTree seeds).rootValue := by
  simp only [topTree, Tree.rootValue, Tree.height, hlayers, h.treeHeight, h.nodeValue_eq]

theorem PrivateKey.Rooted.congr {key : PrivateKey} {e e' : Engine} (hagree : e.Agrees e')
    (h : key.Rooted e) : key.Rooted e' := by
  intro selector
  rw [h selector]
  cases hs : e.setting? selector with
  | none =>
    cases hs' : e'.setting? selector with
    | none => rfl
    | some s' =>
      obtain ⟨s, hsome, -⟩ := hagree.symm.setting? hs'
      rw [hs] at hsome
      exact nomatch hsome
  | some s =>
    obtain ⟨s', hs', hagrees, hlayers⟩ := hagree.setting? hs
    rw [hs', Option.map_some, Option.map_some, hagrees.rootValue_eq hlayers]

namespace Engine

variable {e : Engine} {publicSeed secretSeed secretPrf : Bytes} {nonces : NonceTable}

/-- The sizes of the parts from which a key is made. -/
structure SeedsFit (e : Engine) (publicSeed secretSeed secretPrf : Bytes) (nonces : NonceTable) :
    Prop where
  publicSeed : publicSeed.length = e.params.n
  secretSeed : secretSeed.length = e.params.n
  secretPrf : secretPrf.length = e.params.n
  nonces : nonces.size = e.params.leavesPerTree

theorem SeedsFit.fits (h : e.SeedsFit publicSeed secretSeed secretPrf nonces)
    {selector : Selector} {s : Setting} (hs : e.setting? selector = some s) :
    s.Fits ⟨publicSeed, secretSeed, nonces⟩ := by
  obtain ⟨hparams, hn, hvalid⟩ := e.setting_spec hs
  refine ⟨?_, ?_, ?_, hvalid, ?_⟩
  · rw [hn]; exact h.publicSeed
  · rw [hn]; exact h.secretSeed
  · rw [hparams]; exact h.nonces
  · rw [hparams]; exact e.header_valid.treeHeight_le

/-- The top tree under either setting has its root, and needs no cache for it. -/
theorem topTree_root_none (h : e.SeedsFit publicSeed secretSeed secretPrf nonces)
    {selector : Selector} {s : Setting} (hs : e.setting? selector = some s) :
    ((Tree.mk s ⟨publicSeed, secretSeed, nonces⟩ (e.params.layers - 1) 0).root none).1
      = .ok (s.topTree ⟨publicSeed, secretSeed, nonces⟩).rootValue := by
  have hnone : ∀ c ∈ (none : Option NodeCache),
      (s.topTree ⟨publicSeed, secretSeed, nonces⟩).Correct c := fun c hc => nomatch hc
  obtain ⟨cache, hroot, -⟩ := Tree.root_eq (h.fits hs) hnone
  unfold Setting.topTree at hroot ⊢
  rw [(e.setting_spec hs).1] at hroot ⊢
  rw [hroot]

/-- The cache that the primary top tree fills from an empty one holds correct nodes in their
places. -/
theorem topTree_root_cached (h : e.SeedsFit publicSeed secretSeed secretPrf nonces) :
    ∃ c, (e.primary.topTree ⟨publicSeed, secretSeed, nonces⟩).root (some (.empty 0))
        = (.ok (e.primary.topTree ⟨publicSeed, secretSeed, nonces⟩).rootValue, some c) ∧
      (e.primary.topTree ⟨publicSeed, secretSeed, nonces⟩).Correct c ∧
      c.InRange e.params.n e.params.treeHeight := by
  set t := e.primary.topTree ⟨publicSeed, secretSeed, nonces⟩ with ht
  have hprimary : e.setting? .primary = some e.primary := rfl
  have hfits : t.setting.Fits t.seeds := h.fits hprimary
  have hempty : ∀ c ∈ some (NodeCache.empty 0), t.Correct c := by
    rintro c ⟨⟩
    exact Tree.holds_empty _ _ _
  obtain ⟨cache, hroot, hfill⟩ := Tree.root_eq hfits hempty
  obtain ⟨c, rfl⟩ := Option.isSome_iff_exists.mp hfill.isSome_eq
  refine ⟨c, hroot, hfill.holds hempty c rfl, ?_⟩
  -- every node that was offered lies in the tree
  refine hfill.preserves ?_ ?_ c rfl
  · intro c z i x hnode hx hc
    exact hc.offer _ hnode.1 hnode.2 (t.hereditary_isValue.length hx)
  · rintro c ⟨⟩
    exact NodeCache.inRange_empty _ _ _

/-- The key that these parts make, with the cache of its top tree. -/
def freshKey (e : Engine) (publicSeed secretSeed secretPrf : Bytes) (nonces : NonceTable)
    (cache : NodeCache) : PrivateKey where
  header := e.params.toHeader
  index := 0
  publicSeed := publicSeed
  secretSeed := secretSeed
  secretPrf := secretPrf
  root := (e.primary.topTree ⟨publicSeed, secretSeed, nonces⟩).rootValue
  backupRoot := e.backup?.map fun s => (s.topTree ⟨publicSeed, secretSeed, nonces⟩).rootValue
  nonces := nonces
  caches := Caches.empty.insertTree (e.params.layers - 1) 0 cache

theorem soundFor_freshKey (h : e.SeedsFit publicSeed secretSeed secretPrf nonces) {c : NodeCache}
    (hcorrect : (e.primary.topTree ⟨publicSeed, secretSeed, nonces⟩).Correct c)
    (hrange : c.InRange e.params.n e.params.treeHeight) :
    (e.freshKey publicSeed secretSeed secretPrf nonces c).SoundFor e where
  wellFormed := {
    header := e.header_valid
    index_le := Nat.zero_le _
    publicSeed := h.publicSeed
    secretSeed := h.secretSeed
    secretPrf := h.secretPrf
    root := Tree.length_nodeValue ..
    -- the second root has the size of the second digest, which is that of the first
    backupRoot := by
      intro root hroot
      obtain ⟨s, hs, rfl⟩ := Option.map_eq_some_iff.mp hroot
      have hsecond : e.setting? .backup = some s := hs
      exact (Tree.length_nodeValue ..).trans (e.setting_spec hsecond).2.1
    backup_isSome := by simp [freshKey, backup?]
    nonces := h.nonces
    caches := by
      have htop : Caches.HasTree e.params.toHeader (e.params.layers - 1) 0 :=
        ⟨Nat.sub_lt e.header_valid.layers_pos one_pos, Nat.two_pow_pos _⟩
      exact Caches.all_empty.insertTree ⟨htop, hrange⟩ }
  height := rfl
  layers := rfl
  digest := rfl
  backupDigest := rfl
  caches := Caches.all_empty.insertTree hcorrect

theorem rooted_freshKey (e : Engine) (publicSeed secretSeed secretPrf : Bytes)
    (nonces : NonceTable) (c : NodeCache) :
    (e.freshKey publicSeed secretSeed secretPrf nonces c).Rooted e := by
  intro selector
  cases selector with
  | primary => rfl
  | backup => rfl

/-- The key pair is made of the roots and of the cache that the primary top tree fills. -/
theorem generateFromSeeds_eq_freshKey (h : e.SeedsFit publicSeed secretSeed secretPrf nonces)
    {c : NodeCache} (hroot : (e.primary.topTree ⟨publicSeed, secretSeed, nonces⟩).root
      (some (.empty 0))
        = (.ok (e.primary.topTree ⟨publicSeed, secretSeed, nonces⟩).rootValue, some c)) :
    e.generateFromSeeds publicSeed secretSeed secretPrf nonces
      = .ok (e.freshKey publicSeed secretSeed secretPrf nonces c,
          (e.freshKey publicSeed secretSeed secretPrf nonces c).publicKey) := by
  have hcheck : ∀ {field : Field} {bytes : Bytes}, bytes.length = e.params.n →
      e.checkLength field bytes = .ok () := fun hlen => if_pos hlen
  have hprimary : (Tree.mk e.primary ⟨publicSeed, secretSeed, nonces⟩ (e.params.layers - 1) 0).root
    (some (.empty 0)) = _ := hroot
  unfold generateFromSeeds freshKey
  simp only [hcheck h.publicSeed, hcheck h.secretSeed, hcheck h.secretPrf, bind, Except.bind,
    if_pos h.nonces, hprimary]
  cases hs : e.backup? with
  | none => rfl
  | some s =>
    have hsecond : e.setting? .backup = some s := hs
    simp only [topTree_root_none h hsecond]
    rfl

/-- **Seeds of the right sizes give a key pair**, whose private key is sound and rooted. -/
theorem generateFromSeeds_eq (h : e.SeedsFit publicSeed secretSeed secretPrf nonces) :
    ∃ key, e.generateFromSeeds publicSeed secretSeed secretPrf nonces = .ok (key, key.publicKey) ∧
      key.index = 0 ∧ key.seeds = ⟨publicSeed, secretSeed, nonces⟩ ∧ key.secretPrf = secretPrf ∧
      key.SoundFor e ∧ key.Rooted e := by
  obtain ⟨c, hroot, hcorrect, hrange⟩ := topTree_root_cached h
  exact ⟨e.freshKey publicSeed secretSeed secretPrf nonces c,
    generateFromSeeds_eq_freshKey h hroot, rfl, rfl, rfl, soundFor_freshKey h hcorrect hrange,
    rooted_freshKey e publicSeed secretSeed secretPrf nonces c⟩

/-- Nothing else gives one. -/
theorem seedsFit_of_generateFromSeeds {p : PrivateKey × PublicKey}
    (h : e.generateFromSeeds publicSeed secretSeed secretPrf nonces = .ok p) :
    e.SeedsFit publicSeed secretSeed secretPrf nonces := by
  have hlength : ∀ {field : Field} {bytes : Bytes}, e.checkLength field bytes = .ok () →
      bytes.length = e.params.n := by
    intro field bytes hcheck
    unfold checkLength at hcheck
    split_ifs at hcheck with hlen
    exact hlen
  obtain ⟨_, hpublic, h⟩ := bind_eq_ok_iff.mp h
  obtain ⟨_, hsecret, h⟩ := bind_eq_ok_iff.mp h
  obtain ⟨_, hprf, h⟩ := bind_eq_ok_iff.mp h
  exact ⟨hlength hpublic, hlength hsecret, hlength hprf, (guard_eq_ok_iff.mp h).1⟩

/-- **A key drawn at random is one from seeds that fit.** -/
theorem generate_eq (e : Engine) (entropy : Entropy) :
    ∃ publicSeed secretSeed secretPrf nonces,
      e.SeedsFit publicSeed secretSeed secretPrf nonces ∧
      e.generate entropy = e.generateFromSeeds publicSeed secretSeed secretPrf nonces := by
  have hlen : ∀ start, (entropy.bytes start e.params.n).length = e.params.n := by
    intro start
    simp [Entropy.bytes]
  refine ⟨_, _, _, _, ⟨hlen _, hlen _, hlen _, ?_⟩, rfl⟩
  simp [NonceTable.draw, NonceTable.size]

/-- What seeds give is a sound key that has spent no index. -/
theorem of_generateFromSeeds {key : PrivateKey} {publicKey : PublicKey}
    (h : e.generateFromSeeds publicSeed secretSeed secretPrf nonces = .ok (key, publicKey)) :
    key.index = 0 ∧ key.SoundFor e := by
  obtain ⟨key', hgenerate, hindex, -, -, hsound, -⟩ :=
    generateFromSeeds_eq (seedsFit_of_generateFromSeeds h)
  rw [hgenerate] at h
  obtain ⟨rfl, -⟩ := Prod.mk.inj (Except.ok.inj h)
  exact ⟨hindex, hsound⟩

/-- So is what is drawn at random. -/
theorem of_generate {entropy : Entropy} {key : PrivateKey} {publicKey : PublicKey}
    (h : e.generate entropy = .ok (key, publicKey)) : key.index = 0 ∧ key.SoundFor e := by
  obtain ⟨publicSeed, secretSeed, secretPrf, nonces, -, heq⟩ := e.generate_eq entropy
  rw [heq] at h
  exact of_generateFromSeeds h

/-- An engine for keys of four signatures in two layers, under both selectors. -/
def small : Engine :=
  ⟨.standard, { height := 2, layers := 2, backupDigest := some .sha3 }, rfl⟩

/-- Seeds of zeros fit it. -/
theorem seedsFit_small : small.SeedsFit (Bytes.zeros 32) (Bytes.zeros 32) (Bytes.zeros 32)
    ⟨Array.replicate 2 ⟨0, 0⟩⟩ :=
  ⟨rfl, rfl, rfl, rfl⟩

end Engine

end Hypertree
