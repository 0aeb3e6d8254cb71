import Hypertree.Proofs.Position.Trees

/-!
# The hash calls of an engine

Key generation, signing and verification, each with a record of its hash calls. The records are
those of the operations: `generateFromSeeds_eq_value`, `signCommitted_eq_value` and, of the module
on transcripts, `verify_eq_value`. All calls with an address are made at positions of the key
(`staysIn_rootsTraced`, `staysIn_signTraced`, `staysIn_verifyTraced`), because the trees in use at
an index have their places in the key.

Both settings of an engine have digests of one size, so their keys have the same positions, those of
the primary one.
-/

namespace Hypertree

/-- Positions depend on the parameters and the size of digests alone. -/
theorem Position.InKey.congr {s s' : Setting} (hparams : s.params = s'.params) (hn : s.n = s'.n)
    {p : Position} (hp : p.InKey s) : p.InKey s' := by
  have honeTime : s.oneTime = s'.oneTime := by
    rw [Setting.oneTime, Setting.oneTime, hparams, hn]
  cases p <;> simpa only [InKey, hparams, honeTime] using hp

theorem Traced.StaysIn.congr {α : Type} {x : Traced α} {s s' : Setting}
    (hparams : s.params = s'.params) (hn : s.n = s'.n) (h : x.StaysIn s) : x.StaysIn s' := by
  obtain ⟨ps, hps, hkey⟩ := h
  exact ⟨ps, hps, fun p hp => (hkey p hp).congr hparams hn⟩

/-! ### Layers -/

/-- Recorded `signLayers`, for seeds and caches of the right sizes. -/
def signLayersTraced (s : Setting) (seeds : Seeds) (cached : Bool) (index : Nat) (r : Bytes) :
    (count layer : Nat) → (message : Bytes) → Caches → Traced (List TreeSignature × Caches)
  | 0, _, _, caches => return ([], caches)
  | count + 1, layer, message, caches => do
    let t := s.treeAt seeds index layer
    let leaf := s.leafAt index layer
    let signed ← t.signTraced leaf message (caches.inUse s cached index layer)
    let signature : TreeSignature := ⟨layer, r, leaf, signed.1.1, signed.1.2⟩
    if count = 0 then return ([signature], caches.store layer t.index signed.2)
    else do
      let root ← t.signedRootTraced leaf signed.1.1 signed.1.2 message signed.2
      let rest ← signLayersTraced s seeds cached index r count (layer + 1) root.1
        (caches.store layer t.index root.2)
      return (signature :: rest.1, rest.2)

section

variable {s : Setting} {seeds : Seeds}

/-- **The record of the layers** is that of `signLayers`. -/
theorem signLayers_eq_value (h : s.Fits seeds) (cached : Bool) (index : Nat) (r : Bytes)
    (count : Nat) : ∀ (layer : Nat) (message : Bytes) (caches : Caches),
      layer + count = s.params.layers → message.length = s.n →
      (cached = true → caches.Holds Tree.IsSized s seeds) →
      signLayers s seeds cached index r count layer message caches
        = (.ok (signLayersTraced s seeds cached index r count layer message caches).value.1,
          (signLayersTraced s seeds cached index r count layer message caches).value.2) := by
  -- the induction is on the layers left, and the nodes in the caches keep their size
  induction count with
  | zero => exact fun layer message caches _ _ _ => rfl
  | succ count ih =>
    intro layer message caches hcount hm hcaches
    have hlayer : layer < s.params.layers := by omega
    have hc := Caches.inUse_holds hcaches index layer
    have hleaf := s.leafAt_lt index layer
    have hsign := Tree.sign_eq_value h (t := s.treeAt seeds index layer) hleaf hm hc
    obtain ⟨hfits, hfill⟩ := Tree.signTraced_spec h (t := s.treeAt seeds index layer) hleaf hm hc
    set signed := ((s.treeAt seeds index layer).signTraced (s.leafAt index layer) message
      (caches.inUse s cached index layer)).value with hsigned
    by_cases hlast : count = 0
    · subst hlast
      rw [signLayers_one hsign]
      rfl
    · have hroot := Tree.signedRoot_eq_value h (t := s.treeAt seeds index layer) hm hfits signed.2
      obtain ⟨hlength, hfill'⟩ := Tree.signedRootTraced_spec (t := s.treeAt seeds index layer)
        message hfits (hfill.holds hc)
      set root := ((s.treeAt seeds index layer).signedRootTraced (s.leafAt index layer) signed.1.1
        signed.1.2 message signed.2).value with hrootValue
      have hstore := Caches.store_refills (V := Tree.IsSized) hlayer caches (hfill.trans hfill')
      have hcaches' : cached = true → (caches.store layer
          (treeIndex index layer s.params.treeHeight) root.2).Holds Tree.IsSized s seeds := by
        intro hcached
        rw [if_pos hcached] at hstore
        exact (hcaches hcached).refills hstore
      rw [signLayers_next hlast hsign hroot,
        ih (layer + 1) root.1 _ (by omega) hlength hcaches']
      simp only [signLayersTraced, Traced.value_bind, if_neg hlast, Traced.value_pure]
      rfl

theorem staysIn_signLayersTraced (hv : s.params.toHeader.Valid) (hs : s.oneTime.Valid)
    (seeds : Seeds) (cached : Bool) {index : Nat} (hindex : index < s.params.maxSignatures)
    (r : Bytes) (count : Nat) : ∀ (layer : Nat) (message : Bytes) (caches : Caches),
      layer + count = s.params.layers →
      (signLayersTraced s seeds cached index r count layer message caches).StaysIn s := by
  -- the layers from the bottom up: each is a tree of the key
  induction count with
  | zero => exact fun layer message caches _ => Traced.staysIn_pure _
  | succ count ih =>
    intro layer message caches hcount
    have htree : Caches.HasTree s.params.toHeader layer (s.treeAt seeds index layer).index :=
      Caches.hasTree_treeIndex hv hindex (by omega)
    have hleaf := s.leafAt_lt index layer
    rw [signLayersTraced]
    refine Traced.StaysIn.bind (Tree.staysIn_signTraced (t := s.treeAt seeds index layer) htree
      hleaf hs message _) ?_
    split_ifs
    · exact Traced.staysIn_pure _
    · exact (Tree.staysIn_signedRootTraced (t := s.treeAt seeds index layer) htree hleaf hs _ _
        message _).bind ((ih (layer + 1) _ _ (by omega)).bind_pure _)

/-- Climbing the layers of a signature stays in the key. -/
theorem staysIn_reachedTraced (hv : s.params.toHeader.Valid) (hs : s.oneTime.Valid)
    (publicSeed : Bytes) {index : Nat} (hindex : index < s.params.maxSignatures) (r : Bytes)
    (signatures : List TreeSignature) : ∀ (layer : Nat) (message : Bytes),
      layer + signatures.length = s.params.layers →
      (reachedTraced s publicSeed index r layer message signatures).StaysIn s := by
  induction signatures with
  | nil => exact fun layer message _ => Traced.staysIn_pure _
  | cons signature rest ih =>
    intro layer message hcount
    rw [List.length_cons] at hcount
    have htree := Caches.hasTree_treeIndex hv hindex (show layer < s.params.layers by omega)
    rw [reachedTraced]
    -- a layer out of place ends the verification, before it visits anything
    split_ifs
    · exact (staysIn_rootTraced hs htree (s.leafAt_lt index layer) publicSeed signature.ots
        signature.auth message).bind (ih (layer + 1) _ (by omega))
    · exact Traced.staysIn_pure _

end

/-! ### Operations -/

namespace Engine

/-- Recorded roots of a key with the given seeds. -/
def rootsTraced (e : Engine) (seeds : Seeds) : Traced (Bytes × Option Bytes) := do
  let root ← (e.primary.topTree seeds).treeTraced (some (.empty 0))
  match e.backup? with
  | none => return (root.1, none)
  | some s => do
    let second ← (s.topTree seeds).treeTraced none
    return (root.1, some second.1)

/-- Recorded `signCommitted`, with the key that it leaves. -/
def signTraced (e : Engine) (key : PrivateKey) (committed : CommittedIndex) (message : Bytes)
    (selector : Selector) : Traced (Except Error Signature × PrivateKey) :=
  match e.prepare key committed selector with
  | .error err => return (.error err, key)
  | .ok (s, root) => do
    let r := s.prfIndex key.secretPrf committed.index
    let cached := selector == .primary
    let digest ← s.hMsgTraced r root committed.index message
    let signed ← signLayersTraced s key.seeds cached committed.index r e.params.layers 0 digest
      key.caches
    let key := { key with caches := signed.2 }
    return (.ok ⟨selector, committed.index, r, signed.1⟩, if cached then (e.evict key).2 else key)

variable {e : Engine}

/-- **The record of a signature** is that of `signCommitted`, which returns the same and leaves the
same key, with the same nodes in its caches. -/
theorem signCommitted_eq_value {key : PrivateKey} (h : key.MadeFor e) (committed : CommittedIndex)
    (message : Bytes) (selector : Selector) :
    e.signCommitted key committed message selector
      = (e.signTraced key committed message selector).value := by
  unfold signCommitted signTraced
  cases hp : e.prepare key committed selector with
  | error err => rfl
  | ok p =>
    obtain ⟨s, root⟩ := p
    obtain ⟨-, -, hroot⟩ := e.prepare_eq_ok_iff.mp hp
    obtain ⟨hs, -⟩ := e.signingRoot_eq_ok_iff.mp hroot
    -- caches are read under the primary digest only; their nodes have its size
    have hcaches : (selector == .primary) = true → key.caches.Holds Tree.IsSized s key.seeds := by
      intro hselector
      obtain rfl : selector = .primary := by simpa using hselector
      obtain rfl := Option.some.inj hs
      exact h.holds_isSized
    have hsign := signLayers_eq_value (h.fits hs) (selector == .primary) committed.index
      (s.prfIndex key.secretPrf committed.index) e.params.layers 0
      (s.hMsg (s.prfIndex key.secretPrf committed.index) root committed.index message) key.caches
      (by rw [Nat.zero_add, (e.setting_spec hs).1]) (s.length_hMsg ..) hcaches
    simp only [hsign]
    rfl

theorem staysIn_hMsgTraced (s : Setting) (r root : Bytes) (index : Nat) (message : Bytes) :
    (s.hMsgTraced r root index message).StaysIn s :=
  ⟨[], rfl, fun _ hp => absurd hp List.not_mem_nil⟩

/-- **Signing stays in the key.** -/
theorem staysIn_signTraced {key : PrivateKey} (h : key.MadeFor e) (committed : CommittedIndex)
    (message : Bytes) (selector : Selector) :
    (e.signTraced key committed message selector).StaysIn e.primary := by
  unfold signTraced
  cases hp : e.prepare key committed selector with
  | error err => exact Traced.staysIn_pure _
  | ok p =>
    obtain ⟨s, root⟩ := p
    obtain ⟨-, hcommitted, hroot⟩ := e.prepare_eq_ok_iff.mp hp
    obtain ⟨hs, -⟩ := e.signingRoot_eq_ok_iff.mp hroot
    obtain ⟨hparams, hn, hvalid⟩ := e.setting_spec hs
    -- a committed index lies below the next one, and so within the key
    have hindex : committed.index < s.params.maxSignatures := by
      rw [hparams, ← h.maxSignatures]
      exact (PrivateKey.checkCommitted_eq_ok_iff.mp hcommitted).2.trans_le h.wellFormed.index_le
    have hlayers := staysIn_signLayersTraced (hparams ▸ e.header_valid) hvalid key.seeds
      (selector == .primary) hindex (s.prfIndex key.secretPrf committed.index) e.params.layers 0
      (s.hMsg (s.prfIndex key.secretPrf committed.index) root committed.index message) key.caches
      (by rw [Nat.zero_add, hparams])
    exact ((staysIn_hMsgTraced s _ root committed.index message).bind
      (hlayers.bind_pure _)).congr hparams hn

/-- **Verification stays in the key**, whatever it is asked to verify. -/
theorem staysIn_verifyTraced (signature : Signature) (message : Bytes) (key : PublicKey) :
    (e.verifyTraced signature message key).StaysIn e.primary := by
  unfold verifyTraced
  split
  next s root hs hroot =>
    split_ifs with hfits
    · obtain ⟨hparams, hn, hvalid⟩ := e.setting_spec hs
      have hindex : signature.index < s.params.maxSignatures := hparams ▸ hfits.2.1
      have hlayers := staysIn_reachedTraced (hparams ▸ e.header_valid) hvalid key.publicSeed
        hindex signature.r signature.layers 0
        (s.hMsg signature.r root signature.index message)
        (by rw [Nat.zero_add, hparams, hfits.1])
      exact ((staysIn_hMsgTraced s signature.r root signature.index message).bind
        (hlayers.bind_pure _)).congr hparams hn
    · exact Traced.staysIn_pure _
  next => exact Traced.staysIn_pure _

/-! ### Key generation -/

section

variable {publicSeed secretSeed secretPrf : Bytes} {nonces : NonceTable}

/-- **The record of the roots** is that of `generateFromSeeds`. -/
theorem generateFromSeeds_eq_value (h : e.SeedsFit publicSeed secretSeed secretPrf nonces) :
    ∃ key, e.generateFromSeeds publicSeed secretSeed secretPrf nonces = .ok (key, key.publicKey) ∧
      (e.rootsTraced ⟨publicSeed, secretSeed, nonces⟩).value = (key.root, key.backupRoot) := by
  obtain ⟨key, hkey, -, hseeds, -, -, hrooted⟩ := generateFromSeeds_eq h
  refine ⟨key, hkey, ?_⟩
  have hroot : key.root = (e.primary.topTree key.seeds).rootValue :=
    Option.some.inj (hrooted .primary)
  have hbackup : key.backupRoot = e.backup?.map fun s => (s.topTree key.seeds).rootValue :=
    hrooted .backup
  have hprimary : e.setting? .primary = some e.primary := rfl
  have hempty : ∀ c ∈ some (NodeCache.empty 0),
      (e.primary.topTree ⟨publicSeed, secretSeed, nonces⟩).Correct c := by
    rintro c ⟨⟩
    exact Tree.holds_empty _ _ _
  -- the first tree fills an empty cache, which holds no wrong node
  have hfirst := Tree.value_treeTraced (h.fits hprimary) hempty
  rw [hroot, hbackup, hseeds, rootsTraced, Traced.value_bind, hfirst]
  cases hs : e.backup? with
  | none => rfl
  | some s =>
    -- the second tree is built without a cache
    have hnone : ∀ c ∈ (none : Option NodeCache),
        (s.topTree ⟨publicSeed, secretSeed, nonces⟩).Correct c := by
      rintro c ⟨⟩
    have hbackup : e.setting? .backup = some s := hs
    have hsecond := Tree.value_treeTraced (h.fits hbackup) hnone
    simp only [Traced.value_bind, Traced.value_pure, hsecond]
    rfl

/-- **Key generation stays in the key.** -/
theorem staysIn_rootsTraced (e : Engine) (seeds : Seeds) :
    (e.rootsTraced seeds).StaysIn e.primary := by
  -- under either digest it is the one tree of the top layer that is built
  have htree : ∀ {selector : Selector} {s : Setting}, e.setting? selector = some s →
      ∀ cache, ((s.topTree seeds).treeTraced cache).StaysIn e.primary := by
    intro selector s hs cache
    obtain ⟨hparams, hn, -⟩ := e.setting_spec hs
    have htop : Caches.HasTree s.params.toHeader (s.params.layers - 1) 0 := by
      rw [hparams]
      exact ⟨Nat.sub_lt e.header_valid.layers_pos one_pos, Nat.two_pow_pos _⟩
    exact (Tree.staysIn_treeTraced (t := s.topTree seeds) htop cache).congr hparams hn
  have hprimary : e.setting? .primary = some e.primary := rfl
  rw [rootsTraced]
  refine (htree hprimary _).bind ?_
  cases hs : e.backup? with
  | none => exact Traced.staysIn_pure _
  | some s =>
    have hbackup : e.setting? .backup = some s := hs
    exact (htree hbackup none).bind_pure _

end

end Engine

end Hypertree
