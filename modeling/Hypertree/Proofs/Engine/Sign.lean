import Hypertree.Proofs.Engine.Layers
import Hypertree.Proofs.Key

/-!
# Keys in the hands of an engine

A key is made for an engine (`PrivateKey.MadeFor`) if it is well formed and has the engine's
geometry and digests, and it is sound (`PrivateKey.SoundFor`) if its caches also hold correct nodes.

`signCommitted_cases` is all that signing with a committed index does to a key made for the engine:
it fails and changes nothing, or it returns a signature of the key and changes the caches, which are
refilled and then cleaned (`signCommitted_refills`). The nodes of the signature have every
hereditary property that those in the caches have, so with a sound key it is the reference
(`signCommitted_sound`). A key that is sound for an engine is sound for every engine that agrees
with it (`SoundFor.congr`), so engines may be exchanged between any two operations.
-/

namespace Hypertree

/-! ### Engines that make the same signatures -/

namespace Engine

/-- Agreement on hash functions, geometry, digests and chain length. Cache policies, workers and
nonce bounds may differ. -/
structure Agrees (e e' : Engine) : Prop where
  suite : e.suite = e'.suite
  height : e.params.height = e'.params.height
  layers : e.params.layers = e'.params.layers
  digest : e.params.digest = e'.params.digest
  backupDigest : e.params.backupDigest = e'.params.backupDigest
  winternitz : e.params.winternitz = e'.params.winternitz

namespace Agrees

variable {e e' : Engine}

theorem refl (e : Engine) : e.Agrees e :=
  ⟨rfl, rfl, rfl, rfl, rfl, rfl⟩

theorem symm (h : e.Agrees e') : e'.Agrees e :=
  ⟨h.suite.symm, h.height.symm, h.layers.symm, h.digest.symm, h.backupDigest.symm,
    h.winternitz.symm⟩

theorem treeHeight (h : e.Agrees e') : e.params.treeHeight = e'.params.treeHeight := by
  rw [Header.treeHeight, Header.treeHeight, h.height, h.layers]

theorem primary (h : e.Agrees e') : e.primary.Agrees e'.primary :=
  ⟨h.suite, h.digest, h.winternitz, h.treeHeight⟩

/-- The settings that a selector names agree. -/
theorem setting? (h : e.Agrees e') {selector : Selector} {s : Setting}
    (hs : e.setting? selector = some s) :
    ∃ s', e'.setting? selector = some s' ∧ s.Agrees s' ∧ s.params.layers = s'.params.layers := by
  cases selector with
  | primary =>
    obtain rfl := Option.some.inj hs
    exact ⟨_, rfl, h.primary, h.layers⟩
  | backup =>
    obtain ⟨d, hd, rfl⟩ := Option.map_eq_some_iff.mp hs
    refine ⟨⟨e'.suite, d, e'.params⟩, ?_, ⟨h.suite, rfl, h.winternitz, h.treeHeight⟩, h.layers⟩
    exact Option.map_eq_some_iff.mpr ⟨d, h.backupDigest ▸ hd, rfl⟩

end Agrees

/-- Parameters that satisfy every constraint make an engine. -/
theorem create_eq (suite : Suite) {params : Params} (h : params.validate = .ok ()) :
    create suite params = .ok ⟨suite, params, h⟩ := by
  unfold create
  split
  · next herror =>
    rw [h] at herror
    exact nomatch herror
  · rfl

variable (e : Engine)

theorem header_valid : e.params.toHeader.Valid :=
  (e.params.validate_eq_ok_iff.mp e.valid).1

/-- Both settings of an engine have its parameters, digests of one size and valid one-time keys. -/
theorem setting_spec {selector : Selector} {s : Setting} (hs : e.setting? selector = some s) :
    s.params = e.params ∧ s.n = e.params.n ∧ s.oneTime.Valid := by
  have hw := (e.params.validate_eq_ok_iff.mp e.valid).2.1
  cases selector with
  | primary =>
    obtain rfl := Option.some.inj hs
    exact ⟨rfl, rfl, Winternitz.valid_of_size _ hw⟩
  | backup =>
    obtain ⟨d, hd, rfl⟩ := Option.map_eq_some_iff.mp hs
    exact ⟨rfl, e.header_valid.backup_size d hd, Winternitz.valid_of_size d hw⟩

/-- One-time signatures under either setting are short. -/
theorem signatureBytes_le {selector : Selector} {s : Setting} (hs : e.setting? selector = some s) :
    s.oneTime.signatureBytes ≤ 2 ^ 20 := by
  have hw := (e.params.validate_eq_ok_iff.mp e.valid).2.1
  rw [← (e.setting_spec hs).1] at hw
  exact Winternitz.signatureBytes_le s.digest hw

/-- A selector can be signed with if its setting is configured and the key has its root. -/
theorem signingRoot_eq_ok_iff {key : PrivateKey} {selector : Selector} {s : Setting}
    {root : Bytes} : e.signingRoot key selector = .ok (s, root) ↔
      e.setting? selector = some s ∧ verificationRoot key.publicKey selector = some root := by
  cases selector with
  | primary =>
    show Except.ok (e.primary, key.root) = _ ↔ some e.primary = some s ∧ some key.root = some root
    simp
  | backup =>
    show e.signingRoot key .backup = _ ↔ e.backup? = some s ∧ key.backupRoot = some root
    unfold signingRoot
    cases e.backup? <;> cases key.backupRoot <;> simp

theorem checkKey_eq_ok_iff {key : PrivateKey} : e.checkKey key = .ok () ↔
    key.header.height = e.params.height ∧ key.header.layers = e.params.layers ∧
      key.header.digest = e.params.digest ∧ key.header.backupDigest = e.params.backupDigest ∧
      key.nonces.size = e.params.leavesPerTree :=
  guard_eq_ok_iff.trans <| and_congr_right' <| guard_eq_ok_iff.trans <| and_congr_right' <|
    guard_eq_ok_iff.trans <| and_congr_right' <| guard_eq_ok_iff.trans <| and_congr_right' <|
      guard_pure_eq_ok_iff

/-- What has to hold before a committed index is signed with. -/
theorem prepare_eq_ok_iff {key : PrivateKey} {committed : CommittedIndex} {selector : Selector}
    {p : Setting × Bytes} : e.prepare key committed selector = .ok p ↔
      e.checkKey key = .ok () ∧ key.checkCommitted committed = .ok () ∧
        e.signingRoot key selector = .ok p := by
  unfold prepare
  cases e.checkKey key with
  | error err => simp [bind, Except.bind]
  | ok =>
    cases key.checkCommitted committed with
    | error err => simp [bind, Except.bind]
    | ok => simp [bind, Except.bind]

/-- **The reference signature for a key**, computed without any cache from its seeds, nonces,
randomizer key and roots. There is none for a selector that is not configured. -/
def reference? (key : PrivateKey) (selector : Selector) (index : Nat) (message : Bytes) :
    Option Signature := do
  let s ← e.setting? selector
  let root ← verificationRoot key.publicKey selector
  return s.reference key.seeds key.secretPrf root selector index message

theorem reference?_eq {key : PrivateKey} {selector : Selector} {s : Setting} {root : Bytes}
    (hs : e.setting? selector = some s)
    (hroot : verificationRoot key.publicKey selector = some root)
    (index : Nat) (message : Bytes) : e.reference? key selector index message
      = some (s.reference key.seeds key.secretPrf root selector index message) := by
  simp only [reference?, hs, hroot, Option.bind_eq_bind, Option.bind_some]
  rfl

theorem reference?_eq_some_iff {key : PrivateKey} {selector : Selector} {index : Nat}
    {message : Bytes} {signature : Signature} :
    e.reference? key selector index message = some signature ↔
      ∃ s root, e.setting? selector = some s ∧
        verificationRoot key.publicKey selector = some root ∧
        s.reference key.seeds key.secretPrf root selector index message = signature := by
  simp only [reference?, Option.bind_eq_bind, Option.bind_eq_some_iff]
  constructor
  · rintro ⟨s, hs, root, hroot, hsig⟩
    exact ⟨s, root, hs, hroot, Option.some.inj hsig⟩
  · rintro ⟨s, root, hs, hroot, hsig⟩
    exact ⟨s, hs, root, hroot, congrArg some hsig⟩

/-- The place of every layer of a reference. -/
theorem reference?_leaf_eq {key : PrivateKey} {selector : Selector} {index : Nat} {message : Bytes}
    {signature : Signature} (h : e.reference? key selector index message = some signature) :
    signature.index = index ∧ ∀ x ∈ signature.layers, x.layer < e.params.layers ∧
      x.leaf = leafIndex signature.index x.layer e.params.treeHeight := by
  obtain ⟨s, root, hs, -, rfl⟩ := e.reference?_eq_some_iff.mp h
  refine ⟨rfl, ?_⟩
  intro x hx
  obtain ⟨layer, hlayer, rfl⟩ := List.mem_map.mp hx
  rw [(e.setting_spec hs).1, List.mem_range] at hlayer
  refine ⟨hlayer, ?_⟩
  rw [← (e.setting_spec hs).1]
  rfl

/-- Above the bottom layer, what a one-time key contributes to references under one selector is the
same in all of them. -/
theorem reference?_ots_eq {key : PrivateKey} {selector : Selector} {i j : Nat} {m m' : Bytes}
    {sig sig' : Signature} (h : e.reference? key selector i m = some sig)
    (h' : e.reference? key selector j m' = some sig') {x y : TreeSignature} (hx : x ∈ sig.layers)
    (hy : y ∈ sig'.layers) (hlayer : x.layer = y.layer) (hbottom : x.layer ≠ 0)
    (htree : treeIndex sig.index x.layer e.params.treeHeight
      = treeIndex sig'.index y.layer e.params.treeHeight)
    (hleaf : x.leaf = y.leaf) : x.ots = y.ots := by
  obtain ⟨s, root, hs, hroot, rfl⟩ := e.reference?_eq_some_iff.mp h
  obtain ⟨s', root', hs', hroot', rfl⟩ := e.reference?_eq_some_iff.mp h'
  -- one selector names one setting, and the two entries are of one layer
  obtain rfl := Option.some.inj (hs.symm.trans hs')
  obtain ⟨layer, -, rfl⟩ := List.mem_map.mp hx
  obtain ⟨layer', -, rfl⟩ := List.mem_map.mp hy
  obtain rfl : layer = layer' := hlayer
  rw [← (e.setting_spec hs).1] at htree
  -- above the bottom the signed message is a root, which the leaf of the layer determines
  have hh : s.params.treeHeight ≤ 32 := by
    rw [(e.setting_spec hs).1]
    exact le_trans e.header_valid.treeHeight_le (by decide)
  exact Setting.layerOts_eq_of_leafAt_eq hh hbottom htree hleaf _ _

/-- Engines that agree have the same reference. -/
theorem Agrees.reference?_eq {e e' : Engine} (h : e.Agrees e') : e.reference? = e'.reference? := by
  -- agreement is symmetric, so one inclusion is enough
  have hle : ∀ {e e' : Engine}, e.Agrees e' → ∀ {key selector index message signature},
      e.reference? key selector index message = some signature →
      e'.reference? key selector index message = some signature := by
    intro e e' h key selector index message signature hsig
    obtain ⟨s, root, hs, hroot, rfl⟩ := e.reference?_eq_some_iff.mp hsig
    obtain ⟨s', hs', hagree, hlayers⟩ := h.setting? hs
    rw [e'.reference?_eq hs' hroot, hagree.reference_eq hlayers]
  funext key selector index message
  ext signature
  exact ⟨hle h, hle h.symm⟩

end Engine

/-! ### Keys of an engine -/

namespace PrivateKey

/-- The key has the geometry and the digests of an engine. -/
structure Matches (key : PrivateKey) (e : Engine) : Prop where
  height : key.header.height = e.params.height
  layers : key.header.layers = e.params.layers
  digest : key.header.digest = e.params.digest
  backupDigest : key.header.backupDigest = e.params.backupDigest

/-- A well-formed key with the geometry and the digests of an engine. -/
structure MadeFor (key : PrivateKey) (e : Engine) : Prop extends key.Matches e where
  wellFormed : key.WellFormed

/-- A key made for an engine whose caches hold correct nodes. -/
structure SoundFor (key : PrivateKey) (e : Engine) : Prop extends key.MadeFor e where
  caches : key.caches.Correct e.primary key.seeds

/-- Dropping nodes that later signatures do not need leaves a well-formed key, under any engine. -/
theorem WellFormed.evict {key : PrivateKey} (h : key.WellFormed) (e : Engine) :
    (e.evict key).2.WellFormed :=
  h.update h.index_le (h.caches.clean _ _ _ _ fun _ _ _ _ hc => ⟨hc.1, hc.2.shake _ _ _⟩)

section

variable {key : PrivateKey} {e : Engine} {V : NodeProperty}

namespace MadeFor

theorem treeHeight (h : key.MadeFor e) : key.header.treeHeight = e.params.treeHeight := by
  rw [Header.treeHeight, Header.treeHeight, h.height, h.layers]

theorem n_eq (h : key.MadeFor e) : key.header.n = e.params.n := by
  rw [Header.n, Header.n, h.digest]

theorem maxSignatures (h : key.MadeFor e) :
    key.header.maxSignatures = e.params.maxSignatures := by
  rw [Header.maxSignatures, Header.maxSignatures, h.height]

theorem checkKey (h : key.MadeFor e) : e.checkKey key = .ok () := by
  refine e.checkKey_eq_ok_iff.mpr ⟨h.height, h.layers, h.digest, h.backupDigest, ?_⟩
  rw [h.wellFormed.nonces, Header.leavesPerTree, Header.leavesPerTree, h.treeHeight]

theorem fits (h : key.MadeFor e) {selector : Selector} {s : Setting}
    (hs : e.setting? selector = some s) : s.Fits key.seeds := by
  obtain ⟨hparams, hn, hvalid⟩ := e.setting_spec hs
  refine ⟨?_, ?_, ?_, hvalid, ?_⟩
  · rw [hn, ← h.n_eq]; exact h.wellFormed.publicSeed
  · rw [hn, ← h.n_eq]; exact h.wellFormed.secretSeed
  · rw [hparams, ← h.treeHeight]; exact h.wellFormed.nonces
  · rw [hparams]; exact e.header_valid.treeHeight_le

/-- Keys with the same places and the same header have caches in range together. -/
theorem inRange_iff (h : key.MadeFor e) (caches : Caches) :
    caches.InRange key.header ↔ caches.InRange e.params.toHeader := by
  simp only [Caches.InRange, Caches.HasTree, h.layers, h.height, h.treeHeight, h.n_eq]

theorem update (h : key.MadeFor e) {index : Nat} {caches : Caches}
    (hindex : index ≤ key.header.maxSignatures) (hrange : caches.InRange key.header) :
    { key with index, caches }.MadeFor e :=
  { h with wellFormed := h.wellFormed.update hindex hrange }

/-- Taking the next index leaves a key made for the engine. -/
theorem advance (h : key.MadeFor e) (hindex : key.index < key.header.maxSignatures) :
    { key with index := key.index + 1 }.MadeFor e :=
  h.update hindex h.wellFormed.caches

/-- Signing with caches leaves caches in range, and keeps what holds of their nodes. -/
theorem refills (h : key.MadeFor e) (hV : ∀ t : Tree, t.Hereditary (V t)) {index : Nat}
    (hindex : index < key.header.maxSignatures) {caches : Caches}
    (hholds : key.caches.Holds V e.primary key.seeds)
    (hrefills :
      Relation.ReflTransGen (Caches.Refills V e.primary key.seeds index) key.caches caches) :
    caches.InRange key.header ∧ caches.Holds V e.primary key.seeds := by
  rw [h.maxSignatures] at hindex
  rw [h.inRange_iff]
  -- one refill for each layer that is signed
  induction hrefills with
  | refl => exact ⟨(h.inRange_iff _).mp h.wellFormed.caches, hholds⟩
  | tail _ hstep ih =>
    exact ⟨ih.1.refills (s := e.primary) hV e.header_valid rfl hindex hstep, ih.2.refills hstep⟩

/-- The nodes in the caches have the size of a digest. -/
theorem holds_isSized (h : key.MadeFor e) :
    key.caches.Holds Tree.IsSized e.primary key.seeds := by
  intro layer tree cache hcache z i x _ hget
  have hrange := (h.wellFormed.caches layer tree cache hcache).2 z i x hget
  exact hrange.2.2.trans h.n_eq

end MadeFor

namespace SoundFor

theorem congr {e' : Engine} (hagree : e.Agrees e') (h : key.SoundFor e) : key.SoundFor e' where
  wellFormed := h.wellFormed
  height := h.height.trans hagree.height
  layers := h.layers.trans hagree.layers
  digest := h.digest.trans hagree.digest
  backupDigest := h.backupDigest.trans hagree.backupDigest
  caches := by
    intro layer tree cache hcache z i x hnode hget
    rw [← hagree.primary.nodeValue_eq]
    refine h.caches layer tree cache hcache z i x ?_ hget
    unfold Tree.HasNode Tree.height at hnode ⊢
    rw [hagree.primary.treeHeight]
    exact hnode

theorem update (h : key.SoundFor e) {index : Nat} {caches : Caches}
    (hindex : index ≤ key.header.maxSignatures) (hrange : caches.InRange key.header)
    (hcorrect : caches.Correct e.primary key.seeds) : { key with index, caches }.SoundFor e :=
  { h with wellFormed := h.wellFormed.update hindex hrange, caches := hcorrect }

/-- Taking the next index leaves a sound key. -/
theorem advance (h : key.SoundFor e) (hindex : key.index < key.header.maxSignatures) :
    { key with index := key.index + 1 }.SoundFor e :=
  h.update hindex h.wellFormed.caches h.caches

theorem evict (h : key.SoundFor e) : (e.evict key).2.SoundFor e :=
  h.update h.wellFormed.index_le (h.wellFormed.evict e).caches
    (h.caches.clean _ _ _ _ fun _ _ _ _ hc => Tree.Holds.shake hc _ _ _)

end SoundFor

end

end PrivateKey

/-! ### Signing -/

namespace Engine

variable {e : Engine} {key : PrivateKey} {V : NodeProperty}

/-- A signature of a message at an index under one of the engine's settings, with the layers of the
key. -/
def Signs (e : Engine) (V : NodeProperty) (key : PrivateKey) (selector : Selector) (index : Nat)
    (message : Bytes) (signature : Signature) : Prop :=
  ∃ s root, e.setting? selector = some s ∧
    verificationRoot key.publicKey selector = some root ∧ signature.selector = selector ∧
    signature.index = index ∧ signature.r = s.prfIndex key.secretPrf index ∧
    signature.layers.length = e.params.layers ∧
    SignedLayers V s key.seeds index signature.r 0 (s.hMsg signature.r root index message)
      signature.layers

/-- A signature whose nodes have their values is the reference. -/
theorem Signs.reference?_eq {selector : Selector} {index : Nat} {message : Bytes}
    {signature : Signature} (h : e.Signs Tree.IsValue key selector index message signature) :
    e.reference? key selector index message = some signature := by
  obtain ⟨s, root, hs, hroot, hselector, hindex, hr, hlength, hlayers⟩ := h
  -- node values leave no choice for a layer; the other fields are those of the reference
  have heq := SignedLayers.eq_map (s.hMsg signature.r root index message) 0 hlayers
  obtain ⟨selector', index', r, layers⟩ := signature
  obtain rfl : selector' = selector := hselector
  obtain rfl : index' = index := hindex
  obtain rfl : r = s.prfIndex key.secretPrf index' := hr
  rw [e.reference?_eq hs hroot, Setting.reference, (e.setting_spec hs).1, ← hlength,
    List.range_eq_range', ← heq]

/-- Signing with a committed index, under any engine and with any key, keeps the next index, and a
signature carries the committed index. -/
theorem signCommitted_index (e : Engine) (key : PrivateKey) (committed : CommittedIndex)
    (message : Bytes) (selector : Selector) :
    (e.signCommitted key committed message selector).2.index = key.index ∧
      ∀ signature, (e.signCommitted key committed message selector).1 = .ok signature →
        signature.index = committed.index := by
  rw [signCommitted]
  cases e.prepare key committed selector with
  | error err => exact ⟨rfl, fun _ hok => nomatch hok⟩
  | ok p =>
    obtain ⟨s, root⟩ := p
    dsimp only
    generalize signLayers _ _ _ _ _ _ _ _ _ = signed
    obtain ⟨layers, caches⟩ := signed
    cases layers with
    | error err => exact ⟨rfl, fun _ hok => nomatch hok⟩
    | ok layers =>
      refine ⟨?_, fun _ hok => Except.ok.inj hok ▸ rfl⟩
      cases selector <;> rfl

/-- With a committed index that is accepted there is a signature. Under the primary digest the
caches are refilled for it, and then rid of what later signatures do not need; the second digest
signs without caches. -/
theorem signCommitted_refills (h : key.MadeFor e) (hV : ∀ t : Tree, t.Hereditary (V t))
    (hholds : key.caches.Holds V e.primary key.seeds) {committed : CommittedIndex}
    (message : Bytes) {selector : Selector} {p : Setting × Bytes}
    (hp : e.prepare key committed selector = .ok p) :
    ∃ signature caches, e.Signs V key selector committed.index message signature ∧
      e.signCommitted key committed message selector = (.ok signature,
        if selector == .primary then (e.evict { key with caches }).2 else key) ∧
      Relation.ReflTransGen (Caches.Refills V e.primary key.seeds committed.index) key.caches
        caches ∧ caches.InRange key.header ∧ caches.Holds V e.primary key.seeds := by
  obtain ⟨s, root⟩ := p
  obtain ⟨-, hcommitted, hroot⟩ := e.prepare_eq_ok_iff.mp hp
  obtain ⟨hs, hkeyRoot⟩ := e.signingRoot_eq_ok_iff.mp hroot
  have hparams := (e.setting_spec hs).1
  have hindex : committed.index < key.header.maxSignatures :=
    lt_of_lt_of_le (PrivateKey.checkCommitted_eq_ok_iff.mp hcommitted).2 h.wellFormed.index_le
  -- only the primary setting signs with the caches, so only there must they hold `V`
  have hcaches : (selector == .primary) = true → key.caches.Holds V s key.seeds := by
    intro hsel
    obtain rfl : selector = .primary := by simpa using hsel
    obtain rfl := Option.some.inj hs
    exact hholds
  obtain ⟨layers, caches, hsign, hlength, hlayers, hrefills⟩ := signLayers_holds hV (h.fits hs)
    (selector == .primary) committed.index (s.prfIndex key.secretPrf committed.index)
    s.params.layers 0 _ key.caches (Nat.zero_add _)
    (s.length_hMsg (s.prfIndex key.secretPrf committed.index) root committed.index message)
    hcaches
  rw [hparams] at hsign hlength
  have hsigns : e.Signs V key selector committed.index message
      ⟨selector, committed.index, s.prfIndex key.secretPrf committed.index, layers⟩ :=
    ⟨s, root, hs, hkeyRoot, rfl, rfl, rfl, hlength, hlayers⟩
  refine ⟨_, caches, hsigns, ?_, ?_⟩
  · -- signing returns these layers, and evicts if it used the caches
    rw [signCommitted, hp]
    simp only [hsign]
    cases selector with
    | primary => rfl
    | backup =>
      obtain rfl : caches = key.caches := hrefills
      rfl
  · -- what the layers did to the caches; with the second digest, nothing
    cases selector with
    | primary =>
      obtain rfl := Option.some.inj hs
      exact ⟨hrefills, h.refills hV hindex hholds hrefills⟩
    | backup =>
      obtain rfl : caches = key.caches := hrefills
      exact ⟨Relation.ReflTransGen.refl, h.wellFormed.caches, hholds⟩

/-- **All that signing with a committed index does** to a key made for the engine. -/
theorem signCommitted_cases (h : key.MadeFor e) (hV : ∀ t : Tree, t.Hereditary (V t))
    (hholds : key.caches.Holds V e.primary key.seeds) (committed : CommittedIndex)
    (message : Bytes) (selector : Selector) :
    (∃ err, e.prepare key committed selector = .error err ∧
        e.signCommitted key committed message selector = (.error err, key)) ∨
      ∃ p signature caches, e.prepare key committed selector = .ok p ∧
        e.Signs V key selector committed.index message signature ∧
        e.signCommitted key committed message selector = (.ok signature, { key with caches }) ∧
        caches.InRange key.header ∧ caches.Holds V e.primary key.seeds := by
  cases hp : e.prepare key committed selector with
  | error err =>
    refine Or.inl ⟨err, rfl, ?_⟩
    rw [signCommitted, hp]
  | ok p =>
    refine Or.inr ?_
    obtain ⟨signature, caches, hsigns, hout, -, hrange, hfilled⟩ :=
      signCommitted_refills h hV hholds message hp
    rw [hout]
    cases selector with
    | primary =>
      refine ⟨p, signature, (e.evict { key with caches }).2.caches, rfl, hsigns, rfl, ?_, ?_⟩
      · -- the nodes that stay are among those that were there, so they are in range
        exact hrange.clean _ _ _ _ fun _ _ _ _ hc => ⟨hc.1, hc.2.shake _ _ _⟩
      · exact hfilled.clean _ _ _ _ fun _ _ _ _ hc => hc.shake _ _ _
    | backup =>
      exact ⟨p, signature, key.caches, rfl, hsigns, rfl, h.wellFormed.caches, hholds⟩

/-- The same for a sound key: what it returns is the reference. -/
theorem signCommitted_sound (h : key.SoundFor e) (committed : CommittedIndex) (message : Bytes)
    (selector : Selector) :
    (∃ err, e.prepare key committed selector = .error err ∧
        e.signCommitted key committed message selector = (.error err, key)) ∨
      ∃ p signature caches, e.prepare key committed selector = .ok p ∧
        e.reference? key selector committed.index message = some signature ∧
        e.signCommitted key committed message selector = (.ok signature, { key with caches }) ∧
        { key with caches }.SoundFor e := by
  refine (signCommitted_cases h.toMadeFor Tree.hereditary_isValue h.caches committed message
    selector).imp_right ?_
  rintro ⟨p, signature, caches, hp, hsigns, hout, hrange, hholds⟩
  exact ⟨p, signature, caches, hp, hsigns.reference?_eq, hout,
    h.update h.wellFormed.index_le hrange hholds⟩

/-- Signing at the next index is taking it and signing with it, until all indices are used. -/
theorem sign_eq (h : key.MadeFor e) (message : Bytes) (selector : Selector) :
    e.sign key message selector
      = if key.index < key.header.maxSignatures then
          e.signCommitted { key with index := key.index + 1 } ⟨key.index, key.tag⟩ message selector
        else (.error (.keysExhausted key.header.maxSignatures), key) := by
  rw [sign, h.checkKey, PrivateKey.reserve]
  by_cases hindex : key.index < key.header.maxSignatures
  · rw [if_pos hindex, if_neg (Nat.not_le.mpr hindex)]
    rfl
  · rw [if_neg hindex, if_pos (Nat.le_of_not_lt hindex)]

/-- Signing with a committed index keeps the key sound and its index as it was, and what it returns
is the reference. -/
theorem signCommitted_spec (h : key.SoundFor e) (committed : CommittedIndex) (message : Bytes)
    (selector : Selector) :
    (e.signCommitted key committed message selector).2.SoundFor e ∧
      key.Evolves (e.signCommitted key committed message selector).2 ∧
      (e.signCommitted key committed message selector).2.index = key.index ∧
      ∀ signature, (e.signCommitted key committed message selector).1 = .ok signature →
        committed.index < key.index ∧
          e.reference? key selector committed.index message = some signature := by
  obtain ⟨err, -, hout⟩ | ⟨p, signature, caches, hp, href, hout, hsound⟩ :=
    signCommitted_sound h committed message selector
  · rw [hout]
    exact ⟨h, .refl key, rfl, fun _ hok => nomatch hok⟩
  · rw [hout]
    refine ⟨hsound, key.evolves_update _ _, rfl, ?_⟩
    intro signature' hok
    obtain rfl := Except.ok.inj hok
    obtain ⟨-, hcommitted, -⟩ := e.prepare_eq_ok_iff.mp hp
    exact ⟨(PrivateKey.checkCommitted_eq_ok_iff.mp hcommitted).2, href⟩

/-- With a committed index of the key, signing has the outcome of the reference. -/
theorem signCommitted_outcome (h : key.SoundFor e) {committed : CommittedIndex}
    (hcommitted : key.checkCommitted committed = .ok ()) (message : Bytes) (selector : Selector) :
    (e.signCommitted key committed message selector).1.toOption
      = e.reference? key selector committed.index message := by
  obtain ⟨err, hp, hout⟩ | ⟨p, signature, caches, hp, href, hout, hsound⟩ :=
    signCommitted_sound h committed message selector
  · rw [hout]
    cases href : e.reference? key selector committed.index message with
    | none => rfl
    | some signature =>
      -- a reference has a setting and a root, so the guards would have let the key pass
      obtain ⟨s, root, hs, hroot, -⟩ := e.reference?_eq_some_iff.mp href
      have hok := e.prepare_eq_ok_iff.mpr
        ⟨h.checkKey, hcommitted, e.signingRoot_eq_ok_iff.mpr ⟨hs, hroot⟩⟩
      rw [hp] at hok
      exact nomatch hok
  · rw [hout, href]
    rfl

/-- A committed index with the tag of another key is refused, and nothing changes. -/
theorem signCommitted_of_tag_ne (h : key.SoundFor e) {committed : CommittedIndex}
    (htag : committed.tag ≠ key.tag) (message : Bytes) (selector : Selector) :
    e.signCommitted key committed message selector = (.error .foreignReservation, key) := by
  have hprepare : e.prepare key committed selector = .error .foreignReservation := by
    rw [prepare, h.checkKey, PrivateKey.checkCommitted_of_tag_ne htag]
    rfl
  rw [signCommitted, hprepare]

/-- The next index of a key, once taken, is one of its committed indices. -/
theorem checkCommitted_next (key : PrivateKey) :
    { key with index := key.index + 1 }.checkCommitted ⟨key.index, key.tag⟩ = .ok () :=
  PrivateKey.checkCommitted_eq_ok_iff.mpr ⟨rfl, Nat.lt_succ_self _⟩

/-- The same for signing at the next index. -/
theorem sign_spec (h : key.SoundFor e) (message : Bytes) (selector : Selector) :
    (e.sign key message selector).2.SoundFor e ∧ key.Evolves (e.sign key message selector).2 ∧
      key.index ≤ (e.sign key message selector).2.index ∧
      ∀ signature, (e.sign key message selector).1 = .ok signature →
        key.index < key.header.maxSignatures ∧
          e.reference? key selector key.index message = some signature := by
  rw [sign_eq h.toMadeFor]
  by_cases hindex : key.index < key.header.maxSignatures
  · -- the index is taken first, and is then committed
    rw [if_pos hindex]
    obtain ⟨hsound, hevolves, hkeep, hok⟩ :=
      signCommitted_spec (h.advance hindex) ⟨key.index, key.tag⟩ message selector
    refine ⟨hsound, (key.evolves_update _ _).trans hevolves, ?_, ?_⟩
    · rw [hkeep]
      exact Nat.le_succ _
    · intro signature hsig
      exact ⟨hindex, (hok signature hsig).2⟩
  · -- all indices are used, and the key stays as it is
    rw [if_neg hindex]
    exact ⟨h, .refl key, le_rfl, fun _ hok => nomatch hok⟩

theorem sign_outcome (h : key.SoundFor e) (message : Bytes) (selector : Selector) :
    (e.sign key message selector).1.toOption
      = if key.index < key.header.maxSignatures then e.reference? key selector key.index message
        else none := by
  rw [sign_eq h.toMadeFor]
  by_cases hindex : key.index < key.header.maxSignatures
  · rw [if_pos hindex, if_pos hindex]
    exact signCommitted_outcome (h.advance hindex) (checkCommitted_next key) message selector
  · rw [if_neg hindex, if_neg hindex]
    rfl

end Engine

end Hypertree
