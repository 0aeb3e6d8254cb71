import Hypertree.Proofs.Engine.Generate
import Hypertree.Proofs.Key.Codec
import Hypertree.Proofs.Signature.Codec

/-!
# Verification

`reachedRoot` is the value of `climbLayers`: the root that the layers of a signature lead to, if
each is in place and has the right sizes. Verification always has an answer, and
`verify_eq_ok_true_iff` says when it is yes.

The reference signature at an index of the key is accepted (`verify_reference`). Each of its layers
leads from what it signs to the root of its tree, which is what the next layer signs, and the tree
of the top layer is the same for all indices.
-/

namespace Hypertree

/-- A layer of a signature is in place and has the right sizes. -/
structure TreeSignature.FitsLayer (signature : TreeSignature) (s : Setting) (index : Nat)
    (r : Bytes) (layer : Nat) : Prop where
  layer_eq : signature.layer = layer
  leaf_eq : signature.leaf = s.leafAt index layer
  r_eq : signature.r = r
  length_auth : signature.auth.length = s.params.treeHeight * s.n
  length_ots : signature.ots.length = s.oneTime.signatureBytes

instance (signature : TreeSignature) (s : Setting) (index : Nat) (r : Bytes) (layer : Nat) :
    Decidable (signature.FitsLayer s index r layer) :=
  decidable_of_iff (signature.layer = layer ∧ signature.leaf = s.leafAt index layer ∧
      signature.r = r ∧ signature.auth.length = s.params.treeHeight * s.n ∧
      signature.ots.length = s.oneTime.signatureBytes)
    ⟨fun h => ⟨h.1, h.2.1, h.2.2.1, h.2.2.2.1, h.2.2.2.2⟩,
      fun h => ⟨h.layer_eq, h.leaf_eq, h.r_eq, h.length_auth, h.length_ots⟩⟩

/-- The root to which the layers of a signature lead from the given layer on. -/
def reachedRoot (s : Setting) (publicSeed : Bytes) (index : Nat) (r : Bytes) :
    (layer : Nat) → (message : Bytes) → List TreeSignature → Option Bytes
  | _, message, [] => some message
  | layer, message, signature :: rest =>
    if signature.FitsLayer s index r layer then
      reachedRoot s publicSeed index r (layer + 1)
        (signatureRoot s publicSeed layer (treeIndex index layer s.params.treeHeight)
          (s.leafAt index layer) signature.ots signature.auth message) rest
    else none

section

variable {s : Setting} {publicSeed r : Bytes} {index : Nat}

/-- **Climbing the layers always has a result.** -/
theorem climbLayers_eq (hp : s.oneTime.Valid) {layers : List TreeSignature} {layer : Nat}
    {message : Bytes} (hm : message.length = s.n) :
    climbLayers s publicSeed index r layer message layers
      = .ok (reachedRoot s publicSeed index r layer message layers) := by
  induction layers generalizing layer message with
  | nil => rfl
  | cons signature rest ih =>
    rw [climbLayers, reachedRoot]
    -- first the place of the layer is checked, then the sizes of its parts
    by_cases hplace : signature.layer = layer ∧
        signature.leaf = leafIndex index layer s.params.treeHeight ∧ signature.r = r
    · rw [if_pos hplace, rootFromSignature_eq hp _ _ _ _ _ _ hm]
      by_cases hsize : FitsTree s (leafIndex index layer s.params.treeHeight) signature.ots
          signature.auth
      · rw [if_pos hsize, if_pos ⟨hplace.1, hplace.2.1, hplace.2.2, hsize.1, hsize.2.2⟩]
        exact ih (length_signatureRoot hsize.2.2)
      · rw [if_neg hsize,
          if_neg fun h => hsize ⟨h.length_auth, s.leafAt_lt index layer, h.length_ots⟩]
        rfl
    · rw [if_neg hplace, if_neg fun h => hplace ⟨h.layer_eq, h.leaf_eq, h.r_eq⟩]
      rfl

/-! ### The reference is accepted -/

variable {seeds : Seeds}

theorem fitsLayer_layerSignature (s : Setting) (seeds : Seeds) (index : Nat) (r digest : Bytes)
    (layer : Nat) :
    (s.layerSignature seeds index r digest layer).FitsLayer s index r layer := by
  obtain ⟨hauth, -, hots⟩ := fitsTree_sign (s.treeAt seeds index layer).hereditary_isValue
    (s.leafAt_lt index layer) (s.layerMessage seeds index digest layer)
    (Tree.isPath_isValue_iff.mpr rfl)
  exact ⟨rfl, rfl, rfl, hauth, hots⟩

/-- The layers of the reference lead from what the first of them signs to what the layer above the
last one would sign. -/
theorem reachedRoot_layerSignature (hp : s.oneTime.Valid) (seeds : Seeds) (index : Nat)
    (r digest : Bytes) (count : Nat) :
    ∀ layer : Nat, reachedRoot s seeds.publicSeed index r layer
        (s.layerMessage seeds index digest layer)
        ((List.range' layer count).map (s.layerSignature seeds index r digest))
      = some (s.layerMessage seeds index digest (layer + count)) := by
  induction count with
  | zero =>
    intro layer
    rfl
  | succ count ih =>
    intro layer
    -- the path leads to the root of the tree, which is what the layer above signs
    have hroot := signatureRoot_holds (s.treeAt seeds index layer).hereditary_isValue hp
      (s.leafAt_lt index layer) (s.layerMessage seeds index digest layer)
      (Tree.isPath_isValue_iff.mpr rfl)
    rw [List.range'_succ, List.map_cons, reachedRoot, if_pos (fitsLayer_layerSignature ..)]
    have hstep : signatureRoot s seeds.publicSeed layer
        (treeIndex index layer s.params.treeHeight) (s.leafAt index layer)
        (s.layerSignature seeds index r digest layer).ots
        (s.layerSignature seeds index r digest layer).auth
        (s.layerMessage seeds index digest layer)
        = s.layerMessage seeds index digest (layer + 1) := hroot
    rw [hstep, ih (layer + 1), Nat.succ_add_eq_add_succ]

/-- At an index of the key, the top layer uses the one tree there. -/
theorem layerMessage_top (hv : s.params.toHeader.Valid) (hindex : index < s.params.maxSignatures)
    (digest : Bytes) :
    s.layerMessage seeds index digest s.params.layers = (s.topTree seeds).rootValue := by
  have hpos := hv.layers_pos
  have hlt : index < 2 ^ (s.params.layers * s.params.treeHeight) := by
    rw [hv.layers_mul_treeHeight]
    exact hindex
  have htop := treeIndex_top hlt hpos
  obtain ⟨top, hsucc⟩ := Nat.exists_eq_succ_of_ne_zero (Nat.pos_iff_ne_zero.mp hpos)
  rw [hsucc, Nat.succ_sub_one] at htop
  rw [hsucc, Setting.layerMessage, Setting.treeAt, htop, Setting.topTree, hsucc, Nat.succ_sub_one]

end

namespace Engine

variable {e : Engine}

/-- A signature of a message is valid for a public key. -/
structure Accepts (e : Engine) (signature : Signature) (message : Bytes) (key : PublicKey)
    (s : Setting) (root : Bytes) : Prop where
  setting_eq : e.setting? signature.selector = some s
  root_eq : verificationRoot key signature.selector = some root
  length_layers : signature.layers.length = e.params.layers
  index_lt : signature.index < e.params.maxSignatures
  length_r : signature.r.length = s.n
  length_root : root.length = s.n
  length_publicSeed : key.publicSeed.length = s.n
  reached : reachedRoot s key.publicSeed signature.index signature.r 0
    (s.hMsg signature.r root signature.index message) signature.layers = some root

/-- Without a setting or a root for its selector, a signature is not accepted. -/
theorem verify_of_none {signature : Signature} {key : PublicKey}
    (h : e.setting? signature.selector = none ∨ verificationRoot key signature.selector = none)
    (message : Bytes) : e.verify signature message key = .ok false := by
  unfold verify
  rcases h with hs | hroot
  · rw [hs]
    rfl
  · rw [hroot]
    cases e.setting? signature.selector with
    | none => rfl
    | some s => rfl

/-- With a setting and a root, the sizes and the root that the layers reach decide. -/
theorem verify_eq {signature : Signature} {key : PublicKey} {s : Setting} {root : Bytes}
    (hs : e.setting? signature.selector = some s)
    (hroot : verificationRoot key signature.selector = some root) (message : Bytes) :
    e.verify signature message key
      = .ok (if signature.layers.length = e.params.layers ∧
            signature.index < e.params.maxSignatures ∧ signature.r.length = s.n ∧
            root.length = s.n ∧ key.publicSeed.length = s.n
          then reachedRoot s key.publicSeed signature.index signature.r 0
            (s.hMsg signature.r root signature.index message) signature.layers == some root
          else false) := by
  -- the climb of a sized digest cannot fail, it only refuses
  have hclimb : climbLayers s key.publicSeed signature.index signature.r 0
      (s.hMsg signature.r root signature.index message) signature.layers
      = .ok (reachedRoot s key.publicSeed signature.index signature.r 0
        (s.hMsg signature.r root signature.index message) signature.layers) :=
    climbLayers_eq (e.setting_spec hs).2.2 (s.length_hMsg ..)
  unfold verify
  rw [hs, hroot]
  simp only [hclimb]
  split_ifs
  · cases reachedRoot s key.publicSeed signature.index signature.r 0
        (s.hMsg signature.r root signature.index message) signature.layers with
    | none => rfl
    | some reached => rfl
  · rfl

/-- **What verification answers.** -/
theorem verify_eq_ok_true_iff {signature : Signature} {message : Bytes} {key : PublicKey} :
    e.verify signature message key = .ok true ↔
      ∃ s root, e.Accepts signature message key s root := by
  constructor
  · -- acceptance leaves one branch, with every condition on the way to it
    intro h
    cases hs : e.setting? signature.selector with
    | none =>
      rw [verify_of_none (Or.inl hs)] at h
      exact nomatch h
    | some s =>
      cases hroot : verificationRoot key signature.selector with
      | none =>
        rw [verify_of_none (Or.inr hroot)] at h
        exact nomatch h
      | some root =>
        rw [verify_eq hs hroot] at h
        have hanswer := Except.ok.inj h
        split_ifs at hanswer with hfits
        obtain ⟨hlayers, hindex, hr, hlen, hseed⟩ := hfits
        exact ⟨s, root, hs, hroot, hlayers, hindex, hr, hlen, hseed, eq_of_beq hanswer⟩
  · rintro ⟨s, root, h⟩
    rw [verify_eq h.setting_eq h.root_eq, if_pos ⟨h.length_layers, h.index_lt, h.length_r,
      h.length_root, h.length_publicSeed⟩, h.reached, beq_self_eq_true]

/-- **The reference signature is accepted** at every index of the key. -/
theorem verify_reference {selector : Selector} {s : Setting} (hs : e.setting? selector = some s)
    {seeds : Seeds} (hseed : seeds.publicSeed.length = s.n) {key : PublicKey}
    (hkey : key.publicSeed = seeds.publicSeed)
    (hroot : verificationRoot key selector = some (s.topTree seeds).rootValue)
    {index : Nat} (hindex : index < e.params.maxSignatures) (secretPrf message : Bytes) :
    e.verify (s.reference seeds secretPrf (s.topTree seeds).rootValue selector index message)
      message key = .ok true := by
  obtain ⟨hparams, -, hp⟩ := e.setting_spec hs
  refine verify_eq_ok_true_iff.mpr ⟨s, (s.topTree seeds).rootValue, hs, hroot, ?_, hindex,
    s.length_prfIndex .., Tree.length_nodeValue .., hkey ▸ hseed, ?_⟩
  · simp [Setting.reference, hparams]
  · -- past all layers the message reached is the root of the top tree
    have h := reachedRoot_layerSignature hp seeds index (s.prfIndex secretPrf index)
      (s.hMsg (s.prfIndex secretPrf index) (s.topTree seeds).rootValue index message)
      s.params.layers 0
    rw [← List.range_eq_range', Nat.zero_add,
      layerMessage_top (by rw [hparams]; exact e.header_valid)
        (by rw [hparams]; exact hindex)] at h
    rw [hkey]
    exact h

/-- **The reference for a rooted key is accepted** under every public key with its public seed and
its root. -/
theorem verify_of_reference? {key : PrivateKey} (h : key.SoundFor e) (hrooted : key.Rooted e)
    {selector : Selector} {index : Nat} (hindex : index < key.header.maxSignatures)
    {message : Bytes} {signature : Signature}
    (href : e.reference? key selector index message = some signature) {pk : PublicKey}
    (hseed : pk.publicSeed = key.publicSeed)
    (hroot : verificationRoot pk selector = verificationRoot key.publicKey selector) :
    e.verify signature message pk = .ok true := by
  obtain ⟨s, root, hs, hkeyRoot, rfl⟩ := e.reference?_eq_some_iff.mp href
  have htop := hrooted selector
  rw [hkeyRoot, hs, Option.map_some, Option.some.injEq] at htop
  subst htop
  rw [h.maxSignatures] at hindex
  exact verify_reference hs (h.fits hs).publicSeed hseed (hroot.trans hkeyRoot) hindex _ _

/-! ### Encoded signatures -/

/-- A layer of the right sizes fits into the encoding of signatures. -/
theorem encodable_of_fitsLayer {selector : Selector} {s : Setting}
    (hs : e.setting? selector = some s) {index : Nat} {r : Bytes} (hr : r.length = s.n)
    {layer : Nat} (hlayer : layer < e.params.layers) {x : TreeSignature}
    (h : x.FitsLayer s index r layer) : x.Encodable e.params.n e.params.treeHeight := by
  obtain ⟨hparams, hn, -⟩ := e.setting_spec hs
  have hv := e.header_valid
  obtain ⟨rfl, hleaf, rfl, hauth, hots⟩ := h
  refine ⟨le_trans hlayer.le (le_trans hv.layers_le (by decide)), hr.trans hn, ?_, ?_, ?_⟩
  · rw [hleaf]
    refine lt_of_lt_of_le (s.leafAt_lt index x.layer) (Nat.pow_le_pow_right (by decide) ?_)
    rw [hparams]
    exact le_trans hv.treeHeight_le (by decide)
  · rw [hauth, hparams, hn]
  · -- the randomizer, the leaf, the one-time signature and the path are all short
    have hvarint : Bytes.varintLength (UInt64.ofNat x.leaf) ≤ 10 :=
      Decoder.varintLength_le (by decide) _ (lt_trans (UInt64.toNat_lt _) (by decide))
    have hshort := e.signatureBytes_le hs
    have hsize : s.n ≤ 64 := by
      unfold Setting.n
      cases s.digest <;> decide
    have hpath : s.params.treeHeight * s.n ≤ 20 * 64 := by
      rw [hparams]
      exact Nat.mul_le_mul hv.treeHeight_le hsize
    have hbody : x.bodyLength = s.n + Bytes.varintLength (UInt64.ofNat x.leaf)
        + s.oneTime.signatureBytes + s.params.treeHeight * s.n := by
      rw [TreeSignature.bodyLength, hr, hauth, hots]
    omega

/-- The reference fits into the encoding of signatures. -/
theorem encodable_reference {key : PrivateKey} (h : key.SoundFor e) {selector : Selector}
    {index : Nat} (hindex : index < key.header.maxSignatures) {message : Bytes}
    {signature : Signature} (href : e.reference? key selector index message = some signature) :
    signature.Encodable e.params.n e.params.treeHeight := by
  obtain ⟨s, root, hs, -, rfl⟩ := e.reference?_eq_some_iff.mp href
  obtain ⟨hparams, hn, -⟩ := e.setting_spec hs
  have hr : (s.prfIndex key.secretPrf index).length = s.n := s.length_prfIndex ..
  refine ⟨?_, hr.trans hn, ?_, ?_⟩
  · -- the height of a key bounds its indices
    refine lt_of_lt_of_le hindex (Nat.pow_le_pow_right (by decide) ?_)
    exact le_trans h.wellFormed.header.height_le (by decide)
  · unfold Setting.reference
    rw [List.length_map, List.length_range, hparams]
    exact le_trans e.header_valid.layers_le (by decide)
  · intro x hx
    obtain ⟨layer, hlayer, rfl⟩ := List.mem_map.mp hx
    rw [List.mem_range, hparams] at hlayer
    exact encodable_of_fitsLayer hs hr hlayer (fitsLayer_layerSignature ..)

/-- **The encoding of the reference is accepted** under the encoded public key. For the backup
selector the backup root must not be all zeros, as that stands for none. -/
theorem verifyBytes_of_reference? {key : PrivateKey} (h : key.SoundFor e) (hrooted : key.Rooted e)
    {selector : Selector} {index : Nat} (hindex : index < key.header.maxSignatures)
    {message : Bytes} {signature : Signature}
    (href : e.reference? key selector index message = some signature)
    (hzero : selector = .backup → key.backupRoot ≠ some (Bytes.zeros e.params.n)) :
    e.verifyBytes signature.toBytes message key.publicKey.toBytes = .ok true := by
  have hwf := h.wellFormed
  have hn : key.header.n = e.params.digest.size := h.n_eq
  have hroot : key.publicKey.root.length = e.params.digest.size := hwf.root.trans hn
  have hbackup : ∀ root, key.publicKey.backupRoot = some root →
      root.length = e.params.digest.size := by
    intro root hroot
    exact (hwf.backupRoot root hroot).trans hn
  have hkey := PublicKey.ofBytes_toBytes e.params.digest hroot hbackup (hwf.publicSeed.trans hn)
  unfold verifyBytes
  rw [hkey]
  simp only [bind, Except.bind, Signature.ofBytes_toBytes (encodable_reference h hindex href)]
  -- decoding loses a second root of zeros and nothing else
  refine verify_of_reference? h hrooted hindex href rfl ?_
  cases selector with
  | primary => rfl
  | backup =>
    show key.backupRoot.filter (fun root => !Bytes.isZero root) = key.backupRoot
    cases hroot : key.backupRoot with
    | none => rfl
    | some root =>
      have hnonzero : ¬ Bytes.isZero root := by
        intro hz
        apply hzero rfl
        rw [hroot, Bytes.eq_zeros_of_isZero hz, hwf.backupRoot root hroot, h.n_eq]
      simp [Option.filter, hnonzero]

end Engine

end Hypertree
