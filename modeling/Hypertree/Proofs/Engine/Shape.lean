import Hypertree.Proofs.Engine.Outcome

/-!
# The shape of signatures

Parameters say what the signature at an index looks like before it is made (`Params.Predicts`): how
many layers it has and where they stand, how long their parts are, and how long the encoding of the
whole is. The last of these follows from the others: `Params.signatureBytes` is a sum over the layers
that knows nothing of a signature, and `PredictsLayer.bodyLength_eq` says that each of its terms is
what the writer puts there.

Both ends of a signature's life keep to the prediction. Verification climbs only through layers that
fit (`fitsLayer_of_reachedRoot`), and signing with a well-formed key makes no others (`sign_shapes`).
Every key that a signer can come to hold is well formed (`PrivateKey.Usable.wellFormed`).
-/

namespace Hypertree

/-! ### The prediction -/

namespace Params

/-- A layer of the signature at an index with a given randomizer is as the parameters predict. -/
structure PredictsLayer (p : Params) (index : Nat) (r : Bytes) (layer : Nat)
    (s : TreeSignature) : Prop where
  layer_eq : s.layer = layer
  leaf_eq : s.leaf = leafIndex index layer p.treeHeight
  r_eq : s.r = r
  length_ots : s.ots.length = p.oneTime.chains * p.n
  length_auth : s.auth.length = p.treeHeight * p.n

/-- A signature is as the parameters predict, as a value and as a string. -/
structure Predicts (p : Params) (signature : Signature) : Prop where
  index_lt : signature.index < 2 ^ p.height
  length_r : signature.r.length = p.n
  length_layers : signature.layers.length = p.layers
  layers : ∀ (i : Nat) (hi : i < signature.layers.length),
    p.PredictsLayer signature.index signature.r i signature.layers[i]
  length_toBytes : signature.toBytes.length = p.signatureBytes signature.index

end Params

/-! ### The size of an encoding -/

theorem TreeSignature.length_toBytes (s : TreeSignature) :
    s.toBytes.length
      = 1 + Bytes.varintLength (UInt64.ofNat s.bodyLength) + s.bodyLength := by
  rw [toBytes, List.length_cons, List.length_append, Decoder.length_varint, length_body]
  omega

theorem Signature.length_toBytes (s : Signature) :
    s.toBytes.length = 2 + Bytes.varintLength (UInt64.ofNat s.index) + s.r.length + 1
      + (s.layers.map fun layer => layer.toBytes.length).sum := by
  simp only [toBytes, List.length_cons, List.length_append, Decoder.length_varint,
    List.length_flatMap]
  omega

section

variable {p : Params} {index : Nat} {r : Bytes}

/-- The parts of a predicted layer add up to the predicted body. -/
theorem Params.PredictsLayer.bodyLength_eq {layer : Nat} {s : TreeSignature}
    (h : p.PredictsLayer index r layer s) (hr : r.length = p.n) :
    s.bodyLength = p.layerBytes index layer := by
  rw [TreeSignature.bodyLength, h.r_eq, hr, h.leaf_eq, h.length_ots, h.length_auth]
  rfl

/-- The predicted layers add up to what is predicted for all of them. -/
theorem Params.map_length_toBytes {layers : List TreeSignature} (hr : r.length = p.n)
    (hlength : layers.length = p.layers)
    (hlayers : ∀ (i : Nat) (hi : i < layers.length), p.PredictsLayer index r i layers[i]) :
    (layers.map fun layer => layer.toBytes.length)
      = (List.range p.layers).map fun layer =>
          1 + Bytes.varintLength (UInt64.ofNat (p.layerBytes index layer))
            + p.layerBytes index layer := by
  apply List.ext_getElem
  · simp [hlength]
  · intro i hi _
    rw [List.length_map] at hi
    rw [List.getElem_map, List.getElem_map, List.getElem_range, TreeSignature.length_toBytes,
      (hlayers i hi).bodyLength_eq hr]

/-- A signature whose index and parts are as predicted has an encoding of the predicted size. -/
theorem Params.predicts_of_layers {signature : Signature} (hindex : signature.index < 2 ^ p.height)
    (hr : signature.r.length = p.n) (hlength : signature.layers.length = p.layers)
    (hlayers : ∀ (i : Nat) (hi : i < signature.layers.length),
      p.PredictsLayer signature.index signature.r i signature.layers[i]) :
    p.Predicts signature where
  index_lt := hindex
  length_r := hr
  length_layers := hlength
  layers := hlayers
  length_toBytes := by
    rw [Signature.length_toBytes, hr, map_length_toBytes hr hlength hlayers]
    rfl

/-- The layers that lead to a root are in place and have the right sizes. -/
theorem fitsLayer_of_reachedRoot {s : Setting} {publicSeed root : Bytes}
    {layers : List TreeSignature} : ∀ {layer : Nat} {message : Bytes},
      reachedRoot s publicSeed index r layer message layers = some root →
        ∀ (i : Nat) (hi : i < layers.length), layers[i].FitsLayer s index r (layer + i) := by
  induction layers with
  | nil => exact fun _ i hi => absurd hi (Nat.not_lt_zero i)
  | cons signature rest ih =>
    intro layer message h i hi
    rw [reachedRoot] at h
    split_ifs at h with hfits
    cases i with
    | zero => exact hfits
    | succ i =>
      have hrest := ih h i (Nat.lt_of_succ_lt_succ hi)
      rw [Nat.succ_add_eq_add_succ] at hrest
      exact hrest

end

/-! ### Usable keys -/

/-- A key that a signer can come to hold: from seeds, from bytes or from a text backup, and after any
operations under any engines. -/
inductive PrivateKey.Usable : PrivateKey → Prop
  | generated {e : Engine} {publicSeed secretSeed secretPrf : Bytes} {nonces : NonceTable}
      {key : PrivateKey} {publicKey : PublicKey} :
      e.generateFromSeeds publicSeed secretSeed secretPrf nonces = .ok (key, publicKey) → Usable key
  | decoded {bytes : Bytes} {key : PrivateKey} : ofBytes bytes = .ok key → Usable key
  | restored {suite : Suite} {text : Text} {key : PrivateKey} :
      Backup.read suite text = .ok key → Usable key
  | reserved {key key' : PrivateKey} {r : Reservation} :
      Usable key → key.reserve = .ok (r, key') → Usable key'
  | signed {key : PrivateKey} (e : Engine) (message : Bytes) (selector : Selector) :
      Usable key → Usable (e.sign key message selector).2
  | signedCommitted {key : PrivateKey} (e : Engine) (committed : CommittedIndex) (message : Bytes)
      (selector : Selector) : Usable key → Usable (e.signCommitted key committed message selector).2
  | evicted {key : PrivateKey} (e : Engine) : Usable key → Usable (e.evict key).2

/-- **Usable keys are well formed.** -/
theorem PrivateKey.Usable.wellFormed {key : PrivateKey} (h : key.Usable) : key.WellFormed := by
  -- the induction is on how the key came about
  induction h with
  | generated hkey => exact (Engine.of_generateFromSeeds hkey).2.wellFormed
  | decoded hkey => exact wellFormed_of_ofBytes hkey
  | restored hkey => exact Backup.wellFormed_of_read hkey
  | reserved _ hreserve ih => exact ih.reserve hreserve
  | signed e message selector _ ih => exact ih.sign e message selector
  | signedCommitted e committed message selector _ ih =>
    exact ih.signCommitted e committed message selector
  | evicted e _ ih => exact ih.evict e

/-! ### Signing and verifying -/

namespace Engine

variable {e : Engine} {key key' : PrivateKey} {message : Bytes} {selector : Selector}
  {signature : Signature}

/-- Both selectors have the sizes of the parameters, so a signature of the right form is as
predicted. -/
theorem Shapes.predicts {index : Nat} (h : e.Shapes selector index signature)
    (hindex : index < e.params.maxSignatures) : e.params.Predicts signature := by
  obtain ⟨-, rfl, hlength, s, hs, hr, hlayers⟩ := h
  obtain ⟨hparams, hn, -⟩ := e.setting_spec hs
  have hchains : s.oneTime.signatureBytes = e.params.oneTime.chains * e.params.n := by
    rw [Winternitz.signatureBytes, Setting.oneTime, hparams, hn]
    rfl
  refine Params.predicts_of_layers hindex (hr.trans hn) hlength fun i hi => ?_
  have hfits := hlayers i hi
  exact {
    layer_eq := hfits.layer_eq
    leaf_eq := by rw [hfits.leaf_eq, Setting.leafAt, hparams]
    r_eq := hfits.r_eq
    length_ots := hfits.length_ots.trans hchains
    length_auth := by rw [hfits.length_auth, hparams, hn] }

/-- A signature of the right form is read back from its encoding. -/
theorem Shapes.encodable {index : Nat} (h : e.Shapes selector index signature)
    (hindex : index < e.params.maxSignatures) :
    signature.Encodable e.params.n e.params.treeHeight := by
  obtain ⟨-, rfl, hlength, s, hs, hr, hlayers⟩ := h
  have hv := e.header_valid
  refine ⟨?_, hr.trans (e.setting_spec hs).2.1, ?_, ?_⟩
  · refine lt_of_lt_of_le hindex (Nat.pow_le_pow_right (by decide) ?_)
    exact le_trans hv.height_le (by decide)
  · rw [hlength]
    exact le_trans hv.layers_le (by decide)
  · intro x hx
    obtain ⟨i, hi, rfl⟩ := List.mem_iff_getElem.mp hx
    exact encodable_of_fitsLayer hs hr (hlength ▸ hi) (hlayers i hi)

/-- An accepted signature has the form that the engine asks for. -/
theorem shapes_of_verify {pk : PublicKey} (h : e.verify signature message pk = .ok true) :
    e.Shapes signature.selector signature.index signature ∧
      signature.index < e.params.maxSignatures := by
  obtain ⟨s, root, h⟩ := verify_eq_ok_true_iff.mp h
  refine ⟨⟨rfl, rfl, h.length_layers, s, h.setting_eq, h.length_r, fun i hi => ?_⟩, h.index_lt⟩
  have hfits := fitsLayer_of_reachedRoot h.reached i hi
  rwa [Nat.zero_add] at hfits

/-- So has what is signed at a committed index. -/
theorem signCommitted_shapes (h : key.WellFormed) {committed : CommittedIndex}
    (hok : e.signCommitted key committed message selector = (.ok signature, key')) :
    e.Shapes selector committed.index signature ∧ committed.index < e.params.maxSignatures := by
  cases hp : e.prepare key committed selector with
  | error err =>
    rw [signCommitted, hp] at hok
    cases hok
  | ok p =>
    obtain ⟨hcheck, hcommitted, -⟩ := e.prepare_eq_ok_iff.mp hp
    -- the first check passed, so the key was made for this engine
    have hkey : key.MadeFor e := ⟨(checkKey_eq_ok_iff_matches h).mp hcheck, h⟩
    have hindex : committed.index < e.params.maxSignatures := by
      rw [← hkey.maxSignatures]
      exact (PrivateKey.checkCommitted_eq_ok_iff.mp hcommitted).2.trans_le h.index_le
    obtain ⟨-, -, hout⟩ | ⟨-, signature', caches, hout, -, hshapes⟩ :=
      signCommitted_outcome_cases hkey hcommitted message selector
    · rw [hout] at hok
      cases hok
    · rw [hout] at hok
      obtain rfl := Except.ok.inj (Prod.mk.inj hok).1
      exact ⟨hshapes, hindex⟩

/-- So has what is signed at the next index. -/
theorem sign_shapes (h : key.WellFormed)
    (hok : e.sign key message selector = (.ok signature, key')) :
    e.Shapes selector key.index signature ∧ key.index < e.params.maxSignatures := by
  by_cases hmatches : key.Matches e
  · rw [sign_eq ⟨hmatches, h⟩] at hok
    split_ifs at hok with hindex
    · exact signCommitted_shapes (h.update hindex h.caches) hok
    · cases hok
  · obtain ⟨part, hcheck⟩ := checkKey_of_not_matches h hmatches
    rw [sign, hcheck] at hok
    cases hok

/-- **Signatures have the predicted shape and size.** Whatever value verification accepts, under
whatever public key and for whatever message, its layers are those that the parameters predict for
its index, with all their parts, and its encoding has the predicted size. So has every signature that
signing returns, at the next index or at a committed one, with any well-formed key; keys from seeds,
from bytes and from text backups are well formed, whatever was done with them since. -/
theorem signature_predicted (e : Engine) :
    (∀ signature message key, e.verify signature message key = .ok true →
      e.params.Predicts signature) ∧
    (∀ key : PrivateKey, key.Usable → key.WellFormed) ∧
    ∀ key : PrivateKey, key.WellFormed →
      (∀ message selector signature key', e.sign key message selector = (.ok signature, key') →
        e.params.Predicts signature) ∧
      ∀ committed message selector signature key',
        e.signCommitted key committed message selector = (.ok signature, key') →
        e.params.Predicts signature := by
  refine ⟨?_, fun key hkey => hkey.wellFormed, fun key hkey => ⟨?_, ?_⟩⟩
  · intro signature message key h
    obtain ⟨hshapes, hindex⟩ := shapes_of_verify h
    exact hshapes.predicts hindex
  · intro message selector signature key' hok
    obtain ⟨hshapes, hindex⟩ := sign_shapes hkey hok
    exact hshapes.predicts hindex
  · intro committed message selector signature key' hok
    obtain ⟨hshapes, hindex⟩ := signCommitted_shapes hkey hok
    exact hshapes.predicts hindex

/-- What the parameters of `Engine.small` predict for the first index. -/
theorem signatureBytes_small : small.params.signatureBytes 0 = 4460 := by
  have hots : small.params.oneTime.signatureBytes = 2144 := by decide
  have hn : small.params.n = 32 := by decide
  have hheight : small.params.treeHeight = 1 := by decide
  have hlayers : small.params.layers = 2 := by decide
  have hone : Bytes.varintLength 0 = 1 := by cbv
  have htwo : Bytes.varintLength 2209 = 2 := by cbv
  have hbody : ∀ layer, small.params.layerBytes 0 layer = 2209 := by
    intro layer
    have hleaf : leafIndex 0 layer 1 = 0 := by simp [leafIndex]
    rw [Params.layerBytes, hots, hn, hheight, hleaf]
    simp [hone]
  rw [Params.signatureBytes, hn, hlayers]
  simp [List.range_succ, hbody, hone, htwo]

/-- The first signature of a fresh key of `Engine.small`, made under the backup digest, is accepted
and has 4460 bytes in two layers. -/
theorem signature_predicted_small : ∃ key signature key',
    key.Usable ∧ small.sign key [] .backup = (.ok signature, key') ∧
    small.verify signature [] key.publicKey = .ok true ∧
    signature.layers.length = 2 ∧ signature.toBytes.length = 4460 := by
  obtain ⟨key, hgenerate, hindex, -, -, hkey, hrooted⟩ := generateFromSeeds_eq seedsFit_small
  have hlt : key.index < key.header.maxSignatures := by
    rw [hindex]
    exact Nat.two_pow_pos _
  have hbackup : small.setting? .backup = some ⟨.standard, .sha3, small.params⟩ := rfl
  have href := small.reference?_eq hbackup (hrooted .backup) key.index []
  have hout := sign_outcome hkey [] .backup
  rw [if_pos hlt, href, toOption_eq_some_iff] at hout
  obtain ⟨haccepted, husable, hsigned⟩ := signature_predicted small
  have husable_key : key.Usable := .generated hgenerate
  have hverify := verify_of_reference? hkey hrooted hlt href rfl rfl
  have hpredicts := (hsigned key (husable key husable_key)).1 _ _ _ _ (Prod.ext hout rfl)
  refine ⟨key, _, _, husable_key, Prod.ext hout rfl, hverify, ?_, ?_⟩
  · exact (haccepted _ _ _ hverify).length_layers
  · rw [hpredicts.length_toBytes, ← signatureBytes_small]
    exact congrArg _ hindex

end Engine

end Hypertree
