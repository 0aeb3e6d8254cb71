import Hypertree.Engine.SingleTree
import Hypertree.Proofs.Engine.Encoded
import Hypertree.Proofs.Engine.Shape

/-!
# One layer as one tree

A signature over one layer says everything twice: its index is the leaf of the layer, as there is
nothing above the tree, and its randomizer is that of the layer. So a tree signature, which says it
once, determines the signature it stands for, and the single-tree engine can hand out the one instead
of the other. `exists_toSignature_eq` recovers a signature of the primary digest from its layer;
`one_layer_engine` compares the two engines operation by operation.
-/

namespace Hypertree

namespace SingleTree

variable {e : Engine} {signature : Signature}

/-- With one layer, the leaf that an index uses is the index. -/
theorem leafIndex_of_one_layer (hlayers : e.params.layers = 1) {index : Nat}
    (hindex : index < e.params.maxSignatures) : leafIndex index 0 e.params.treeHeight = index := by
  have hheight : e.params.treeHeight ≤ 32 := le_trans e.header_valid.treeHeight_le (by decide)
  have hmul := e.header_valid.layers_mul_treeHeight
  rw [hlayers, one_mul] at hmul
  rw [leafIndex_eq hheight, zero_mul, pow_zero, Nat.div_one, hmul]
  exact Nat.mod_eq_of_lt hindex

/-- **A signature over one layer is that of its tree**, under the primary digest. -/
theorem exists_toSignature_eq (hlayers : e.params.layers = 1) {index : Nat}
    (h : e.Shapes .primary index signature) (hindex : index < e.params.maxSignatures) :
    ∃ t, treeSignature signature = .ok t ∧ t.toSignature = signature := by
  obtain ⟨hselector, rfl, hlength, s, hs, -, hfits⟩ := h
  obtain ⟨t, hsingle⟩ := List.length_eq_one_iff.mp (hlength.trans hlayers)
  have hzero : 0 < signature.layers.length := by simp [hsingle]
  have ht := hfits 0 hzero
  simp only [hsingle, List.getElem_cons_zero] at ht
  have hleaf : t.leaf = signature.index := by
    rw [ht.leaf_eq, Setting.leafAt, (e.setting_spec hs).1]
    exact leafIndex_of_one_layer hlayers hindex
  refine ⟨t, by rw [treeSignature, hsingle], ?_⟩
  rw [TreeSignature.toSignature, ← hselector, hleaf, ht.r_eq, ← hsingle]

/-- The tree signatures of an outcome stand for its signatures. -/
theorem map_toSignature_eq {outcome : Except Error Signature}
    (h : ∀ signature, outcome = .ok signature →
      ∃ t, treeSignature signature = .ok t ∧ t.toSignature = signature) :
    (outcome.bind treeSignature).map TreeSignature.toSignature = outcome := by
  cases outcome with
  | error err => rfl
  | ok signature =>
    obtain ⟨t, ht, hsignature⟩ := h signature rfl
    show (treeSignature signature).map TreeSignature.toSignature = .ok signature
    rw [ht, ← hsignature]
    rfl

/-! ### Operations -/

variable {e : SingleTree} {key : PrivateKey} {message : Bytes}

/-- Signing at the next index has the outcome of the multi-tree engine. -/
theorem map_sign (hlayers : e.engine.params.layers = 1) (h : key.WellFormed) (message : Bytes) :
    (e.sign key message).1.map TreeSignature.toSignature
      = (e.engine.sign key message .primary).1 := by
  apply map_toSignature_eq
  intro signature hok
  obtain ⟨hshapes, hindex⟩ := Engine.sign_shapes h (Prod.ext hok rfl)
  exact exists_toSignature_eq hlayers hshapes hindex

/-- So has signing at a committed index. -/
theorem map_signCommitted (hlayers : e.engine.params.layers = 1) (h : key.WellFormed)
    (committed : CommittedIndex) (message : Bytes) :
    (e.signCommitted key committed message).1.map TreeSignature.toSignature
      = (e.engine.signCommitted key committed message .primary).1 := by
  apply map_toSignature_eq
  intro signature hok
  obtain ⟨hshapes, hindex⟩ := Engine.signCommitted_shapes h (Prod.ext hok rfl)
  exact exists_toSignature_eq hlayers hshapes hindex

/-- Both engines write the same bytes. -/
theorem signer_sign_eq (hlayers : e.engine.params.layers = 1) (h : key.WellFormed)
    (message : Bytes) : e.signer.sign key message = e.engine.signer.sign key message := by
  refine Prod.ext ?_ rfl
  calc (e.sign key message).1.map (fun t => t.toSignature.toBytes)
      = ((e.sign key message).1.map TreeSignature.toSignature).map Signature.toBytes := by
        cases (e.sign key message).1 <;> rfl
    _ = (e.engine.sign key message .primary).1.map Signature.toBytes := by
        rw [map_sign hlayers h]

/-- The signatures of the primary digest that the multi-tree engine accepts are those of the tree
signatures that the single-tree engine accepts. -/
theorem verify_iff (hlayers : e.engine.params.layers = 1) {signature : Signature}
    (hselector : signature.selector = .primary) {pk : PublicKey} :
    e.engine.verify signature message pk = .ok true ↔
      ∃ t : TreeSignature, t.toSignature = signature ∧ e.verify t message pk = .ok true := by
  constructor
  · intro h
    obtain ⟨hshapes, hindex⟩ := Engine.shapes_of_verify h
    rw [hselector] at hshapes
    obtain ⟨t, -, ht⟩ := exists_toSignature_eq hlayers hshapes hindex
    refine ⟨t, ht, ?_⟩
    rw [verify, ht]
    exact h
  · rintro ⟨t, rfl, h⟩
    exact h

/-- On strings that begin like signatures of the primary digest, both engines accept the encodings of
the tree signatures that they accept. -/
theorem verifyBytes_iff (hlayers : e.engine.params.layers = 1) {bytes key : Bytes}
    (hcode : bytes.head? = some Selector.primary.code) :
    e.engine.verifyBytes bytes message key = .ok true ↔
      ∃ (t : TreeSignature) (pk : PublicKey), t.toSignature.toBytes = bytes ∧
        PublicKey.ofBytes key e.engine.params.digest = .ok pk ∧
        e.verify t message pk = .ok true := by
  constructor
  · intro h
    obtain ⟨signature, pk, -, hsized, hzero, rfl, rfl, hverify⟩ :=
      Engine.verifyBytes_eq_ok_iff.mp h
    -- the first byte of an encoding is the code of its selector
    have hselector : signature.selector = .primary := by
      have hfirst : signature.selector.code = Selector.primary.code := Option.some.inj hcode
      cases hs : signature.selector with
      | primary => rfl
      | backup =>
        rw [hs] at hfirst
        exact absurd hfirst (by decide)
    obtain ⟨t, rfl, ht⟩ := (verify_iff hlayers hselector).mp hverify
    exact ⟨t, pk, rfl, PublicKey.ofBytes_eq_ok_iff.mpr ⟨hsized, hzero, rfl⟩, ht⟩
  · -- an accepted signature has the shape that can be encoded
    rintro ⟨t, pk, rfl, hpk, h⟩
    obtain ⟨hsized, hzero, rfl⟩ := PublicKey.ofBytes_eq_ok_iff.mp hpk
    obtain ⟨hshapes, hindex⟩ := Engine.shapes_of_verify h
    exact Engine.verifyBytes_eq_ok_iff.mpr
      ⟨t.toSignature, pk, hshapes.encodable hindex, hsized, hzero, rfl, rfl, h⟩

/-- **The single-tree engine is the one-layer multi-tree engine.** Valid parameters of one layer make
both. With any well-formed key, signing leaves the key in the same state, fails with the same error,
or returns the tree signature of the signature that the other returns, so that both write the same
bytes. A tree signature is accepted exactly if the signature that it stands for is, every accepted
signature of the primary digest is one of these, and the same holds of their encodings. -/
theorem one_layer_engine (suite : Suite) {params : Params} (hvalid : params.validate = .ok ())
    (hlayers : params.layers = 1) :
    ∃ e : SingleTree, create suite params = .ok e ∧ Engine.create suite params = .ok e.engine ∧
      (∀ key : PrivateKey, key.WellFormed →
        (∀ message,
          (e.sign key message).2 = (e.engine.sign key message .primary).2 ∧
          (e.sign key message).1.map TreeSignature.toSignature
            = (e.engine.sign key message .primary).1 ∧
          e.signer.sign key message = e.engine.signer.sign key message) ∧
        ∀ committed message,
          (e.signCommitted key committed message).2
            = (e.engine.signCommitted key committed message .primary).2 ∧
          (e.signCommitted key committed message).1.map TreeSignature.toSignature
            = (e.engine.signCommitted key committed message .primary).1) ∧
      (∀ message key,
        (∀ t : TreeSignature, e.verify t message key = e.engine.verify t.toSignature message key) ∧
        ∀ signature : Signature, signature.selector = .primary →
          (e.engine.verify signature message key = .ok true ↔
            ∃ t : TreeSignature, t.toSignature = signature ∧ e.verify t message key = .ok true)) ∧
      ∀ bytes message key : Bytes,
        e.verifyBytes bytes message key = e.engine.verifyBytes bytes message key ∧
        (bytes.head? = some Selector.primary.code →
          (e.verifyBytes bytes message key = .ok true ↔
            ∃ (t : TreeSignature) (pk : PublicKey), t.toSignature.toBytes = bytes ∧
              PublicKey.ofBytes key params.digest = .ok pk ∧ e.verify t message pk = .ok true)) := by
  refine ⟨⟨suite, params, hvalid⟩, ?_, Engine.create_eq suite hvalid, ?_, ?_, ?_⟩
  · rw [create, if_pos hlayers, Engine.create_eq suite hvalid]
    rfl
  · intro key hkey
    refine ⟨fun message => ?_, fun committed message => ?_⟩
    · exact ⟨rfl, map_sign hlayers hkey message, signer_sign_eq hlayers hkey message⟩
    · exact ⟨rfl, map_signCommitted hlayers hkey committed message⟩
  · intro message key
    exact ⟨fun t => rfl, fun signature hselector => verify_iff hlayers hselector⟩
  · -- the encodings, which the engine reads with the same decoders
    intro bytes message key
    exact ⟨rfl, fun hcode => verifyBytes_iff hlayers hcode⟩

/-- A fresh key of four signatures in one layer: what the single-tree engine signs is what the other
one signs, and both accept it. -/
theorem one_layer_engine_small : ∃ (e : SingleTree) (key : PrivateKey) (t : TreeSignature)
    (key' : PrivateKey), create .standard { height := 2, layers := 1 } = .ok e ∧
      key.WellFormed ∧ e.sign key [0] = (.ok t, key') ∧
      e.engine.sign key [0] .primary = (.ok t.toSignature, key') ∧
      e.verify t [0] key.publicKey = .ok true ∧
      e.verifyBytes t.toSignature.toBytes [0] key.publicKey.toBytes = .ok true := by
  have hvalid : ({ height := 2, layers := 1 } : Params).validate = .ok () := rfl
  obtain ⟨e, he, hcreate, hsigning, hvalues, hbytes⟩ := one_layer_engine .standard hvalid rfl
  rw [Engine.create_eq _ hvalid] at hcreate
  have hengine := Except.ok.inj hcreate
  have hfits : e.engine.SeedsFit (Bytes.zeros 32) (Bytes.zeros 32) (Bytes.zeros 32)
      ⟨Array.replicate 4 ⟨0, 0⟩⟩ := by
    have hsize : (⟨Array.replicate 4 ⟨0, 0⟩⟩ : NonceTable).size
        = ({ height := 2, layers := 1 } : Params).leavesPerTree := rfl
    rw [← hengine]
    exact ⟨rfl, rfl, rfl, hsize⟩
  obtain ⟨key, -, hindex, -, -, hkey, hrooted⟩ := Engine.generateFromSeeds_eq hfits
  have hlt : key.index < key.header.maxSignatures := by
    rw [hindex]
    exact Nat.two_pow_pos _
  have hprimary : e.engine.setting? .primary = some e.engine.primary := rfl
  have href := e.engine.reference?_eq hprimary (hrooted .primary) key.index [0]
  have hout := Engine.sign_outcome hkey [0] .primary
  rw [if_pos hlt, href, toOption_eq_some_iff] at hout
  have haccepted := Engine.verify_of_reference? hkey hrooted hlt href rfl rfl
  -- the outcome of the single-tree engine stands for the accepted signature
  obtain ⟨hstate, hmap, -⟩ := (hsigning key hkey.wellFormed).1 [0]
  rw [hout] at hmap
  cases hsign : (e.sign key [0]).1 with
  | error err =>
    rw [hsign] at hmap
    cases hmap
  | ok t =>
    rw [hsign] at hmap
    have ht := Except.ok.inj hmap
    rw [← ht] at hout haccepted
    have hverify : e.verify t [0] key.publicKey = .ok true :=
      ((hvalues [0] key.publicKey).1 t).trans haccepted
    have hpk : PublicKey.ofBytes key.publicKey.toBytes .sha256 = .ok key.publicKey := by
      have hdigest : key.header.digest = .sha256 := by rw [hkey.digest, ← hengine]
      have hnone : key.publicKey.backupRoot = none := by
        have hsecond := hrooted .backup
        rw [← hengine] at hsecond
        exact hsecond
      refine PublicKey.ofBytes_eq_ok_iff.mpr ⟨hdigest ▸ hkey.wellFormed.sized, ?_, rfl⟩
      rw [hnone]
      exact (Option.some_ne_none _).symm
    exact ⟨e, key, t, _, he, hkey.wellFormed, Prod.ext hsign hstate, Prod.ext hout rfl, hverify,
      ((hbytes _ [0] _).2 rfl).mpr ⟨t, key.publicKey, rfl, hpk, hverify⟩⟩

end SingleTree

end Hypertree
