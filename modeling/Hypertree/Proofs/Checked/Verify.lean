import Hypertree.Proofs.Checked.Signature
import Hypertree.Proofs.Checked.Tree
import Hypertree.Proofs.Engine.Verify

/-!
# Verification, checked

Signatures and public keys come from whoever wants them accepted: any number of layers in any order,
any index, fields of any size. `verify_safe` says that verification over checked operations has the
answer that it has over total ones for all of them: no operands of an addition differ in length, no
digest is copied to a buffer of another size, no digit or node is looked up where there is none, and
no chain is walked past its end.

Before anything is hashed, the number of layers, the index and the sizes are compared with the
parameters. So every layer that is climbed is a layer of the key (`climbLayers_eq`), and its indices
are computed without a breach; what it signs is a digest, by the root that the layer below reached.
-/

namespace Hypertree.Checked

/-- Climbs the trees of a signature from the given layer on. -/
def climbLayers (s : Setting) (publicSeed : Bytes) (index : Nat) (r : Bytes) :
    (layer : Nat) → (message : Bytes) → List TreeSignature → Except Breach (Option Bytes)
  | _, message, [] => return some message
  | layer, message, signature :: rest => do
    let height ← treeHeight s.params.toHeader
    let tree ← treeIndex index layer height
    let leaf ← leafIndex index layer height
    if signature.layer = layer ∧ signature.leaf = leaf ∧ signature.r = r then
      let root ← rootFromSignature s publicSeed layer tree leaf signature.ots signature.auth message
      match root with
      | none => return none
      | some root => climbLayers s publicSeed index r (layer + 1) root rest
    else return none

/-- Whether a signature of a message is valid for a public key. -/
def verify (e : Engine) (signature : Signature) (message : Bytes) (key : PublicKey) :
    Except Breach Bool := do
  match e.setting? signature.selector, Engine.verificationRoot key signature.selector with
  | some s, some root =>
    let count ← maxSignatures e.params.toHeader
    if signature.layers.length = e.params.layers ∧ signature.index < count ∧
        signature.r.length = s.n ∧ root.length = s.n ∧ key.publicSeed.length = s.n then
      let digest ← hMsg s signature.r root signature.index message
      let reached ←
        climbLayers s key.publicSeed signature.index signature.r 0 digest signature.layers
      match reached with
      | none => return false
      | some reached => return reached == root
    else return false
  | _, _ => return false

/-- Whether an encoded signature of a message is valid for an encoded public key. -/
def verifyBytes (e : Engine) (signature message key : Bytes) : Except Stop Bool := do
  let key ← publicKey key e.params.digest
  let height ← treeHeight e.params.toHeader
  let signature ← (Checked.signature signature e.params.n height).1
  verify e signature message key

/-- **The layers of a key are climbed without a breach.** -/
theorem climbLayers_eq {s : Setting} (hv : s.params.toHeader.Valid) (hp : s.oneTime.Valid)
    (publicSeed : Bytes) (index : Nat) (r : Bytes) {layers : List TreeSignature} {layer : Nat}
    (hlayers : layer + layers.length ≤ s.params.layers) {message : Bytes}
    (hm : message.length = s.n) :
    climbLayers s publicSeed index r layer message layers
      = .ok (reachedRoot s publicSeed index r layer message layers) := by
  induction layers generalizing layer message with
  | nil => rfl
  | cons signature rest ih =>
    rw [List.length_cons] at hlayers
    have hlayer : layer < s.params.layers := by omega
    rw [climbLayers, reachedRoot, treeHeight_eq, ok_bind, treeIndex_eq hv index hlayer, ok_bind,
      leafIndex_eq hv index hlayer, ok_bind]
    -- first the place of the layer is checked, then the sizes of its parts
    by_cases hplace : signature.layer = layer ∧
        signature.leaf = Hypertree.leafIndex index layer s.params.treeHeight ∧ signature.r = r
    · rw [if_pos hplace, rootFromSignature_eq hv hp _ _ _ _ _ _ hm]
      by_cases hsize : FitsTree s (Hypertree.leafIndex index layer s.params.treeHeight)
          signature.ots signature.auth
      · rw [if_pos hsize, if_pos ⟨hplace.1, hplace.2.1, hplace.2.2, hsize.1, hsize.2.2⟩]
        exact ih (by omega) (length_signatureRoot hsize.2.2)
      · rw [if_neg hsize,
          if_neg fun h => hsize ⟨h.length_auth, s.leafAt_lt index layer, h.length_ots⟩]
        rfl
    · rw [if_neg hplace, if_neg fun h => hplace ⟨h.layer_eq, h.leaf_eq, h.r_eq⟩]
      rfl

/-- **Verification has an answer, without a breach.** -/
theorem verify_answer (e : Engine) (signature : Signature) (message : Bytes) (key : PublicKey) :
    ∃ answer, verify e signature message key = .ok answer ∧
      e.verify signature message key = .ok answer := by
  -- without a setting or a root for the selector, the answer is no
  cases hs : e.setting? signature.selector with
  | none =>
    refine ⟨false, ?_, Engine.verify_of_none (.inl hs) message⟩
    unfold verify
    rw [hs]
    rfl
  | some s =>
    cases hroot : Engine.verificationRoot key signature.selector with
    | none =>
      refine ⟨false, ?_, Engine.verify_of_none (.inr hroot) message⟩
      unfold verify
      rw [hs, hroot]
      rfl
    | some root =>
      refine ⟨_, ?_, Engine.verify_eq hs hroot message⟩
      obtain ⟨hparams, -, hp⟩ := e.setting_spec hs
      have hv := e.header_valid
      unfold verify
      rw [hs, hroot]
      simp only [maxSignatures_eq hv, ok_bind]
      split_ifs with hfits
      · -- an index of the key is a machine word, so nothing overflows on the way up
        obtain ⟨hcount, hindex, -⟩ := hfits
        have hword : signature.index < 2 ^ 64 := by
          have hheight := hv.height_le
          exact lt_of_lt_of_le hindex (Nat.pow_le_pow_right two_pos (by omega))
        have hlayers : 0 + signature.layers.length ≤ s.params.layers := by
          rw [hcount, hparams, Nat.zero_add]
        rw [hMsg_eq hword, ok_bind, climbLayers_eq (hparams ▸ hv) hp key.publicSeed signature.index
          signature.r hlayers (s.length_hMsg signature.r root signature.index message), ok_bind]
        cases reachedRoot s key.publicSeed signature.index signature.r 0
            (s.hMsg signature.r root signature.index message) signature.layers with
        | none => rfl
        | some reached => rfl
      · rfl

/-- **No input of verification causes a breach.** -/
theorem verify_safe (e : Engine) (message : Bytes) :
    (∀ signature key, ∃ answer, verify e signature message key = .ok answer ∧
      e.verify signature message key = .ok answer) ∧
    ∀ signature key : Bytes,
      Unbreached (verifyBytes e signature message key) (e.verifyBytes signature message key) := by
  refine ⟨fun signature key => verify_answer e signature message key, ?_⟩
  intro signature key
  unfold verifyBytes Engine.verifyBytes
  refine (unbreached_publicKey key e.params.digest).bind fun key _ => ?_
  rw [treeHeight_eq]
  refine (unbreached_signature e.header_valid signature).1.bind fun signature _ => ?_
  obtain ⟨answer, hchecked, htotal⟩ := verify_answer e signature message key
  rw [hchecked, htotal]
  exact .ok answer

end Hypertree.Checked
