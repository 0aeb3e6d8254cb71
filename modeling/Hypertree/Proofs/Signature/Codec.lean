import Hypertree.Signature.Codec
import Hypertree.Proofs.Bytes.Decoder

/-!
# Signatures read back from bytes

`Signature.ofBytes_toBytes`: reading the encoding of a signature gives the signature back, if its
fields have the sizes and ranges that the encoding can hold (`Signature.Encodable`). The length of a
one-time signature is not written, so the round trip rests on the length of the authentication path,
which is.
-/

namespace Hypertree

/-- Only one major version is accepted, with any minor one. -/
theorem eq_versionMajor {major : UInt8} {minor : Nat}
    (h : checkVersion major.toNat minor = .ok ()) : major = versionMajor := by
  unfold checkVersion at h
  split_ifs at h with hmajor
  exact UInt8.toNat_inj.mp hmajor

namespace TreeSignature

/-- The fields of a layer are in the ranges of the encoding. -/
structure Encodable (s : TreeSignature) (n treeHeight : Nat) : Prop where
  layer_le : s.layer ≤ 255
  length_r : s.r.length = n
  leaf_lt : s.leaf < 2 ^ 32
  length_auth : s.auth.length = treeHeight * n
  bodyLength_lt : s.bodyLength < 2 ^ 64

theorem length_body (s : TreeSignature) : s.body.length = s.bodyLength := by
  simp only [body, bodyLength, List.length_append, Decoder.length_varint]
  omega

variable {s : TreeSignature} {n treeHeight : Nat}

/-- The body of a layer is read back. -/
theorem decode_body (h : s.Encodable n treeHeight) :
    (bodyDecoder n treeHeight s.layer).decode s.body = .ok s := by
  have hleaf : s.leaf ≤ 2 ^ 32 - 1 := Nat.le_sub_one_of_lt h.leaf_lt
  have hleaf64 : s.leaf < 2 ^ 64 := lt_trans h.leaf_lt (by decide)
  have hlen : (s.ots ++ s.auth).length = s.ots.length + treeHeight * n := by
    rw [List.length_append, h.length_auth]
  have hleft : (Decoder.remaining).run (s.ots ++ s.auth)
      = .ok ((s.ots ++ s.auth).length, s.ots ++ s.auth) := rfl
  -- what is left after the leaf is the one-time signature and a path of known length
  have hrun : (bodyDecoder n treeHeight s.layer).run s.body = .ok (s, []) := by
    unfold bodyDecoder body
    rw [run_bind (Decoder.reads_take h.length_r _ _),
      run_bind (Decoder.reads_bounded _ hleaf hleaf64 _), run_bind hleft]
    rw [hlen, if_neg (by omega), run_bind (Decoder.reads_take (by omega) _ _)]
    rw [← List.append_nil s.auth]
    rw [run_bind (Decoder.reads_take h.length_auth _ _)]
    rfl
  unfold Decoder.decode
  rw [hrun]

/-- A layer is read back as part of a longer string. -/
theorem reads_toBytes (h : s.Encodable n treeHeight) {limit : Nat} (hlimit : s.bodyLength ≤ limit) :
    Reads (decoder n treeHeight limit) s.toBytes s := by
  have hlayer : (UInt8.ofNat s.layer).toNat = s.layer :=
    UInt8.toNat_ofNat_of_lt' (Nat.lt_succ_of_le h.layer_le)
  refine (Decoder.reads_byte _ _).bind ?_
  refine (Decoder.reads_bounded _ hlimit h.bodyLength_lt).bind ?_
  rw [← List.append_nil s.body]
  refine (Decoder.reads_take (length_body s) _).bind ?_
  apply reads_lift
  rw [hlayer]
  exact decode_body h

end TreeSignature

namespace Signature

/-- The fields of a signature are in the ranges of the encoding. -/
structure Encodable (s : Signature) (n treeHeight : Nat) : Prop where
  index_lt : s.index < 2 ^ 64
  length_r : s.r.length = n
  length_layers : s.layers.length ≤ 255
  layers : ∀ layer ∈ s.layers, layer.Encodable n treeHeight

/-- No layer is longer than the whole. -/
theorem bodyLength_le {s : Signature} {layer : TreeSignature} (h : layer ∈ s.layers) :
    layer.bodyLength ≤ s.toBytes.length := by
  have hlayer : layer.bodyLength ≤ layer.toBytes.length := by
    rw [TreeSignature.toBytes, List.length_cons, List.length_append, TreeSignature.length_body]
    omega
  have hpart : layer.toBytes.length ≤ (s.layers.flatMap TreeSignature.toBytes).length := by
    rw [List.length_flatMap]
    exact List.single_le_sum (fun _ _ => Nat.zero_le _) _ (List.mem_map_of_mem h)
  simp only [toBytes, List.length_cons, List.length_append]
  omega

/-- A signature is read back as part of a longer string, if its layers are not too long for it. -/
theorem reads_toBytes {s : Signature} {n treeHeight limit : Nat} (h : s.Encodable n treeHeight)
    (hlimit : ∀ layer ∈ s.layers, layer.bodyLength ≤ limit) :
    Reads (decoder n treeHeight limit) s.toBytes s := by
  have hcount : (UInt8.ofNat s.layers.length).toNat = s.layers.length :=
    UInt8.toNat_ofNat_of_lt' (Nat.lt_succ_of_le h.length_layers)
  have hselector : Selector.ofCode s.selector.code = .ok s.selector := by
    cases s.selector <;> rfl
  have hlayers : Reads (Decoder.repeated (TreeSignature.decoder n treeHeight limit)
      (UInt8.ofNat s.layers.length).toNat)
      (s.layers.flatMap TreeSignature.toBytes) s.layers := by
    rw [hcount]
    apply Decoder.reads_repeated
    intro layer hlayer
    exact TreeSignature.reads_toBytes (h.layers layer hlayer) (hlimit layer hlayer)
  refine (Decoder.reads_byte s.selector.code _).bind ?_
  refine (reads_lift hselector).bind_nil ?_
  refine (Decoder.reads_byte versionMajor _).bind ?_
  refine (reads_lift (v := ()) rfl).bind_nil ?_
  refine (Decoder.reads_varint _ h.index_lt).bind ?_
  refine (Decoder.reads_take h.length_r _).bind ?_
  refine (Decoder.reads_byte _ _).bind ?_
  exact hlayers.bind_pure

/-- **A signature is read back from its encoding.** -/
theorem ofBytes_toBytes {s : Signature} {n treeHeight : Nat} (h : s.Encodable n treeHeight) :
    ofBytes s.toBytes n treeHeight = .ok s :=
  Decoder.decode_eq (reads_toBytes h fun _ => bodyLength_le)

end Signature

end Hypertree
