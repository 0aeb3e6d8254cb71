import Hypertree.Proofs.Bytes.Canonical
import Hypertree.Proofs.Signature.Codec

/-!
# One encoding for every signature

The strings that are signatures are the encodings of the signatures whose fields are in range
(`Signature.ofBytes_eq_ok_iff`), so reading and writing are inverse to each other
(`Signature.codec_bijective`). The length of a one-time signature is not written; it is fixed by the
length of the body, which is, and that of the authentication path.

A reader compares the length of a layer with that of the whole string, so what it does depends on
bytes that it has not reached. The comparison refuses nothing that is there: a layer that was read
lies in the string.
-/

namespace Hypertree

open Decoder

theorem Selector.ofCode_eq_ok_iff {code : UInt8} {selector : Selector} :
    ofCode code = .ok selector ↔ code = selector.code := by
  constructor
  · intro h
    unfold ofCode at h
    split_ifs at h with hprimary hbackup
    · obtain rfl := Except.ok.inj h
      exact hprimary
    · obtain rfl := Except.ok.inj h
      exact hbackup
  · rintro rfl
    cases selector <;> rfl

namespace TreeSignature

variable {s : TreeSignature} {n treeHeight layer limit : Nat} {input rest : Bytes}

/-- What was read as the body of a layer. -/
theorem of_decode_body (h : (bodyDecoder n treeHeight layer).decode input = .ok s) :
    s.layer = layer ∧ s.r.length = n ∧ s.leaf < 2 ^ 32 ∧ s.auth.length = treeHeight * n ∧
      input = s.body := by
  rw [decode_eq_ok_iff] at h
  simp only [bodyDecoder, take_bind_run_eq_ok_iff, bounded_bind_run_eq_ok_iff] at h
  obtain ⟨r, _, hr, rfl, leaf, tail, hleaf, -, rfl, h⟩ := h
  obtain ⟨left, _, hleft, hparts⟩ := run_bind_eq_ok_iff.mp h
  obtain ⟨rfl, rfl⟩ := Prod.mk.inj (Except.ok.inj hleft)
  simp only [run_guard_eq_ok_iff, take_bind_run_eq_ok_iff, run_pure_eq_ok_iff] at hparts
  obtain ⟨-, ots, _, -, rfl, auth, _, hauth, rfl, rfl, rfl⟩ := hparts
  refine ⟨rfl, hr, Nat.lt_succ_of_le hleaf, hauth, ?_⟩
  simp only [body, List.append_nil]

/-- The inputs that begin with a layer of a string of `limit` bytes. -/
theorem decoder_run_eq_ok_iff : (decoder n treeHeight limit).run input = .ok (s, rest) ↔
    (s.Encodable n treeHeight ∧ s.bodyLength ≤ limit) ∧ input = s.toBytes ++ rest := by
  constructor
  · -- the fields in the order of the bytes; the body has to fill its stated length
    intro h
    simp only [decoder, byte_bind_run_eq_ok_iff, bounded_bind_run_eq_ok_iff,
      take_bind_run_eq_ok_iff, run_lift_eq_ok_iff] at h
    obtain ⟨layer, _, rfl, length, _, hle, hlt, rfl, bytes, _, hlength, rfl, hbody, rfl⟩ := h
    obtain ⟨hlayer, hr, hleaf, hauth, rfl⟩ := of_decode_body hbody
    rw [length_body] at hlength
    obtain rfl := hlength
    have hbyte := layer.toNat_lt
    refine ⟨⟨⟨by omega, hr, hleaf, hauth, hlt⟩, hle⟩, ?_⟩
    simp only [toBytes, hlayer, UInt8.ofNat_toNat, List.cons_append, List.append_assoc]
  · rintro ⟨⟨h, hlimit⟩, rfl⟩
    exact reads_toBytes h hlimit rest

end TreeSignature

namespace Signature

variable {s : Signature} {n treeHeight limit : Nat} {input rest bytes : Bytes}

/-- The inputs that begin with a signature, if layers may have at most `limit` bytes. -/
theorem decoder_run_eq_ok_iff : (decoder n treeHeight limit).run input = .ok (s, rest) ↔
    (s.Encodable n treeHeight ∧ ∀ layer ∈ s.layers, layer.bodyLength ≤ limit) ∧
      input = s.toBytes ++ rest := by
  constructor
  · intro h
    simp only [decoder, byte_bind_run_eq_ok_iff, run_lift_bind_eq_ok_iff,
      varint_bind_run_eq_ok_iff, take_bind_run_eq_ok_iff] at h
    obtain ⟨code, _, rfl, selector, hselector, version, _, rfl, _, hversion, index, _, hindex,
      rfl, r, _, hr, rfl, count, _, rfl, h⟩ := h
    obtain rfl := Selector.ofCode_eq_ok_iff.mp hselector
    obtain rfl := eq_versionMajor hversion
    obtain ⟨layers, _, hlayers, h⟩ := run_bind_eq_ok_iff.mp h
    obtain ⟨rfl, rfl⟩ := run_pure_eq_ok_iff.mp h
    obtain ⟨hcount, hall, rfl⟩ :=
      (repeated_run_eq_ok_iff TreeSignature.decoder_run_eq_ok_iff).mp hlayers
    have hbyte := count.toNat_lt
    refine ⟨⟨⟨hindex, hr, by dsimp only; omega, fun layer hmem => (hall layer hmem).1⟩,
      fun layer hmem => (hall layer hmem).2⟩, ?_⟩
    simp only [toBytes, hcount, UInt8.ofNat_toNat, List.cons_append, List.append_assoc]
  · rintro ⟨⟨h, hlimit⟩, rfl⟩
    exact reads_toBytes h hlimit rest

/-- **The strings that are signatures** are the encodings of those with fields in range. -/
theorem ofBytes_eq_ok_iff :
    ofBytes bytes n treeHeight = .ok s ↔ s.Encodable n treeHeight ∧ bytes = s.toBytes := by
  constructor
  · intro h
    rw [ofBytes, decode_eq_ok_iff, decoder_run_eq_ok_iff, List.append_nil] at h
    exact ⟨h.1.1, h.2⟩
  · rintro ⟨h, rfl⟩
    exact ofBytes_toBytes h

/-- A string that is a signature begins no other one. -/
theorem eq_of_isPrefix {bytes' : Bytes} {s' : Signature} (h : ofBytes bytes n treeHeight = .ok s)
    (h' : ofBytes bytes' n treeHeight = .ok s') ( hprefix : bytes <+: bytes') :
    bytes' = bytes := by
  obtain ⟨rest, rfl⟩ := hprefix
  obtain ⟨hs, rfl⟩ := ofBytes_eq_ok_iff.mp h
  -- the longer string admits the layers of the shorter one
  have hreads : Reads (decoder n treeHeight (s.toBytes ++ rest).length) s.toBytes s := by
    apply reads_toBytes hs
    intro layer hlayer
    rw [List.length_append]
    exact Nat.le_add_right_of_le (bodyLength_le hlayer)
  rw [decode_append hreads h', List.append_nil]

/-- **Reading and writing are inverse to each other**, for digests of `n` bytes and trees of any
height. The signatures that are read back are those whose fields are in range: whatever the length
of a one-time signature, as long as that of the body is a 64-bit number, like that of every string
in memory. A string that was read is written again, and no other string that begins with it or with
which it begins is a signature. -/
theorem codec_bijective (n treeHeight : Nat) :
    (∀ s : Signature, s.Encodable n treeHeight ↔ ofBytes s.toBytes n treeHeight = .ok s) ∧
    (∀ bytes s, ofBytes bytes n treeHeight = .ok s → s.toBytes = bytes) ∧
    ∀ bytes s, ofBytes bytes n treeHeight = .ok s →
      ∀ bytes' s', bytes' <+: bytes ∨ bytes <+: bytes' → bytes' ≠ bytes →
        ofBytes bytes' n treeHeight ≠ .ok s' := by
  refine ⟨?_, ?_, ?_⟩
  · intro s
    rw [ofBytes_eq_ok_iff]
    exact (and_iff_left rfl).symm
  · intro bytes s h
    exact (ofBytes_eq_ok_iff.mp h).2.symm
  · rintro bytes s h bytes' s' ( hprefix | hprefix) hne h'
    · exact hne (eq_of_isPrefix h' h hprefix).symm
    · exact hne (eq_of_isPrefix h h' hprefix)

/-- A backup signature with a large index, a long leaf number, and layers with one-time signatures
of different lengths, one of them empty. -/
def uneven : Signature :=
  ⟨.backup, 2 ^ 40, [1, 2],
    [⟨7, [1, 2], 2 ^ 32 - 1, [3, 4, 5], [6, 7]⟩, ⟨255, [8, 9], 0, [], [0, 0]⟩]⟩

theorem encodable_uneven : uneven.Encodable 2 1 where
  index_lt := by decide
  length_r := rfl
  length_layers := by decide
  layers := by
    -- whatever the leaf, ten bytes are enough, and the layer fits in its limit
    have hleaf : ∀ leaf : Nat, Bytes.varintLength (UInt64.ofNat leaf) ≤ 10 := fun leaf =>
      varintLength_le (by decide) _ (lt_trans (UInt64.toNat_lt _) (by decide))
    intro layer hlayer
    rcases List.mem_pair.mp hlayer with rfl | rfl
    · refine ⟨by decide, rfl, by decide, rfl, ?_⟩
      have h := hleaf (2 ^ 32 - 1)
      simp only [TreeSignature.bodyLength, List.length_cons, List.length_nil]
      omega
    · refine ⟨by decide, rfl, by decide, rfl, ?_⟩
      have h := hleaf 0
      simp only [TreeSignature.bodyLength, List.length_cons, List.length_nil]
      omega

theorem codec_bijective_uneven :
    uneven.Encodable 2 1 ∧ ofBytes uneven.toBytes 2 1 = .ok uneven ∧
      ∀ s, ofBytes (uneven.toBytes ++ [0]) 2 1 ≠ .ok s := by
  obtain ⟨hback, -, hends⟩ := codec_bijective 2 1
  have h := (hback uneven).mp encodable_uneven
  exact ⟨encodable_uneven, h, fun s =>
    hends _ _ h _ s (Or.inr (List.prefix_append _ _)) (by simp)⟩

end Signature

end Hypertree
