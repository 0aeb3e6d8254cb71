import Hypertree.Proofs.Checked
import Hypertree.Proofs.OneTime.Chain

/-!
# Recovering one-time keys, checked

What verification does with hash functions and one-time signatures, over checked operations. Every
digest is copied to a buffer of the size that its caller has for it, masks are added to operands of
any length, digits are looked up by the number of their chain, and a chain that would not end within
its positions is a failed assertion.

Nodes of the size of a digest are enough for hash calls (`hashNode_eq`, `hashPair_eq`). The digits
of a message are below `w` and there is one for each chain (`digits_eq`), so no chain is walked past
its end and signatures of the right size are recovered as they are without checks (`recover_eq`);
others are refused before any of them is used.
-/

namespace Hypertree.Checked

/-! ### Hash calls -/

/-- The size of the largest digest. -/
def maxDigest : Nat := 64

/-- Digests a tag, a key and the material into a buffer of `size` bytes. -/
def tagged (s : Setting) (size tag : Nat) (key material : Bytes) : Except Breach Bytes := do
  let last ← difference s.n 1
  let front ← store (Bytes.zeros maxDigest) last (UInt8.ofNat tag)
  let front ← slice front 0 s.n
  copy size (s.suite.hash s.digest (front ++ (key ++ material)))

/-- The key or mask of an address. -/
def prfAddress (s : Setting) (key : Bytes) (a : Address) : Except Breach Bytes :=
  tagged s s.n 3 key a.toBytes

/-- One step of a chain, written over the node. -/
def hashNode (s : Setting) (node publicSeed : Bytes) (a : Address) : Except Breach Bytes := do
  let key ← prfAddress s publicSeed (a.withSelector 0)
  let mask ← prfAddress s publicSeed (a.withSelector 1)
  let masked ← xorInto node.length node mask
  tagged s node.length 0 key masked

/-- The parent of two nodes. -/
def hashPair (s : Setting) (left right publicSeed : Bytes) (a : Address) : Except Breach Bytes := do
  let key ← prfAddress s publicSeed (a.withSelector 0)
  let leftMask ← prfAddress s publicSeed (a.withSelector 1)
  let rightMask ← prfAddress s publicSeed (a.withSelector 2)
  let maskedLeft ← xorInto s.n left leftMask
  let maskedRight ← xorInto s.n right rightMask
  tagged s s.n 1 key (maskedLeft ++ maskedRight)

/-- The low bytes of a 64-bit number at the end of a buffer of `len` bytes. -/
def paddedBytes (len value : Nat) : Except Breach Bytes := do
  let count := min len 8
  let skip ← difference 8 count
  let low ← slice (Bytes.bigEndian 8 value) skip 8
  let start ← difference len count
  overwrite (Bytes.zeros len) start len low

/-- The digest of a message that is signed at an index of the key with this root. -/
def hMsg (s : Setting) (randomizer root : Bytes) (index : Nat) (message : Bytes) :
    Except Breach Bytes := do
  let number ← paddedBytes s.n index
  tagged s s.n 2 randomizer (root ++ (number ++ message))

section

variable {s : Setting}

theorem size_le_maxDigest (d : Digest) : 8 ≤ d.size ∧ d.size ≤ maxDigest := by
  cases d <;> decide

/-- The tag is the last byte of a number of the size of a digest. -/
theorem front_eq (d : Digest) {tag : Nat} (h : tag < 256) :
    ((Bytes.zeros maxDigest).set (d.size - 1) (UInt8.ofNat tag)).take d.size
      = Bytes.bigEndian d.size tag := by
  have hsize : d.size = d.size - 1 + 1 := (Nat.sub_add_cancel d.size_pos).symm
  have hwritten : Bytes.bigEndian d.size tag
      = Bytes.zeros (d.size - 1) ++ [UInt8.ofNat tag] := by
    conv_lhs => rw [hsize]
    exact Bytes.bigEndian_of_lt _ (by simpa using h)
  rw [hwritten]
  cases d <;> rfl

theorem tagged_eq {size tag : Nat} (hsize : size = s.n) (htag : tag < 256) (key material : Bytes) :
    tagged s size tag key material = .ok (s.tagged tag key material) := by
  have hn : s.n = s.digest.size := rfl
  obtain ⟨-, hmax⟩ := size_le_maxDigest s.digest
  have hpos := s.n_pos
  have hlast : s.n - 1 < (Bytes.zeros maxDigest).length := by
    rw [Bytes.length_zeros]
    omega
  have hfront : s.n ≤ ((Bytes.zeros maxDigest).set (s.n - 1) (UInt8.ofNat tag)).length := by
    rw [List.length_set, Bytes.length_zeros]
    exact hmax
  unfold tagged
  rw [difference_eq hpos, ok_bind, store_eq hlast, ok_bind, slice_eq (Nat.zero_le _) hfront,
    ok_bind, List.drop_zero, Nat.sub_zero, hn, front_eq s.digest htag,
    copy_eq (by simp [hsize, hn])]
  rfl

theorem prfAddress_eq (key : Bytes) (a : Address) :
    prfAddress s key a = .ok (s.prfAddress key a) :=
  tagged_eq rfl (by decide) key a.toBytes

theorem hashNode_eq {node : Bytes} (hnode : node.length = s.n) (publicSeed : Bytes) (a : Address) :
    hashNode s node publicSeed a = .ok (s.advance publicSeed a node) := by
  have hmask : node.length = (s.prfAddress publicSeed (a.withSelector 1)).length := by
    rw [hnode, Setting.length_prfAddress]
  unfold hashNode
  rw [prfAddress_eq, ok_bind, prfAddress_eq, ok_bind, xorInto_eq rfl hmask, ok_bind,
    tagged_eq hnode (by decide)]
  rfl

theorem hashPair_eq {left right : Bytes} (hleft : left.length = s.n) (hright : right.length = s.n)
    (publicSeed : Bytes) (a : Address) :
    hashPair s left right publicSeed a = .ok (s.join publicSeed a left right) := by
  have hmask : ∀ i, s.n = (s.prfAddress publicSeed (a.withSelector i)).length := fun i =>
    (Setting.length_prfAddress ..).symm
  unfold hashPair
  rw [prfAddress_eq, ok_bind, prfAddress_eq, ok_bind, prfAddress_eq, ok_bind,
    xorInto_eq hleft.symm (hleft.trans (hmask 1)), ok_bind,
    xorInto_eq hright.symm (hright.trans (hmask 2)), ok_bind, tagged_eq rfl (by decide)]
  rfl

theorem paddedBytes_eq {len value : Nat} (hlen : 8 ≤ len) (hvalue : value < 2 ^ 64) :
    paddedBytes len value = .ok (Bytes.bigEndian len value) := by
  have hlow : slice (Bytes.bigEndian 8 value) 0 8 = .ok (Bytes.bigEndian 8 value) := by
    rw [slice_eq (by decide) (by simp), List.drop_zero, List.take_of_length_le (by simp)]
  have hwritten := Bytes.bigEndian_of_lt (len - 8) (show value < 256 ^ 8 by omega)
  rw [Nat.sub_add_cancel hlen] at hwritten
  have hroom : (Bytes.bigEndian 8 value).length = len - (len - 8) := by
    rw [Bytes.length_bigEndian]
    omega
  have hend : (Bytes.zeros len).drop len = [] := List.drop_eq_nil_of_le (by simp)
  have hstart : (Bytes.zeros len).take (len - 8) = Bytes.zeros (len - 8) := by
    rw [Bytes.zeros, List.take_replicate, Nat.min_eq_left (Nat.sub_le _ _)]
    rfl
  -- the zeros make room for the eight bytes of the value at their end
  unfold paddedBytes
  simp only [Nat.min_eq_right hlen]
  rw [difference_eq le_rfl, ok_bind, Nat.sub_self, hlow, ok_bind, difference_eq hlen, ok_bind,
    overwrite_eq (Nat.sub_le _ _) (by simp) hroom, hstart, hend, List.append_nil, hwritten]

theorem hMsg_eq {index : Nat} (hindex : index < 2 ^ 64) (randomizer root message : Bytes) :
    hMsg s randomizer root index message = .ok (s.hMsg randomizer root index message) := by
  have hn : 8 ≤ s.n := (size_le_maxDigest s.digest).1
  unfold hMsg
  rw [paddedBytes_eq hn hindex, ok_bind, tagged_eq rfl (by decide)]
  rfl

end

/-! ### Digits -/

/-- The next `len` digits of `width` bits, cut from an accumulator with a mask. -/
def digitsFrom (width : Nat) (mask : UInt64) : (len : Nat) → (bits : UInt64) → (count : Nat) →
    Bytes → Except Breach (List Nat)
  | 0, _, _, _ => return []
  | len + 1, bits, count, input => do
    let (bits, count, rest) := refill width bits count input
    if width ≤ count then
      let unused ← difference count width
      let low ← shiftRight64 bits unused
      let digit ← narrow 32 (low &&& mask).toNat
      let digits ← digitsFrom width mask len bits unused rest
      return digit :: digits
    else
      let missing ← difference width count
      let low ← shiftLeft64 bits missing
      let digit ← narrow 32 (low &&& mask).toNat
      let digits ← digitsFrom width mask len bits 0 rest
      return digit :: digits

/-- The first `len` digits of `width` bits of a byte string. -/
def baseW (input : Bytes) (width len : Nat) : Except Breach (List Nat) := do
  assert (0 < width ∧ width ≤ 8)
  let one ← shiftLeft64 1 width
  digitsFrom width (one - 1) len 0 0 input

/-- The sum of the digits' distances from `w - 1`, added to a sum. -/
def checksum (w : Nat) : (acc : Nat) → List Nat → Except Breach Nat
  | acc, [] => return acc
  | acc, digit :: rest => do
    let last ← difference w 1
    let distance ← difference last digit
    let acc ← sum 32 acc distance
    checksum w acc rest

/-- The checksum as the bytes from which its digits are read. -/
def checksumField (p : Winternitz) (digits : List Nat) : Except Breach Bytes := do
  let total ← checksum p.w 0 digits
  let shifted ← shiftLeft64 (UInt64.ofNat total) p.checksumShift
  let start ← difference 8 p.checksumBytes
  slice (Bytes.bigEndian 8 shifted.toNat) start 8

/-- The digits of a message followed by the digits of their checksum. -/
def digits (p : Winternitz) (message : Bytes) : Except Breach (List Nat) := do
  let body ← baseW message p.digitBits p.messageDigits
  let field ← checksumField p body
  let tail ← baseW field p.digitBits p.checksumDigits
  return body ++ tail

/-- The accumulator never holds more than sixteen unused bits, so it is shifted by less. -/
theorem digitsFrom_eq {width : Nat} (hwidth : width ≤ 8) (len : Nat) :
    ∀ (bits : UInt64) (count : Nat) (input : Bytes), count ≤ 16 →
      digitsFrom width (1 <<< UInt64.ofNat width - 1) len bits count input
        = .ok (Hypertree.digitsFrom width len bits count input) := by
  -- a digit has at most eight bits
  have hnarrow : ∀ a : UInt64, narrow 32 (a &&& (1 <<< UInt64.ofNat width - 1)).toNat
      = .ok (a &&& (1 <<< UInt64.ofNat width - 1)).toNat := by
    intro a
    have hpow : 2 ^ width ≤ 2 ^ 8 := Nat.pow_le_pow_right two_pos hwidth
    have hlt := Nat.mod_lt a.toNat (Nat.two_pow_pos width)
    apply narrow_eq
    rw [UInt64.toNat_and, toNat_mask hwidth, Nat.and_two_pow_sub_one_eq_mod]
    omega
  induction len with
  | zero =>
    intro bits count input _
    rfl
  | succ len ih =>
    intro bits count input hcount
    obtain ⟨bits', count', rest, hrefill, -, -, hcount', -⟩ :=
      refill_spec hwidth input bits count hcount
    rw [digitsFrom, Hypertree.digitsFrom, hrefill]
    -- the last digit may lack bits
    by_cases hdigit : width ≤ count'
    · simp only [if_pos hdigit]
      rw [difference_eq hdigit, ok_bind, shiftRight64_eq _ (by omega), ok_bind, hnarrow, ok_bind,
        ih _ _ _ (by omega)]
      rfl
    · simp only [if_neg hdigit]
      rw [difference_eq (by omega), ok_bind, shiftLeft64_eq _ (by omega), ok_bind, hnarrow, ok_bind,
        ih _ _ _ (by omega)]
      rfl

theorem baseW_eq {width : Nat} (hpos : 0 < width) (hwidth : width ≤ 8) (input : Bytes)
    (len : Nat) : baseW input width len = .ok (Hypertree.baseW input width len) := by
  unfold baseW
  rw [assert_eq ⟨hpos, hwidth⟩, ok_bind, shiftLeft64_eq 1 (by omega), ok_bind,
    digitsFrom_eq hwidth len 0 0 input (by omega)]
  rfl

/-- No digit is above the last position, and the sum of the distances is a 32-bit number. -/
theorem checksum_eq {w : Nat} (hw : 0 < w) {digits : List Nat} (hd : ∀ d ∈ digits, d < w) :
    ∀ acc : Nat, acc + Winternitz.distance w digits < 2 ^ 32 →
      checksum w acc digits = .ok (acc + Winternitz.distance w digits) := by
  induction digits with
  | nil =>
    intro acc _
    rfl
  | cons d digits ih =>
    intro acc hlt
    have hdigit : d < w := hd d List.mem_cons_self
    -- no sum on the way is larger than the last one
    have hsplit : Winternitz.distance w (d :: digits)
        = w - 1 - d + Winternitz.distance w digits := by
      rw [Winternitz.distance, List.map_cons, List.sum_cons]
      rfl
    rw [hsplit] at hlt ⊢
    rw [checksum, difference_eq hw, ok_bind, difference_eq (by omega), ok_bind,
      sum_eq (by omega), ok_bind, ih (fun x hx => hd x (List.mem_cons_of_mem _ hx)) _ (by omega),
      Nat.add_assoc]

section

variable {p : Winternitz} (hp : p.Valid)

include hp

/-- Checksums are 32-bit numbers, so their digits take at most five bytes. -/
theorem checksumBytes_le : p.checksumBytes ≤ 8 := by
  have hbits := hp.digitBits_le
  -- the largest checksum is a 32-bit number
  have hlog : p.maxChecksum.log2 ≤ 31 := by
    have hlt : p.maxChecksum < 2 ^ 32 := Nat.mod_lt _ (Nat.two_pow_pos 32)
    by_cases hzero : p.maxChecksum = 0
    · rw [hzero]
      decide
    · have hlog := (Nat.log2_lt hzero).mpr hlt
      omega
  have hdigits : p.checksumDigits * p.digitBits ≤ 31 + p.digitBits := by
    have hdiv := Nat.div_mul_le_self p.maxChecksum.log2 p.digitBits
    unfold Winternitz.checksumDigits
    rw [Nat.succ_mul]
    omega
  unfold Winternitz.checksumBytes Bytes.pieceCount
  omega

/-- The bytes of the checksum are the low ones of a word of 64 bits. -/
theorem checksumField_eq {digits : List Nat} (hd : ∀ d ∈ digits, d < p.w)
    (hlt : Winternitz.distance p.w digits < 2 ^ 32) :
    checksumField p digits = .ok (p.checksumField digits) := by
  have hbytes := checksumBytes_le hp
  have hshift : p.checksumShift < 8 := Nat.mod_lt _ (by decide)
  set total := Winternitz.distance p.w digits with htotal
  have hsum : checksum p.w 0 digits = .ok total := by
    have h := checksum_eq (by have := hp.two_le_w; omega) hd 0 (by omega)
    rwa [Nat.zero_add] at h
  -- the shift is by less than a byte, so nothing leaves the word
  have hshifted : (UInt64.ofNat total <<< UInt64.ofNat p.checksumShift).toNat
      = total <<< p.checksumShift := by
    have hpow : 2 ^ p.checksumShift ≤ 2 ^ 7 := Nat.pow_le_pow_right two_pos (by omega)
    have hfits : total * 2 ^ p.checksumShift < 2 ^ 64 := by
      calc total * 2 ^ p.checksumShift
          ≤ total * 2 ^ 7 := Nat.mul_le_mul_left _ hpow
        _ < 2 ^ 64 := by omega
    have htoNat : (UInt64.ofNat total).toNat = total := by
      rw [UInt64.toNat_ofNat', Nat.mod_eq_of_lt (by omega)]
    rw [UInt64.toNat_shiftLeft, toNat_ofNat_of_le (by omega), htoNat, Nat.shiftLeft_eq,
      Nat.mod_eq_of_lt hfits]
  -- the field is the low end of the eight bytes
  have hlow : (Bytes.bigEndian 8 (total <<< p.checksumShift)).drop (8 - p.checksumBytes)
      = Bytes.bigEndian p.checksumBytes (total <<< p.checksumShift) := by
    have hadd := Bytes.bigEndian_add (8 - p.checksumBytes) p.checksumBytes
      (total <<< p.checksumShift)
    rw [Nat.sub_add_cancel hbytes] at hadd
    rw [hadd, List.drop_left' (Bytes.length_bigEndian ..)]
  unfold checksumField Winternitz.checksumField
  rw [hsum, ok_bind, shiftLeft64_eq _ (by omega), ok_bind, difference_eq hbytes, ok_bind, hshifted,
    slice_eq (Nat.sub_le _ _) (by simp), hlow, Winternitz.toNat_checksum hp.w_le hd hlt,
    List.take_of_length_le (by rw [Bytes.length_bigEndian]; omega)]

theorem digits_eq (message : Bytes) : digits p message = .ok (p.digits message) := by
  have hpos : 0 < p.digitBits := by
    rcases hp.digitBits_eq with h | h | h <;> omega
  have hbody : baseW message p.digitBits p.messageDigits = .ok (p.bodyDigits message) :=
    baseW_eq hpos hp.digitBits_le message p.messageDigits
  have hdistance : Winternitz.distance p.w (p.bodyDigits message) < 2 ^ 32 := by
    have hle := Winternitz.distance_le (w := p.w) (p.bodyDigits message)
    have hlen : (p.bodyDigits message).length = p.messageDigits := length_baseW ..
    rw [hlen] at hle
    exact lt_of_le_of_lt hle hp.checksum_lt
  unfold digits
  rw [hbody, ok_bind, checksumField_eq hp (Winternitz.bodyDigits_lt hp message) hdistance, ok_bind,
    baseW_eq hpos hp.digitBits_le]
  rfl

end

/-! ### Chains -/

/-- Walks `count` further steps of a chain; `step` is the number of the next one. -/
def walk (s : Setting) (publicSeed : Bytes) :
    (count step : Nat) → (x : Bytes) → Address → Except Breach Bytes
  | 0, _, x, _ => return x
  | count + 1, step, x, a => do
    let a := a.setStep (UInt32.ofNat step)
    let x ← hashNode s x publicSeed a
    walk s publicSeed count (step + 1) x a

/-- Walks `steps` steps of a chain from position `start`, if that does not pass its end. -/
def chain (s : Setting) (x : Bytes) (start steps : Nat) (publicSeed : Bytes) (a : Address) :
    Except Breach (Option Bytes) := do
  let last ← difference s.oneTime.w 1
  if start + steps ≤ last then
    let x ← walk s publicSeed steps start x a
    return some x
  else return none

/-- The value at the end of chain `i`, from a value at the position that its digit says. The end of
the chain is asserted to be reached. -/
def finishChain (s : Setting) (publicSeed : Bytes) (base : Address) (digits : List Nat)
    (x : Bytes) (i : Nat) : Except Breach Bytes := do
  let digit ← element digits i
  let last ← difference s.oneTime.w 1
  let rest ← difference last digit
  match ← chain s x digit rest publicSeed (base.setChain (UInt32.ofNat i)) with
  | some x => return x
  | none => .error .assertion

/-- The public key for which a signature of a message is valid. -/
def recover (s : Setting) (signature message publicSeed : Bytes) (layer tree leaf : Nat) :
    Except Breach (Option Bytes) := do
  let p := s.oneTime
  if signature.length = p.signatureBytes ∧ message.length = p.n then
    let digits ← digits p message
    let base := Address.oneTime layer tree leaf
    let nodes ← chunks p.n signature
    let ends ← nodes.zipIdx.mapM fun (x, i) => finishChain s publicSeed base digits x i
    return some ends.flatten
  else return none

section

variable {s : Setting}

theorem walk_eq (publicSeed : Bytes) (steps start : Nat) {x : Bytes} (hx : x.length = s.n)
    (a : Address) :
    walk s publicSeed steps start x a = .ok (advanceBy s publicSeed a steps start x) := by
  induction steps generalizing start x a with
  | zero => rfl
  | succ steps ih =>
    have hnext := Setting.length_advance (s := s) publicSeed (a.setStep (UInt32.ofNat start)) x
    rw [walk, hashNode_eq hx, ok_bind, ih (start + 1) hnext, advanceBy_setStep, advanceBy]

/-- The nodes of a signature are numbered like the chains. -/
theorem zipIdx_nodesOf (s : Setting) (signature : Bytes) :
    (OneTime.nodesOf s signature).zipIdx
      = (List.range s.oneTime.chains).map fun i =>
          ((OneTime.nodesOf s signature).getD i [], i) := by
  apply List.ext_getElem
  · simp [OneTime.nodesOf]
  · intro i hi _
    have hi' : i < (OneTime.nodesOf s signature).length := by simpa using hi
    rw [List.getElem_zipIdx, List.getElem_map, List.getElem_range, Nat.zero_add,
      List.getD_eq_getElem _ _ hi']

variable (hp : s.oneTime.Valid)

include hp

theorem finishChain_eq (publicSeed : Bytes) (base : Address) (message : Bytes) {x : Bytes}
    (hx : x.length = s.n) {i : Nat} (hi : i < s.oneTime.chains) :
    finishChain s publicSeed base (s.oneTime.digits message) x i
      = .ok (advanceBy s publicSeed (base.setChain (UInt32.ofNat i))
          (s.oneTime.w - 1 - OneTime.digit s message i) (OneTime.digit s message i) x) := by
  have hw : 1 ≤ s.oneTime.w := by
    have := hp.two_le_w
    omega
  have hlt := OneTime.digit_lt hp message i
  have hdigit : element (s.oneTime.digits message) i = .ok (OneTime.digit s message i) := by
    have hi' : i < (s.oneTime.digits message).length := by
      rwa [Winternitz.length_digits]
    rw [element_eq hi', OneTime.digit, List.getD_eq_getElem _ _ hi']
  set digit := OneTime.digit s message i with hdef
  -- the steps that are left end at the last position
  have hend : digit + (s.oneTime.w - 1 - digit) ≤ s.oneTime.w - 1 := by omega
  unfold finishChain chain
  rw [hdigit, ok_bind, difference_eq hw, ok_bind, difference_eq (by omega), ok_bind, ok_bind,
    if_pos hend, walk_eq publicSeed _ _ hx]
  rfl

/-- **A signature of the right size is recovered without a breach.** -/
theorem recover_eq (publicSeed : Bytes) (layer tree leaf : Nat) {signature message : Bytes}
    (hs : signature.length = s.oneTime.signatureBytes) (hm : message.length = s.n) :
    recover s signature message publicSeed layer tree leaf
      = .ok (some (OneTime.recoveredNodes s publicSeed layer tree leaf message
          (OneTime.nodesOf s signature)).flatten) := by
  have hlen : signature.length = s.oneTime.chains * s.n := hs
  have hnodes : chunks s.oneTime.n signature = .ok (OneTime.nodesOf s signature) :=
    chunks_eq s.n_pos hlen
  -- each chain is finished from its own piece, none with a breach
  have hends : (OneTime.nodesOf s signature).zipIdx.mapM (fun (x, i) =>
      finishChain s publicSeed (.oneTime layer tree leaf) (s.oneTime.digits message) x i)
      = .ok (OneTime.recoveredNodes s publicSeed layer tree leaf message
          (OneTime.nodesOf s signature)) := by
    rw [zipIdx_nodesOf, mapM_eq (g := fun (x, i) => advanceBy s publicSeed
      ((Address.oneTime layer tree leaf).setChain (UInt32.ofNat i))
      (s.oneTime.w - 1 - OneTime.digit s message i) (OneTime.digit s message i) x), List.map_map]
    · rfl
    · intro node hnode
      obtain ⟨i, hi, rfl⟩ := List.mem_map.mp hnode
      rw [List.mem_range] at hi
      exact finishChain_eq hp publicSeed _ message (Bytes.length_getD_pieces hlen hi) hi
  unfold recover
  rw [if_pos ⟨hs, hm⟩, digits_eq hp, ok_bind, hnodes, ok_bind, hends]
  rfl

end

/-- Other signatures are refused. -/
theorem recover_of_ne {s : Setting} {signature message : Bytes}
    (h : ¬(signature.length = s.oneTime.signatureBytes ∧ message.length = s.n))
    (publicSeed : Bytes) (layer tree leaf : Nat) :
    recover s signature message publicSeed layer tree leaf = .ok none :=
  if_neg h

end Hypertree.Checked
