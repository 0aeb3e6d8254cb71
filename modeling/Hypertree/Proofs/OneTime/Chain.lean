import Hypertree.OneTime
import Hypertree.Proofs.OneTime.Digits
import Hypertree.Proofs.Schedule
import Hypertree.Proofs.Tweak

/-!
# One-time signatures recover their public key

`advanceBy` is the value of a walk along a chain (`walk_eq`); two walks one after the other are one
(`advanceBy_add`), because a step depends on its position in the chain and not on where the walk
began.

`publicNodes` and `signatureNodes` are the public key and the signature of a leaf as lists of nodes,
`recoveredNodes` the public key to which a signature leads. Under seeds of the right size for a leaf
that has a nonce (`Supports`), the operations return them (`publicKey_eq`, `sign_eq`, `recover_eq`),
and a signature leads to the public key (`recoveredNodes_signatureNodes`): per chain, the signer's
steps and the verifier's add up to the whole of it.
-/

namespace Hypertree

open Bytes

/-! ### Chains -/

/-- The value `steps` steps after a value of position `start`. -/
def advanceBy (s : Setting) (publicSeed : Bytes) (a : Address) :
    (steps start : Nat) → (x : Bytes) → Bytes
  | 0, _, x => x
  | steps + 1, start, x =>
    advanceBy s publicSeed a steps (start + 1)
      (s.advance publicSeed (a.setStep (UInt32.ofNat start)) x)

theorem Address.setStep_setStep (a : Address) (i j : UInt32) :
    (a.setStep i).setStep j = a.setStep j := by
  obtain ⟨layer, tree, place, selector⟩ := a
  cases place <;> rfl

section

variable {s : Setting} {publicSeed : Bytes}

theorem length_advanceBy {a : Address} {steps start : Nat} {x : Bytes} (hx : x.length = s.n) :
    (advanceBy s publicSeed a steps start x).length = s.n := by
  induction steps generalizing start x with
  | zero => exact hx
  | succ steps ih => exact ih (Setting.length_advance ..)

/-- A walk only depends on the chain of its address, not on the step written in it. -/
theorem advanceBy_setStep (a : Address) (i : UInt32) (steps start : Nat) (x : Bytes) :
    advanceBy s publicSeed (a.setStep i) steps start x
      = advanceBy s publicSeed a steps start x := by
  induction steps generalizing start x with
  | zero => rfl
  | succ steps ih =>
    rw [advanceBy, advanceBy, Address.setStep_setStep, ih]

/-- Two walks one after the other are one. -/
theorem advanceBy_add (a : Address) (m k start : Nat) (x : Bytes) :
    advanceBy s publicSeed a (m + k) start x
      = advanceBy s publicSeed a k (start + m) (advanceBy s publicSeed a m start x) := by
  induction m generalizing start x with
  | zero =>
    rw [Nat.zero_add, Nat.add_zero]
    rfl
  | succ m ih =>
    rw [Nat.succ_add, advanceBy, ih, advanceBy, Nat.add_assoc, Nat.add_comm 1 m]

theorem walk_eq (publicSeed : Bytes) (steps start : Nat) {x : Bytes} (hx : x.length = s.n)
    (a : Address) :
    ∃ a', walk s publicSeed steps start x a
      = .ok (advanceBy s publicSeed a steps start x, a') := by
  induction steps generalizing start x a with
  | zero => exact ⟨a, rfl⟩
  | succ steps ih =>
    obtain ⟨a', h⟩ := ih (start + 1)
      (Setting.length_advance publicSeed (a.setStep (UInt32.ofNat start)) x)
      (a.setStep (UInt32.ofNat start))
    refine ⟨a', ?_⟩
    rw [walk]
    simp only [Setting.hashNode_eq hx, bind, Except.bind, h, advanceBy_setStep, advanceBy]

theorem chain_eq (publicSeed : Bytes) (start steps : Nat) {x : Bytes} (hx : x.length = s.n)
    (hle : start + steps ≤ s.oneTime.w - 1) (a : Address) :
    ∃ a', chain s x start steps publicSeed a
      = .ok (some (advanceBy s publicSeed a steps start x, a')) := by
  obtain ⟨a', h⟩ := walk_eq publicSeed steps start hx a
  refine ⟨a', ?_⟩
  unfold chain
  rw [if_pos hle, h]
  rfl

end

namespace OneTime

/-! ### Keys and signatures as lists of nodes -/

/-- The start of chain `i` of the one-time key at an address. -/
def secretNode (s : Setting) (seeds : Seeds) (base : Address) (leaf i : Nat) : Bytes :=
  s.prfKeygen seeds.secretSeed ((seeds.nonces.get? leaf).getD ⟨0, 0⟩) seeds.publicSeed
    (base.setChain (UInt32.ofNat i))

/-- The value at position `k` of chain `i` of the one-time key at an address. -/
def chainNode (s : Setting) (seeds : Seeds) (base : Address) (leaf i k : Nat) : Bytes :=
  advanceBy s seeds.publicSeed (base.setChain (UInt32.ofNat i)) k 0
    (secretNode s seeds base leaf i)

/-- The public key of a leaf: its chain ends. -/
def publicNodes (s : Setting) (seeds : Seeds) (layer tree leaf : Nat) : List Bytes :=
  (List.range s.oneTime.chains).map fun i =>
    chainNode s seeds (.oneTime layer tree leaf) leaf i (s.oneTime.w - 1)

/-- The digit of a message that chain `i` signs. -/
def digit (s : Setting) (message : Bytes) (i : Nat) : Nat :=
  (s.oneTime.digits message).getD i 0

/-- The signature of a message with the key of a leaf: the value of each chain at its digit. -/
def signatureNodes (s : Setting) (seeds : Seeds) (layer tree leaf : Nat) (message : Bytes) :
    List Bytes :=
  (List.range s.oneTime.chains).map fun i =>
    chainNode s seeds (.oneTime layer tree leaf) leaf i (digit s message i)

/-- The chain ends to which the nodes of a signature of a message lead. -/
def recoveredNodes (s : Setting) (publicSeed : Bytes) (layer tree leaf : Nat) (message : Bytes)
    (nodes : List Bytes) : List Bytes :=
  (List.range s.oneTime.chains).map fun i =>
    advanceBy s publicSeed ((Address.oneTime layer tree leaf).setChain (UInt32.ofNat i))
      (s.oneTime.w - 1 - digit s message i) (digit s message i) (nodes.getD i [])

/-! ### The operations return them -/

/-- Seeds of the right size, and a nonce for the leaf. -/
structure Supports (s : Setting) (seeds : Seeds) (leaf : Nat) : Prop where
  publicSeed : seeds.publicSeed.length = s.n
  secretSeed : seeds.secretSeed.length = s.n
  nonce : leaf < seeds.nonces.size

variable {s : Setting} {seeds : Seeds} {leaf : Nat}

theorem length_chainNode (base : Address) (i k : Nat) :
    (chainNode s seeds base leaf i k).length = s.n :=
  length_advanceBy (Setting.length_prfKeygen ..)

theorem checkSeed_eq {n : Nat} (hn : 0 < n) {seed : Bytes} (h : seed.length = n)
    (material : Material) (field : Field) : checkSeed n seed material field = .ok () := by
  have hne : seed.isEmpty = false := by
    rw [List.isEmpty_eq_false_iff, ← List.length_pos_iff, h]
    exact hn
  unfold checkSeed
  rw [hne, if_neg Bool.false_ne_true, if_pos h]

theorem checkSeeds_eq (h : Supports s seeds leaf) : checkSeeds s seeds = .ok () := by
  unfold checkSeeds
  rw [checkSeed_eq s.n_pos h.secretSeed, checkSeed_eq s.n_pos h.publicSeed]
  rfl

theorem digit_lt (hp : s.oneTime.Valid) (message : Bytes) (i : Nat) :
    digit s message i < s.oneTime.w := by
  unfold digit
  rw [List.getD_eq_getElem?_getD]
  by_cases hi : i < (s.oneTime.digits message).length
  · rw [List.getElem?_eq_getElem hi]
    exact Winternitz.digits_lt hp message _ (List.getElem_mem hi)
  · -- there is no such chain, and zero is a digit
    rw [List.getElem?_eq_none (Nat.le_of_not_lt hi)]
    have hw := hp.two_le_w
    simp only [Option.getD_none]
    omega

theorem getD_toArray_digits (message : Bytes) (i : Nat) :
    (s.oneTime.digits message).toArray.getD i 0 = digit s message i := by
  rw [Array.getD_eq_getD_getElem?, List.getElem?_toArray, digit, List.getD_eq_getElem?_getD]

theorem chainFromSecret_eq (hleaf : leaf < seeds.nonces.size) (base : Address) (i : Nat)
    {steps : Nat} (hsteps : steps ≤ s.oneTime.w - 1) :
    chainFromSecret s seeds base leaf i steps = .ok (chainNode s seeds base leaf i steps) := by
  obtain ⟨nonce, hnonce⟩ : ∃ nonce, seeds.nonces.get? leaf = some nonce :=
    ⟨_, Array.getElem?_eq_getElem hleaf⟩
  have hstart : (secretNode s seeds base leaf i).length = s.n := Setting.length_prfKeygen ..
  -- the chain is walked from its start
  obtain ⟨a', hc⟩ := chain_eq seeds.publicSeed 0 steps hstart (by omega)
    (base.setChain (UInt32.ofNat i))
  unfold secretNode at hc
  rw [hnonce, Option.getD_some] at hc
  simp only [chainFromSecret, hnonce, hc, bind, Except.bind, pure, Except.pure, chainNode,
    secretNode, Option.getD_some]

theorem length_zeros_signatureBytes (s : Setting) :
    (Bytes.zeros s.oneTime.signatureBytes).length = s.oneTime.chains * s.n := by
  simp [Winternitz.signatureBytes, Setting.oneTime]

theorem publicKey_eq (h : Supports s seeds leaf) (layer tree : Nat) :
    publicKey s seeds layer tree leaf = .ok (publicNodes s seeds layer tree leaf).flatten := by
  simp only [publicKey, checkSeeds_eq h, bind, Except.bind]
  apply Schedule.mapPieces_eq s.n_pos (length_zeros_signatureBytes s)
  intro i _
  exact chainFromSecret_eq h.nonce _ i le_rfl

theorem sign_eq (h : Supports s seeds leaf) (hp : s.oneTime.Valid) (layer tree : Nat)
    {message : Bytes} (hm : message.length = s.n) :
    sign s seeds layer tree leaf message
      = .ok (signatureNodes s seeds layer tree leaf message).flatten := by
  have hm' : message.length = s.oneTime.n := hm
  simp only [sign, checkSeeds_eq h, hm', bind, Except.bind, if_true, getD_toArray_digits]
  apply Schedule.mapPieces_eq s.n_pos (length_zeros_signatureBytes s)
  intro i _
  exact chainFromSecret_eq h.nonce _ i (Nat.le_sub_one_of_lt (digit_lt hp message i))

theorem finishChain_eq (hp : s.oneTime.Valid) (publicSeed : Bytes) (base : Address) (i : Nat)
    (message : Bytes) {x : Bytes} (hx : x.length = s.n) :
    finishChain s publicSeed base i (digit s message i) x
      = .ok (advanceBy s publicSeed (base.setChain (UInt32.ofNat i))
          (s.oneTime.w - 1 - digit s message i) (digit s message i) x) := by
  have hd := digit_lt hp message i
  obtain ⟨a', hc⟩ := chain_eq publicSeed (digit s message i) (s.oneTime.w - 1 - digit s message i)
    hx (by omega) (base.setChain (UInt32.ofNat i))
  simp only [finishChain, hc, bind, Except.bind, pure, Except.pure]

/-- The nodes of a signature of the right size. -/
def nodesOf (s : Setting) (signature : Bytes) : List Bytes :=
  pieces s.n s.oneTime.chains signature

theorem recover_eq (hp : s.oneTime.Valid) (publicSeed : Bytes) (layer tree leaf : Nat)
    {signature message : Bytes} (hs : signature.length = s.oneTime.signatureBytes)
    (hm : message.length = s.n) :
    recover s signature message publicSeed layer tree leaf
      = .ok (some (recoveredNodes s publicSeed layer tree leaf message
          (nodesOf s signature)).flatten) := by
  have hm' : message.length = s.oneTime.n := hm
  have hlen : signature.length = s.oneTime.chains * s.n := hs
  have hpieces : Schedule.mapPieces s.n (fun i x =>
      finishChain s publicSeed (.oneTime layer tree leaf) i (digit s message i) x) signature
      = .ok (recoveredNodes s publicSeed layer tree leaf message (nodesOf s signature)).flatten := by
    apply Schedule.mapPieces_eq s.n_pos hlen
    intro i hi
    exact finishChain_eq hp publicSeed _ i message (length_getD_pieces hlen hi)
  unfold recover
  rw [if_pos ⟨hs, hm'⟩]
  simp only [getD_toArray_digits]
  exact congrArg (Except.map some) hpieces

/-! ### A signature leads to the public key -/

theorem length_publicNodes (layer tree : Nat) :
    (publicNodes s seeds layer tree leaf).length = s.oneTime.chains := by
  simp [publicNodes]

theorem length_of_mem_publicNodes {layer tree : Nat} {x : Bytes}
    (hx : x ∈ publicNodes s seeds layer tree leaf) : x.length = s.n := by
  obtain ⟨i, _, rfl⟩ := List.mem_map.mp hx
  exact length_chainNode ..

theorem length_signatureNodes (layer tree : Nat) (message : Bytes) :
    (signatureNodes s seeds layer tree leaf message).length = s.oneTime.chains := by
  simp [signatureNodes]

theorem length_of_mem_signatureNodes {layer tree : Nat} {message x : Bytes}
    (hx : x ∈ signatureNodes s seeds layer tree leaf message) : x.length = s.n := by
  obtain ⟨i, _, rfl⟩ := List.mem_map.mp hx
  exact length_chainNode ..

theorem length_flatten_signatureNodes (layer tree : Nat) (message : Bytes) :
    (signatureNodes s seeds layer tree leaf message).flatten.length = s.oneTime.signatureBytes := by
  rw [length_flatten fun _ => length_of_mem_signatureNodes, length_signatureNodes]
  rfl

/-- The nodes of a signature, cut from its bytes. -/
theorem nodesOf_signatureNodes (layer tree : Nat) (message : Bytes) :
    nodesOf s (signatureNodes s seeds layer tree leaf message).flatten
      = signatureNodes s seeds layer tree leaf message := by
  have hlen : s.oneTime.chains = (signatureNodes s seeds layer tree leaf message).length :=
    (length_signatureNodes layer tree message).symm
  unfold nodesOf
  rw [hlen]
  exact pieces_flatten fun _ => length_of_mem_signatureNodes

/-- **The verifier's steps complete the signer's**: a signature leads to the public key. -/
theorem recoveredNodes_signatureNodes (hp : s.oneTime.Valid) (layer tree : Nat)
    (message : Bytes) :
    recoveredNodes s seeds.publicSeed layer tree leaf message
        (signatureNodes s seeds layer tree leaf message)
      = publicNodes s seeds layer tree leaf := by
  unfold recoveredNodes publicNodes
  apply List.map_congr_left
  intro i hi
  have hd := digit_lt hp message i
  have hnode : (signatureNodes s seeds layer tree leaf message).getD i []
      = chainNode s seeds (.oneTime layer tree leaf) leaf i (digit s message i) := by
    unfold signatureNodes
    rw [List.getD_eq_getElem _ _ (by simpa using hi), List.getElem_map, List.getElem_range]
  rw [hnode, chainNode, chainNode]
  conv_lhs => arg 5; rw [← Nat.zero_add (digit s message i)]
  -- up to the digit by the signer, and from there to the end by the verifier
  rw [← advanceBy_add, Nat.add_sub_cancel' (Nat.le_sub_one_of_lt hd)]

end OneTime

namespace Setting.Agrees

variable {s t : Setting}

theorem advanceBy_eq (h : s.Agrees t) : advanceBy s = advanceBy t := by
  funext publicSeed a steps
  induction steps with
  | zero => rfl
  | succ steps ih =>
    funext start x
    rw [advanceBy, advanceBy, ih, h.advance_eq]

theorem chainNode_eq (h : s.Agrees t) : OneTime.chainNode s = OneTime.chainNode t := by
  funext seeds base leaf i k
  simp only [OneTime.chainNode, OneTime.secretNode, h.advanceBy_eq, h.prfKeygen_eq]

theorem publicNodes_eq (h : s.Agrees t) : OneTime.publicNodes s = OneTime.publicNodes t := by
  funext seeds layer tree leaf
  simp only [OneTime.publicNodes, h.chainNode_eq, h.oneTime_eq]

theorem signatureNodes_eq (h : s.Agrees t) :
    OneTime.signatureNodes s = OneTime.signatureNodes t := by
  funext seeds layer tree leaf message
  simp only [OneTime.signatureNodes, OneTime.digit, h.chainNode_eq, h.oneTime_eq]

end Setting.Agrees

end Hypertree
