import Hypertree.Tweak
import Hypertree.Proofs.Bytes.Xor

/-!
# Keyed hash functions without failure

`hashNode` and `hashPair` fail only for nodes that are not as long as a digest. `advance` and `join`
are their values on nodes of the right size (`hashNode_eq`, `hashPair_eq`), as total functions, so
that chains and trees can be described without errors.

Of an engine's parameters, the hash functions use none, one-time keys the chain length and trees
their height. Settings that agree on these (`Setting.Agrees`) make the same values, whatever their
cache policies.
-/

namespace Hypertree

namespace Setting

/-- The value of `hashNode` on a node of the size of a digest. -/
def advance (s : Setting) (publicSeed : Bytes) (a : Address) (node : Bytes) : Bytes :=
  s.f (s.prfAddress publicSeed (a.withSelector 0))
    (Bytes.xorBytewise node (s.prfAddress publicSeed (a.withSelector 1)))

/-- The value of `hashPair` on nodes of the size of a digest. -/
def join (s : Setting) (publicSeed : Bytes) (a : Address) (left right : Bytes) : Bytes :=
  s.h (s.prfAddress publicSeed (a.withSelector 0))
    (Bytes.xorBytewise left (s.prfAddress publicSeed (a.withSelector 1)) ++
      Bytes.xorBytewise right (s.prfAddress publicSeed (a.withSelector 2)))

variable {s : Setting}

theorem n_pos (s : Setting) : 0 < s.n :=
  s.digest.size_pos

@[simp]
theorem length_prfAddress (key : Bytes) (a : Address) : (s.prfAddress key a).length = s.n := by
  simp [prfAddress, prf]

@[simp]
theorem length_prfIndex (key : Bytes) (index : Nat) : (s.prfIndex key index).length = s.n := by
  simp [prfIndex, prf]

@[simp]
theorem length_hMsg (r root : Bytes) (index : Nat) (message : Bytes) :
    (s.hMsg r root index message).length = s.n := by
  simp [hMsg]

@[simp]
theorem length_prfKeygen (secretSeed : Bytes) (nonce : Nonce) (publicSeed : Bytes) (a : Address) :
    (s.prfKeygen secretSeed nonce publicSeed a).length = s.n := by
  simp [prfKeygen]

@[simp]
theorem length_advance (publicSeed : Bytes) (a : Address) (node : Bytes) :
    (s.advance publicSeed a node).length = s.n := by
  simp [advance, f]

@[simp]
theorem length_join (publicSeed : Bytes) (a : Address) (left right : Bytes) :
    (s.join publicSeed a left right).length = s.n := by
  simp [join, h]

theorem hashNode_eq {node : Bytes} (hnode : node.length = s.n) (publicSeed : Bytes) (a : Address) :
    s.hashNode node publicSeed a = .ok (s.advance publicSeed a node) := by
  rw [hashNode, Bytes.xor_eq (by simp [hnode])]
  rfl

theorem hashPair_eq {left right : Bytes} (hleft : left.length = s.n) (hright : right.length = s.n)
    (publicSeed : Bytes) (a : Address) :
    s.hashPair left right publicSeed a = .ok (s.join publicSeed a left right) := by
  rw [hashPair, Bytes.xor_eq (by simp [hleft]), Bytes.xor_eq (by simp [hright])]
  rfl

/-! ### Settings that make the same values -/

/-- Agreement on everything that a node or a signature depends on. -/
structure Agrees (s t : Setting) : Prop where
  suite : s.suite = t.suite
  digest : s.digest = t.digest
  winternitz : s.params.winternitz = t.params.winternitz
  treeHeight : s.params.treeHeight = t.params.treeHeight

namespace Agrees

variable {t : Setting}

theorem n_eq (h : s.Agrees t) : s.n = t.n := by
  rw [n, n, h.digest]

theorem oneTime_eq (h : s.Agrees t) : s.oneTime = t.oneTime := by
  rw [oneTime, oneTime, h.n_eq, h.winternitz]

theorem tagged_eq (h : s.Agrees t) : s.tagged = t.tagged := by
  funext tag key material
  unfold tagged
  rw [h.suite, h.digest, h.n_eq]

theorem advance_eq (h : s.Agrees t) : s.advance = t.advance := by
  funext publicSeed a node
  simp only [advance, f, prfAddress, prf, h.tagged_eq]

theorem join_eq (h : s.Agrees t) : s.join = t.join := by
  funext publicSeed a left right
  simp only [join, Setting.h, prfAddress, prf, h.tagged_eq]

theorem prfKeygen_eq (h : s.Agrees t) : s.prfKeygen = t.prfKeygen := by
  funext secretSeed nonce publicSeed a
  simp only [prfKeygen, h.tagged_eq]

theorem prfIndex_eq (h : s.Agrees t) : s.prfIndex = t.prfIndex := by
  funext key index
  simp only [prfIndex, prf, h.tagged_eq]

theorem hMsg_eq (h : s.Agrees t) : s.hMsg = t.hMsg := by
  funext r root index message
  simp only [hMsg, h.tagged_eq, h.n_eq]

end Agrees

end Setting

end Hypertree
