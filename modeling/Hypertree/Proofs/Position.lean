import Hypertree.Proofs.Address
import Hypertree.Proofs.Merkle.NodeCache
import Hypertree.Proofs.Params
import Hypertree.Tweak

/-!
# Positions and their addresses

A hash function is called at three kinds of position in the trees of a key: at a step of a chain, at
a pair of nodes of an L-tree, and at a node of a tree that has children. `Position.address` is the
address that the setters of addresses make of the coordinates, and `Position.InKey` says which
positions a key has. All coordinates of these fit into the words of an address, so different
positions have different addresses, under whatever selectors (`Position.InKey.address_inj`).
-/

namespace Hypertree

/-- A position in the trees of a key at which a hash function is called. -/
inductive Position where
  /-- A step of a chain of the one-time key of a leaf. -/
  | step (layer tree leaf chain number : Nat)
  /-- A pair of nodes at a level of the L-tree of a leaf. -/
  | pair (layer tree leaf level number : Nat)
  /-- The parent with this index of two children at this height. -/
  | node (layer tree height index : Nat)
  deriving DecidableEq, Repr

/-- The number of nodes at a level of an L-tree over `count` nodes. -/
def LTree.levelSize (count : Nat) : (level : Nat) → Nat
  | 0 => count
  | level + 1 => (levelSize count level + 1) / 2

namespace Position

/-- The address of a position. -/
def address : Position → Address
  | step layer tree leaf chain number =>
    ((Address.oneTime layer tree leaf).setChain (UInt32.ofNat chain)).setStep (UInt32.ofNat number)
  | pair layer tree leaf level number =>
    ((Address.ltree layer tree leaf).setLevel (UInt32.ofNat level)).setIndex (UInt32.ofNat number)
  | node layer tree height index => Address.hashTree layer tree height index

/-- The positions of a key. -/
def InKey (s : Setting) : Position → Prop
  | step layer tree leaf chain number => Caches.HasTree s.params.toHeader layer tree ∧
      leaf < 2 ^ s.params.treeHeight ∧ chain < s.oneTime.chains ∧ number < s.oneTime.w - 1
  | pair layer tree leaf level number => Caches.HasTree s.params.toHeader layer tree ∧
      leaf < 2 ^ s.params.treeHeight ∧ number < LTree.levelSize s.oneTime.chains level / 2
  | node layer tree height index => Caches.HasTree s.params.toHeader layer tree ∧
      height < s.params.treeHeight ∧ index < 2 ^ (s.params.treeHeight - (height + 1))

/-- The coordinates are no longer than the words in which they are written. -/
def Fits : Position → Prop
  | step layer tree leaf chain number =>
    layer < 2 ^ 32 ∧ tree < 2 ^ 64 ∧ leaf < 2 ^ 32 ∧ chain < 2 ^ 32 ∧ number < 2 ^ 32
  | pair layer tree leaf level number =>
    layer < 2 ^ 32 ∧ tree < 2 ^ 64 ∧ leaf < 2 ^ 32 ∧ level < 2 ^ 32 ∧ number < 2 ^ 32
  | node layer tree height index =>
    layer < 2 ^ 32 ∧ tree < 2 ^ 64 ∧ height < 2 ^ 32 ∧ index < 2 ^ 32

end Position

/-! ### Coordinates fit -/

namespace LTree

theorem levelSize_le (count level : Nat) : levelSize count level ≤ count := by
  induction level with
  | zero => exact le_rfl
  | succ level ih =>
    rw [levelSize]
    omega

/-- There are fewer levels with pairs than nodes. -/
theorem level_lt (count level : Nat) (h : 2 ≤ levelSize count level) : level < count := by
  have hsum : level + levelSize count level ≤ count := by
    induction level with
    | zero => exact (Nat.zero_add _).le
    | succ level ih =>
      rw [levelSize] at h ⊢
      have hlevel := ih (by omega)
      omega
  omega

end LTree

namespace Position

variable {s : Setting} {p q : Position}

/-- There are fewer chains than words. -/
theorem chains_le (hs : s.params.validate = .ok ()) : s.oneTime.chains ≤ 2 ^ 20 := by
  have hw := (s.params.validate_eq_ok_iff.mp hs).2.1
  have hbytes := Winternitz.signatureBytes_le s.digest hw
  exact (Nat.le_mul_of_pos_right _ s.digest.size_pos).trans hbytes

theorem tree_fits (hs : s.params.validate = .ok ()) {layer tree : Nat}
    (h : Caches.HasTree s.params.toHeader layer tree) : layer < 2 ^ 32 ∧ tree < 2 ^ 64 := by
  have hv := (s.params.validate_eq_ok_iff.mp hs).1
  have hlayers := hv.layers_le
  have hheight : s.params.height - (layer + 1) * s.params.treeHeight ≤ 64 :=
    (Nat.sub_le _ _).trans (hv.height_le.trans (by decide))
  exact ⟨by have := h.1; omega, h.2.trans_le (Nat.pow_le_pow_right two_pos hheight)⟩

/-- The positions of a key have coordinates that fit. -/
theorem InKey.fits (hs : s.params.validate = .ok ()) (hp : p.InKey s) : p.Fits := by
  -- the trees are at most of height 20, which bounds leaves and nodes
  have hpow : ∀ {k : Nat}, k ≤ s.params.treeHeight → 2 ^ k ≤ 2 ^ 20 := fun hk =>
    Nat.pow_le_pow_right two_pos
      (hk.trans (s.params.validate_eq_ok_iff.mp hs).1.treeHeight_le)
  have hchains := chains_le hs
  cases p with
  | step layer tree leaf chain number =>
    obtain ⟨htree, hleaf, hchain, hnumber⟩ := hp
    obtain ⟨hlayer, htree⟩ := tree_fits hs htree
    have hleaves := hpow le_rfl
    have hw : s.oneTime.w ≤ 256 := by
      rcases (s.params.validate_eq_ok_iff.mp hs).2.1 with h | h | h <;>
        exact h.le.trans (by decide)
    exact ⟨hlayer, htree, by omega, by omega, by omega⟩
  | pair layer tree leaf level number =>
    obtain ⟨htree, hleaf, hnumber⟩ := hp
    obtain ⟨hlayer, htree⟩ := tree_fits hs htree
    have hleaves := hpow le_rfl
    have hsize := LTree.levelSize_le s.oneTime.chains level
    have hlevel := LTree.level_lt s.oneTime.chains level (by omega)
    exact ⟨hlayer, htree, by omega, by omega, by omega⟩
  | node layer tree height index =>
    obtain ⟨htree, hheight, hindex⟩ := hp
    obtain ⟨hlayer, htree⟩ := tree_fits hs htree
    have hnodes := hpow (Nat.sub_le s.params.treeHeight (height + 1))
    have hle := (s.params.validate_eq_ok_iff.mp hs).1.treeHeight_le
    exact ⟨hlayer, htree, by omega, by omega⟩

/-! ### Addresses -/

theorem ofNat_inj {a b : Nat} (ha : a < 2 ^ 32) (hb : b < 2 ^ 32)
    (h : UInt32.ofNat a = UInt32.ofNat b) : a = b := by
  have hvalue := congrArg UInt32.toNat h
  rwa [UInt32.toNat_ofNat_of_lt' ha, UInt32.toNat_ofNat_of_lt' hb] at hvalue

theorem ofNat64_inj {a b : Nat} (ha : a < 2 ^ 64) (hb : b < 2 ^ 64)
    (h : UInt64.ofNat a = UInt64.ofNat b) : a = b := by
  have hvalue := congrArg UInt64.toNat h
  rwa [UInt64.toNat_ofNat_of_lt' ha, UInt64.toNat_ofNat_of_lt' hb] at hvalue

/-- Positions with one address are one position, if their coordinates fit. -/
theorem Fits.address_inj {k k' : UInt32} (hp : p.Fits) (hq : q.Fits)
    (h : p.address.withSelector k = q.address.withSelector k') : p = q ∧ k = k' := by
  obtain ⟨hlayer, htree, hplace, hselector⟩ := Address.mk.inj h
  refine ⟨?_, hselector⟩
  -- the kinds of place are those of the positions
  cases p with
  | step layer tree leaf chain number =>
    cases q with
    | step layer' tree' leaf' chain' number' =>
      obtain ⟨hl, ht, hi, hc, hn⟩ := hp
      obtain ⟨hl', ht', hi', hc', hn'⟩ := hq
      obtain ⟨hleaf, hchain, hnumber⟩ := Place.oneTime.inj hplace
      rw [ofNat_inj hl hl' hlayer, ofNat64_inj ht ht' htree, ofNat_inj hi hi' hleaf,
        ofNat_inj hc hc' hchain, ofNat_inj hn hn' hnumber]
    | _ => cases hplace
  | pair layer tree leaf level number =>
    cases q with
    | pair layer' tree' leaf' level' number' =>
      obtain ⟨hl, ht, hi, hc, hn⟩ := hp
      obtain ⟨hl', ht', hi', hc', hn'⟩ := hq
      obtain ⟨hleaf, hlevel, hnumber⟩ := Place.ltree.inj hplace
      rw [ofNat_inj hl hl' hlayer, ofNat64_inj ht ht' htree, ofNat_inj hi hi' hleaf,
        ofNat_inj hc hc' hlevel, ofNat_inj hn hn' hnumber]
    | _ => cases hplace
  | node layer tree height index =>
    cases q with
    | node layer' tree' height' index' =>
      obtain ⟨hl, ht, hz, hi⟩ := hp
      obtain ⟨hl', ht', hz', hi'⟩ := hq
      obtain ⟨hheight, hindex⟩ := Place.hashTree.inj hplace
      rw [ofNat_inj hl hl' hlayer, ofNat64_inj ht ht' htree, ofNat_inj hz hz' hheight,
        ofNat_inj hi hi' hindex]
    | _ => cases hplace

/-- **The positions of a key have different addresses**, each under every selector. -/
theorem InKey.address_inj (hs : s.params.validate = .ok ()) (hp : p.InKey s) (hq : q.InKey s)
    {k k' : UInt32}
    (h : (p.address.withSelector k).toBytes = (q.address.withSelector k').toBytes) :
    p = q ∧ k = k' :=
  (hp.fits hs).address_inj (hq.fits hs) (Address.toBytes_injective h)

end Position

end Hypertree
