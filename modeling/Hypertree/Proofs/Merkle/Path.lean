import Hypertree.Proofs.Merkle.Tree

/-!
# Climbing to the root

`climbNodes` is the value of `climb`. From a node of a tree, past its siblings there, it reaches the
node above (`climbNodes_holds`): at each height, the lowest bit of the index says whether the node
is a left or a right child, and `xor` with one names the other child.

`rootFromSignature_eq` says what `rootFromSignature` does for every input with a digest of the right
size: sizes and leaf are checked, and then there is always a root. For a signature made in a tree
the root has the property that the nodes on the path have, so it is the root of the tree if these
have their values (`signatureRoot_holds`).
-/

namespace Hypertree

open Bytes

/-- The value reached from a node at height `height` past the given siblings. -/
def climbNodes (s : Setting) (publicSeed : Bytes) (layer tree leaf : Nat) :
    (height : Nat) → (node : Bytes) → List Bytes → Bytes
  | _, node, [] => node
  | height, node, sibling :: rest =>
    let a := Address.hashTree layer tree height (leaf >>> (height + 1))
    climbNodes s publicSeed layer tree leaf (height + 1)
      (if (leaf >>> height) % 2 = 0 then s.join publicSeed a node sibling
        else s.join publicSeed a sibling node) rest

variable {s : Setting} {publicSeed : Bytes} {layer tree leaf : Nat}

theorem length_climbNodes {siblings : List Bytes} (height : Nat) {node : Bytes}
    (hnode : node.length = s.n) :
    (climbNodes s publicSeed layer tree leaf height node siblings).length = s.n := by
  induction siblings generalizing height node with
  | nil => exact hnode
  | cons sibling rest ih =>
    rw [climbNodes]
    apply ih
    split_ifs
    · exact Setting.length_join ..
    · exact Setting.length_join ..

theorem climb_eq {siblings : List Bytes} (h : ∀ x ∈ siblings, x.length = s.n) (height : Nat)
    {node : Bytes} (hnode : node.length = s.n) :
    climb s publicSeed layer tree leaf height node siblings
      = .ok (climbNodes s publicSeed layer tree leaf height node siblings) := by
  induction siblings generalizing height node with
  | nil => rfl
  | cons sibling rest ih =>
    have hsibling : sibling.length = s.n := h sibling List.mem_cons_self
    have hrest : ∀ x ∈ rest, x.length = s.n := fun x hx => h x (List.mem_cons_of_mem _ hx)
    rw [climb, climbNodes]
    by_cases hbit : (leaf >>> height) % 2 = 0
    · -- the node is a left child
      simp only [if_pos hbit, Setting.hashPair_eq hnode hsibling]
      exact ih hrest _ (Setting.length_join ..)
    · -- the node is a right child
      simp only [if_neg hbit, Setting.hashPair_eq hsibling hnode]
      exact ih hrest _ (Setting.length_join ..)

/-! ### Paths of a tree -/

/-- The two children of a node, one of them on the path of a leaf. -/
theorem children_eq (leaf z : Nat) :
    ((leaf >>> z) % 2 = 0 ∧ leaf >>> z = 2 * (leaf >>> (z + 1)) ∧
        (leaf >>> z) ^^^ 1 = 2 * (leaf >>> (z + 1)) + 1) ∨
      ((leaf >>> z) % 2 = 1 ∧ leaf >>> z = 2 * (leaf >>> (z + 1)) + 1 ∧
        (leaf >>> z) ^^^ 1 = 2 * (leaf >>> (z + 1))) := by
  have hhalf : leaf >>> (z + 1) = leaf >>> z / 2 := Nat.shiftRight_succ leaf z
  rcases Nat.mod_two_eq_zero_or_one (leaf >>> z) with hbit | hbit
  · have heven : Even (leaf >>> z) := Nat.even_iff.mpr hbit
    refine Or.inl ⟨hbit, by omega, ?_⟩
    rw [Nat.xor_one_of_even heven]
    omega
  · have hodd : Odd (leaf >>> z) := Nat.odd_iff.mpr hbit
    refine Or.inr ⟨hbit, by omega, ?_⟩
    rw [Nat.xor_one_of_odd hodd]
    omega

/-- Past siblings with a hereditary property, a node with it on the path of a leaf leads to one
above it. -/
theorem climbNodes_holds {t : Tree} {V : Nat → Nat → Bytes → Prop} (hV : t.Hereditary V)
    (leaf count : Nat) : ∀ (z : Nat) (x : Bytes) (siblings : List Bytes), V z (leaf >>> z) x →
      Tree.AreSiblings V leaf z count siblings → V (z + count) (leaf >>> (z + count))
        (climbNodes t.setting t.seeds.publicSeed t.layer t.index leaf z x siblings) := by
  induction count with
  | zero =>
    rintro z x _ hx ⟨⟩
    exact hx
  | succ count ih =>
    intro z x siblings hx hsiblings
    obtain ⟨sibling, rest, hsibling, hrest, rfl⟩ := List.forall₂_cons_left_iff.mp hsiblings
    rw [climbNodes, ← Nat.succ_add_eq_add_succ]
    refine ih (z + 1) _ rest ?_ hrest
    -- one step up: the node and its sibling are the children of the node above
    rcases children_eq leaf z with ⟨hbit, hself, hother⟩ | ⟨hbit, hself, hother⟩
    · rw [hself] at hx
      rw [hother] at hsibling
      rw [if_pos hbit]
      exact hV.parent hx hsibling
    · rw [hself] at hx
      rw [hother] at hsibling
      rw [if_neg (by omega)]
      exact hV.parent hsibling hx

/-! ### The root of a signature -/

/-- The sizes that a tree signature has, and a leaf of the tree. -/
def FitsTree (s : Setting) (leaf : Nat) (ots auth : Bytes) : Prop :=
  auth.length = s.params.treeHeight * s.n ∧ leaf < 2 ^ s.params.treeHeight ∧
    ots.length = s.oneTime.signatureBytes

instance (s : Setting) (leaf : Nat) (ots auth : Bytes) : Decidable (FitsTree s leaf ots auth) :=
  inferInstanceAs (Decidable (_ ∧ _ ∧ _))

/-- The leaf node to which a one-time signature of a message leads. -/
def recoveredLeaf (s : Setting) (publicSeed : Bytes) (layer tree leaf : Nat) (ots message : Bytes) :
    Bytes :=
  LTree.compressNodes s publicSeed (.ltree layer tree leaf)
    (OneTime.recoveredNodes s publicSeed layer tree leaf message (OneTime.nodesOf s ots))

/-- The root to which a one-time signature and an authentication path lead. -/
def signatureRoot (s : Setting) (publicSeed : Bytes) (layer tree leaf : Nat)
    (ots auth message : Bytes) : Bytes :=
  climbNodes s publicSeed layer tree leaf 0 (recoveredLeaf s publicSeed layer tree leaf ots message)
    (pieces s.n s.params.treeHeight auth)

theorem length_recoveredNodes (message : Bytes) (nodes : List Bytes) :
    (OneTime.recoveredNodes s publicSeed layer tree leaf message nodes).length
      = s.oneTime.chains := by
  simp [OneTime.recoveredNodes]

theorem length_of_mem_recoveredNodes {message ots : Bytes}
    (hots : ots.length = s.oneTime.signatureBytes) {x : Bytes}
    (hx : x ∈ OneTime.recoveredNodes s publicSeed layer tree leaf message
      (OneTime.nodesOf s ots)) : x.length = s.n := by
  obtain ⟨i, hi, rfl⟩ := List.mem_map.mp hx
  exact length_advanceBy (length_getD_pieces hots (List.mem_range.mp hi))

theorem recoveredNodes_ne_nil (message : Bytes) (nodes : List Bytes) :
    OneTime.recoveredNodes s publicSeed layer tree leaf message nodes ≠ [] := by
  rw [← List.length_pos_iff, length_recoveredNodes, Winternitz.chains, Winternitz.checksumDigits]
  exact Nat.succ_pos _

theorem compress_recoveredNodes {message ots : Bytes}
    (hots : ots.length = s.oneTime.signatureBytes) :
    LTree.compress s (OneTime.recoveredNodes s publicSeed layer tree leaf message
        (OneTime.nodesOf s ots)).flatten publicSeed (.ltree layer tree leaf)
      = .ok (recoveredLeaf s publicSeed layer tree leaf ots message) :=
  LTree.compress_eq _ (recoveredNodes_ne_nil _ _) fun _ => length_of_mem_recoveredNodes hots

theorem length_recoveredLeaf {message ots : Bytes}
    (hots : ots.length = s.oneTime.signatureBytes) :
    (recoveredLeaf s publicSeed layer tree leaf ots message).length = s.n :=
  LTree.length_compressNodes (recoveredNodes_ne_nil _ _) fun _ => length_of_mem_recoveredNodes hots

theorem length_signatureRoot {ots auth message : Bytes}
    (hots : ots.length = s.oneTime.signatureBytes) :
    (signatureRoot s publicSeed layer tree leaf ots auth message).length = s.n :=
  length_climbNodes 0 (length_recoveredLeaf hots)

/-- **What `rootFromSignature` returns** for every signature of a digest. -/
theorem rootFromSignature_eq (hp : s.oneTime.Valid) (publicSeed : Bytes) (layer tree leaf : Nat)
    (ots auth : Bytes) {message : Bytes} (hm : message.length = s.n) :
    rootFromSignature s publicSeed layer tree leaf ots auth message
      = .ok (if FitsTree s leaf ots auth
          then some (signatureRoot s publicSeed layer tree leaf ots auth message) else none) := by
  unfold rootFromSignature
  -- the guards of the path are made first, then those of the one-time signature
  by_cases hframe : auth.length = s.params.treeHeight * s.n ∧ leaf < 2 ^ s.params.treeHeight
  · rw [if_pos hframe]
    by_cases hots : ots.length = s.oneTime.signatureBytes
    · rw [if_pos ⟨hframe.1, hframe.2, hots⟩,
        OneTime.recover_eq hp publicSeed layer tree leaf hots hm]
      have hclimb : climb s publicSeed layer tree leaf 0
          (recoveredLeaf s publicSeed layer tree leaf ots message)
          (pieces s.n s.params.treeHeight auth)
          = .ok (signatureRoot s publicSeed layer tree leaf ots auth message) :=
        climb_eq (fun _ => length_of_mem_pieces hframe.1) 0 (length_recoveredLeaf hots)
      simp only [bind, Except.bind, compress_recoveredNodes hots, hclimb]
      rfl
    · rw [if_neg fun h => hots h.2.2, OneTime.recover, if_neg fun h => hots h.1]
      rfl
  · rw [if_neg hframe, if_neg fun h => hframe ⟨h.1, h.2.1⟩]
    rfl

section

variable {t : Tree} {V : Nat → Nat → Bytes → Prop} {path : List Bytes}

/-- The parts of a signature made in a tree have the right sizes. -/
theorem fitsTree_sign (hV : t.Hereditary V) (hleaf : leaf < 2 ^ t.height) (message : Bytes)
    (hpath : t.IsPath V leaf path) :
    FitsTree t.setting leaf
      (OneTime.signatureNodes t.setting t.seeds t.layer t.index leaf message).flatten
      path.flatten := by
  refine ⟨?_, hleaf, OneTime.length_flatten_signatureNodes ..⟩
  rw [length_flatten fun _ => hpath.length_of_mem hV, hpath.length_eq]
  rfl

/-- **A signature made in a tree leads to a root** with the property that its path has. -/
theorem signatureRoot_holds (hV : t.Hereditary V) (hp : t.setting.oneTime.Valid)
    (hleaf : leaf < 2 ^ t.height) (message : Bytes) (hpath : t.IsPath V leaf path) :
    V t.height 0 (signatureRoot t.setting t.seeds.publicSeed t.layer t.index leaf
      (OneTime.signatureNodes t.setting t.seeds t.layer t.index leaf message).flatten
      path.flatten message) := by
  have hpieces : pieces t.setting.n t.setting.params.treeHeight path.flatten = path := by
    have h := pieces_flatten fun x (hx : x ∈ path) => hpath.length_of_mem hV hx
    rw [hpath.length_eq] at h
    exact h
  have hclimb := climbNodes_holds hV leaf t.height 0 (t.leafNode leaf) path (hV.leaf leaf) hpath
  rw [Nat.zero_add, Nat.shiftRight_eq_div_pow leaf t.height, Nat.div_eq_of_lt hleaf] at hclimb
  unfold signatureRoot recoveredLeaf
  rw [OneTime.nodesOf_signatureNodes, OneTime.recoveredNodes_signatureNodes hp, hpieces]
  exact hclimb

end

end Hypertree
