import Hypertree.Proofs.Merkle.Path
import Hypertree.Proofs.OneTime.Outcome

/-!
# Building and climbing agree

`Tree.plainNode` is the definition of a node without a cache: the compressed public key of a leaf,
or the parent of the two nodes below. Under valid parameters, seeds of the right sizes and one nonce
pair per leaf it has a value everywhere in the tree (`plainNode_eq`).

A cache is faithful if what it holds of the tree is what the definition gives (`Tree.Faithful`);
what it holds at other places, where its cursor stands and what its policy keeps do not matter. With
a faithful cache, or with none, nodes and roots are those of the definition, the cache stays
faithful, and every signature made in the tree climbs to its root (`build_climb_agree`).
-/

namespace Hypertree

/-- Valid parameters, seeds of the size of a digest and one nonce pair per leaf are enough for
trees. -/
theorem Setting.fits_of_validate {s : Setting} {seeds : Seeds} (hv : s.params.validate = .ok ())
    (hpublic : seeds.publicSeed.length = s.n) (hsecret : seeds.secretSeed.length = s.n)
    (hnonces : seeds.nonces.size = 2 ^ s.params.treeHeight) : s.Fits seeds where
  publicSeed := hpublic
  secretSeed := hsecret
  nonces := hnonces
  oneTime := Setting.valid_oneTime hv
  treeHeight_le := ((Params.validate_eq_ok_iff _).mp hv).1.treeHeight_le

namespace Tree

/-- The node at a height and index, computed from the leaves below it. -/
def plainNode (t : Tree) : (height index : Nat) → Except Error Bytes
  | 0, index => t.leaf index
  | height + 1, index => do
    let left ← plainNode t height (2 * index)
    let right ← plainNode t height (2 * index + 1)
    t.setting.hashPair left right t.seeds.publicSeed (.hashTree t.layer t.index height index)

/-- Every node of the tree that a cache holds is the one computed from the leaves. -/
def Faithful (t : Tree) (c : NodeCache) : Prop :=
  ∀ z i x, t.HasNode z i → c.get? z i = some x → t.plainNode z i = .ok x

section

variable {t : Tree} (h : t.setting.Fits t.seeds)

include h

theorem plainNode_eq {z i : Nat} (hnode : t.HasNode z i) :
    t.plainNode z i = .ok (t.nodeValue z i) := by
  induction z generalizing i with
  | zero =>
    have hleaf : i < 2 ^ t.height := by simpa using hnode.2
    exact leaf_eq h hleaf
  | succ z ih =>
    rw [plainNode, ih hnode.left, ih hnode.right]
    exact Setting.hashPair_eq (length_nodeValue ..) (length_nodeValue ..) ..

theorem faithful_iff_correct (c : NodeCache) : t.Faithful c ↔ t.Correct c := by
  refine forall₄_congr fun z i x hnode => imp_congr_right fun _ => ?_
  rw [plainNode_eq h hnode, Except.ok.injEq, eq_comm]

/-- A computation leaves a faithful cache faithful. -/
theorem Fills.faithful {cache cache' : Option NodeCache} (hfill : t.Fills t.IsValue cache cache')
    (hc : ∀ c ∈ cache, t.Faithful c) : ∀ c ∈ cache', t.Faithful c := by
  have hcorrect : ∀ c ∈ cache', t.Holds t.IsValue c :=
    hfill.holds fun c hmem => (faithful_iff_correct h c).mp (hc c hmem)
  intro c hmem
  exact (faithful_iff_correct h c).mpr (hcorrect c hmem)

/-- **A faithful cache changes no node** and stays faithful. -/
theorem node_eq_plainNode {cache : Option NodeCache} (hc : ∀ c ∈ cache, t.Faithful c) {z i : Nat}
    (hnode : t.HasNode z i) :
    ∃ x cache', t.plainNode z i = .ok x ∧ t.node z i cache = (.ok x, cache') ∧
      cache'.isSome = cache.isSome ∧ ∀ c ∈ cache', t.Faithful c := by
  have hcorrect : ∀ c ∈ cache, t.Holds t.IsValue c := fun c hmem =>
    (faithful_iff_correct h c).mp (hc c hmem)
  obtain ⟨x, cache', hx, rfl, hfill⟩ := node_holds t.hereditary_isValue h hnode hcorrect
  exact ⟨_, cache', plainNode_eq h hnode, hx, hfill.isSome_eq, hfill.faithful h hc⟩

/-- The root under a faithful cache, or without one. -/
theorem root_eq_plainNode {cache : Option NodeCache} (hc : ∀ c ∈ cache, t.Faithful c) :
    (t.root cache).1 = t.plainNode t.height 0 := by
  obtain ⟨x, cache', hx, hroot, -, -⟩ :=
    node_eq_plainNode h hc (show t.HasNode t.height 0 from ⟨le_rfl, Nat.two_pow_pos _⟩)
  rw [root, hroot, hx]

/-- **A signature made in a tree climbs to its root.** -/
theorem sign_climbs {cache : Option NodeCache} (hc : ∀ c ∈ cache, t.Faithful c) {leaf : Nat}
    (hleaf : leaf < 2 ^ t.height) {message : Bytes} (hm : message.length = t.setting.n) :
    ∃ ots auth cache', t.sign leaf message cache = (.ok (ots, auth), cache') ∧
      (∀ c ∈ cache', t.Faithful c) ∧
      rootFromSignature t.setting t.seeds.publicSeed t.layer t.index leaf ots auth message
        = .ok (some t.rootValue) := by
  -- faithful caches hold node values, so the path is the one of the tree
  have hcorrect : ∀ c ∈ cache, t.Holds t.IsValue c := fun c hmem =>
    (faithful_iff_correct h c).mp (hc c hmem)
  obtain ⟨path, cache', hsign, hpath, hfill⟩ :=
    sign_holds t.hereditary_isValue h hleaf hm hcorrect
  have hfits := fitsTree_sign t.hereditary_isValue hleaf message hpath
  have hroot := signatureRoot_holds t.hereditary_isValue h.oneTime hleaf message hpath
  refine ⟨_, _, cache', hsign, hfill.faithful h hc, ?_⟩
  rw [rootFromSignature_eq h.oneTime _ _ _ _ _ _ hm, if_pos hfits, hroot]
  rfl

end

/-- **Building and climbing agree, with or without a cache.** With a faithful cache, or none, every
node is the one computed from the leaves, and the cache stays faithful. For every leaf of the tree
and every message of the size of a digest there is a signature, and it climbs to what `root` returns
before and after. -/
theorem build_climb_agree {t : Tree} (hv : t.setting.params.validate = .ok ())
    (hpublic : t.seeds.publicSeed.length = t.setting.n)
    (hsecret : t.seeds.secretSeed.length = t.setting.n)
    (hnonces : t.seeds.nonces.size = 2 ^ t.height) {cache : Option NodeCache}
    (hc : ∀ c ∈ cache, t.Faithful c) :
    (∀ z i, z ≤ t.height → i < 2 ^ (t.height - z) →
      ∃ x cache', t.plainNode z i = .ok x ∧ t.node z i cache = (.ok x, cache') ∧
        cache'.isSome = cache.isSome ∧ ∀ c ∈ cache', t.Faithful c) ∧
    ∀ leaf < 2 ^ t.height, ∀ message : Bytes, message.length = t.setting.n →
      ∃ ots auth root cache', t.sign leaf message cache = (.ok (ots, auth), cache') ∧
        (∀ c ∈ cache', t.Faithful c) ∧
        rootFromSignature t.setting t.seeds.publicSeed t.layer t.index leaf ots auth message
          = .ok (some root) ∧
        t.plainNode t.height 0 = .ok root ∧
        (t.root cache).1 = .ok root ∧ (t.root cache').1 = .ok root := by
  have h : t.setting.Fits t.seeds := Setting.fits_of_validate hv hpublic hsecret hnonces
  have hplain : t.plainNode t.height 0 = .ok t.rootValue :=
    plainNode_eq h ⟨le_rfl, Nat.two_pow_pos _⟩
  constructor
  · intro z i hz hi
    exact node_eq_plainNode h hc ⟨hz, hi⟩
  · -- the path climbs to the root that the plain recursion computes
    intro leaf hleaf message hm
    obtain ⟨ots, auth, cache', hsign, hfaithful, hclimb⟩ := sign_climbs h hc hleaf hm
    refine ⟨ots, auth, t.rootValue, cache', hsign, hfaithful, hclimb, hplain, ?_, ?_⟩
    · rw [root_eq_plainNode h hc, hplain]
    · rw [root_eq_plainNode h hfaithful, hplain]

/-- A tree of four leaves. -/
def small : Tree :=
  ⟨⟨.standard, .sha256, { height := 2 }⟩, OneTime.zeroSeeds 4, 0, 0⟩

/-- A cache past the last leaf, with the parent of the first two leaves and something at a place
that is not in the tree. -/
def smallCache : NodeCache :=
  ((NodeCache.empty 4).insert 1 0 (small.nodeValue 1 0)).insert 7 0 [1]

theorem faithful_smallCache (h : small.setting.Fits small.seeds) : small.Faithful smallCache := by
  rw [faithful_iff_correct h]
  intro z i x hnode hget
  have hget' : (if (z, i) = (7, 0) then some [1]
      else if (z, i) = (1, 0) then some (small.nodeValue 1 0) else none) = some x := by
    rw [← hget, smallCache, NodeCache.get?, NodeCache.insert, NodeCache.insert,
      PairMap.get?_insert, PairMap.get?_insert]
    rfl
  split_ifs at hget' with houtside hinside
  · obtain ⟨rfl, rfl⟩ := Prod.ext_iff.mp houtside
    exact absurd hnode.1 (by decide)
  · obtain ⟨rfl, rfl⟩ := Prod.ext_iff.mp hinside
    exact (Option.some.inj hget').symm

/-- The root is computed with the help of the kept node, and leaf `3` climbs to it. -/
theorem build_climb_agree_small :
    (∃ x cache', small.plainNode 2 0 = .ok x ∧
      small.node 2 0 (some smallCache) = (.ok x, cache') ∧ cache'.isSome ∧
      ∀ c ∈ cache', small.Faithful c) ∧
    ∃ ots auth root cache',
      small.sign 3 (Bytes.zeros 32) (some smallCache) = (.ok (ots, auth), cache') ∧
      rootFromSignature small.setting (Bytes.zeros 32) 0 0 3 ots auth (Bytes.zeros 32)
        = .ok (some root) ∧
      (small.root (some smallCache)).1 = .ok root ∧ (small.root none).1 = .ok root := by
  have hv : small.setting.params.validate = .ok () := rfl
  have hnonces : small.seeds.nonces.size = 2 ^ small.height := by decide
  have hfits : small.setting.Fits small.seeds := Setting.fits_of_validate hv rfl rfl hnonces
  have hc : ∀ c ∈ some smallCache, small.Faithful c := by
    rintro c ⟨⟩
    exact faithful_smallCache hfits
  obtain ⟨hnodes, hsigns⟩ := build_climb_agree hv rfl rfl hnonces hc
  have hnone := root_eq_plainNode hfits (show ∀ c ∈ (none : Option NodeCache), small.Faithful c from
    fun c hmem => nomatch hmem)
  obtain ⟨ots, auth, root, cache', hsign, -, hclimb, hplain, hroot, -⟩ :=
    hsigns 3 (by decide) (Bytes.zeros 32) rfl
  exact ⟨hnodes 2 0 (by decide) (by decide), ots, auth, root, cache', hsign, hclimb, hroot,
    hnone.trans hplain⟩

end Tree

end Hypertree
