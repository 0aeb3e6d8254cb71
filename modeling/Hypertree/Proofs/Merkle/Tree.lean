import Hypertree.Merkle.Tree
import Hypertree.Proofs.Merkle.NodeCache
import Hypertree.Proofs.OneTime.Chain
import Hypertree.Proofs.OneTime.LTree
import Hypertree.Proofs.Params

/-!
# Trees with and without a cache

`Tree.nodeValue` is the value of a node by recursion on its height, with no cache and no errors.
What a tree computes with a cache depends on the nodes found there. A property of nodes that the
nodes of leaves have and that passes from children to parents (`Tree.Hereditary`) holds of all
computed nodes, if it holds of those found: that is `node_holds`, by induction on the height, and
authentication paths and tree signatures follow. That nodes have the size of a digest is such a
property, so seeds and caches of the right sizes are enough for a result (`Setting.Fits`). That they
have their values is another one, so a correct cache changes nothing (`root_eq`).

What a computation does to a cache is a sequence of offers of nodes of the tree with the property
(`Tree.Fills`), so it preserves everything about caches that such offers preserve
(`Fills.preserves`).
-/

namespace Hypertree

/-- Seeds of the size of a digest, one nonce pair per leaf, and parameters in range. -/
structure Setting.Fits (s : Setting) (seeds : Seeds) : Prop where
  publicSeed : seeds.publicSeed.length = s.n
  secretSeed : seeds.secretSeed.length = s.n
  nonces : seeds.nonces.size = 2 ^ s.params.treeHeight
  oneTime : s.oneTime.Valid
  treeHeight_le : s.params.treeHeight ≤ 20

theorem Setting.Fits.supports {s : Setting} {seeds : Seeds} (h : s.Fits seeds) {leaf : Nat}
    (hleaf : leaf < 2 ^ s.params.treeHeight) : OneTime.Supports s seeds leaf :=
  ⟨h.publicSeed, h.secretSeed, h.nonces ▸ hleaf⟩

namespace Tree

/-! ### The values of nodes -/

/-- The compressed one-time public key of a leaf. -/
def leafNode (t : Tree) (leaf : Nat) : Bytes :=
  LTree.compressNodes t.setting t.seeds.publicSeed (.ltree t.layer t.index leaf)
    (OneTime.publicNodes t.setting t.seeds t.layer t.index leaf)

/-- The node at a height and index. -/
def nodeValue (t : Tree) : (height index : Nat) → Bytes
  | 0, index => t.leafNode index
  | height + 1, index =>
    t.setting.join t.seeds.publicSeed (.hashTree t.layer t.index height index)
      (nodeValue t height (2 * index)) (nodeValue t height (2 * index + 1))

/-- The root. -/
def rootValue (t : Tree) : Bytes :=
  t.nodeValue t.height 0

/-- The siblings on the path of a leaf, the leaf level first. -/
def pathNodes (t : Tree) (leaf : Nat) : List Bytes :=
  (List.range t.height).map fun z => t.nodeValue z ((leaf >>> z) ^^^ 1)

/-- A place in the tree. -/
def HasNode (t : Tree) (height index : Nat) : Prop :=
  height ≤ t.height ∧ index < 2 ^ (t.height - height)

variable {t : Tree}

theorem publicNodes_ne_nil (s : Setting) (seeds : Seeds) (layer tree leaf : Nat) :
    OneTime.publicNodes s seeds layer tree leaf ≠ [] := by
  rw [← List.length_pos_iff, OneTime.length_publicNodes, Winternitz.chains,
    Winternitz.checksumDigits]
  exact Nat.succ_pos _

@[simp]
theorem length_nodeValue (height index : Nat) :
    (t.nodeValue height index).length = t.setting.n := by
  cases height with
  | zero =>
    exact LTree.length_compressNodes (publicNodes_ne_nil _ _ _ _ _)
      fun _ => OneTime.length_of_mem_publicNodes
  | succ height => exact Setting.length_join ..

theorem leaf_eq (h : t.setting.Fits t.seeds) {leaf : Nat} (hleaf : leaf < 2 ^ t.height) :
    t.leaf leaf = .ok (t.leafNode leaf) := by
  rw [Tree.leaf, OneTime.publicKey_eq (h.supports hleaf)]
  exact LTree.compress_eq _ (publicNodes_ne_nil _ _ _ _ _)
    fun _ => OneTime.length_of_mem_publicNodes

/-! ### Properties of nodes -/

/-- A property of nodes at their places: the nodes of leaves have it, and a parent has it if its
children do. Only strings of the size of a digest have it. -/
structure Hereditary (t : Tree) (V : Nat → Nat → Bytes → Prop) : Prop where
  length : ∀ {z i x}, V z i x → x.length = t.setting.n
  leaf : ∀ i, V 0 i (t.leafNode i)
  parent : ∀ {z i left right}, V z (2 * i) left → V z (2 * i + 1) right →
    V (z + 1) i
      (t.setting.join t.seeds.publicSeed (.hashTree t.layer t.index z i) left right)

/-- The node has its value. -/
def IsValue (t : Tree) (z i : Nat) (x : Bytes) : Prop :=
  x = t.nodeValue z i

/-- The node has the size of a digest. -/
def IsSized (t : Tree) (_ _ : Nat) (x : Bytes) : Prop :=
  x.length = t.setting.n

theorem hereditary_isValue (t : Tree) : t.Hereditary t.IsValue where
  length := by
    rintro z i x rfl
    exact length_nodeValue ..
  leaf _ := rfl
  parent := by
    rintro z i left right rfl rfl
    rfl

theorem hereditary_isSized (t : Tree) : t.Hereditary t.IsSized where
  length h := h
  leaf _ := length_nodeValue 0 _
  parent _ _ := Setting.length_join ..

/-! ### Caches of a tree -/

variable {V : Nat → Nat → Bytes → Prop}

/-- Every node of the tree that a cache holds has a property. -/
def Holds (t : Tree) (V : Nat → Nat → Bytes → Prop) (c : NodeCache) : Prop :=
  ∀ z i x, t.HasNode z i → c.get? z i = some x → V z i x

/-- Every node of the tree that a cache holds has its value. -/
def Correct (t : Tree) (c : NodeCache) : Prop :=
  ∀ z i x, t.HasNode z i → c.get? z i = some x → x = t.nodeValue z i

/-- What an offer of a node of the tree makes of a cache, if there is one. -/
def Offered (t : Tree) (V : Nat → Nat → Bytes → Prop) (cache cache' : Option NodeCache) : Prop :=
  ∃ z i x, t.HasNode z i ∧ V z i x ∧ cache' = cache.map fun c =>
    (c.offer t.setting.params.cache t.height z i x).2

/-- What a number of offers make of a cache. -/
def Fills (t : Tree) (V : Nat → Nat → Bytes → Prop) : Option NodeCache → Option NodeCache → Prop :=
  Relation.ReflTransGen (t.Offered V)

theorem Fills.refl (cache : Option NodeCache) : t.Fills V cache cache :=
  Relation.ReflTransGen.refl

/-- A property of caches that offers of nodes keep is kept by computations. -/
theorem Fills.preserves {P : NodeCache → Prop}
    (hP : ∀ c z i x, t.HasNode z i → V z i x → P c →
      P (c.offer t.setting.params.cache t.height z i x).2)
    {cache cache' : Option NodeCache} (h : t.Fills V cache cache') (hc : ∀ c ∈ cache, P c) :
    ∀ c ∈ cache', P c := by
  induction h with
  | refl => exact hc
  | tail _ hoffer ih =>
    obtain ⟨z, i, x, hnode, hx, rfl⟩ := hoffer
    intro c' hc'
    obtain ⟨c, hmem, rfl⟩ := Option.map_eq_some_iff.mp hc'
    exact hP c z i x hnode hx (ih c hmem)

/-- A computation makes no cache where there is none, and drops none. -/
theorem Fills.isSome_eq {cache cache' : Option NodeCache} (h : t.Fills V cache cache') :
    cache'.isSome = cache.isSome := by
  induction h with
  | refl => rfl
  | tail _ hoffer ih =>
    obtain ⟨z, i, x, -, -, rfl⟩ := hoffer
    rw [Option.isSome_map, ih]

theorem holds_empty (t : Tree) (V : Nat → Nat → Bytes → Prop) (cursor : Nat) :
    t.Holds V (.empty cursor) :=
  fun _ _ _ _ h => nomatch h

theorem Holds.offer {c : NodeCache} (hc : t.Holds V c) (policy : CachePolicy) {z i : Nat}
    {x : Bytes} (hx : V z i x) : t.Holds V (c.offer policy t.height z i x).2 := by
  intro z' i' x' hnode' h
  rcases NodeCache.of_get?_offer h with hold | ⟨rfl, rfl, rfl⟩
  · exact hc z' i' x' hnode' hold
  · exact hx

theorem Holds.shake {c : NodeCache} (hc : t.Holds V c) (policy : CachePolicy)
    (treeHeight cursor : Nat) : t.Holds V (c.shake policy treeHeight cursor).2 :=
  fun z i x hnode h => hc z i x hnode (NodeCache.of_get?_shake h).2

theorem Fills.holds {cache cache' : Option NodeCache} (h : t.Fills V cache cache')
    (hc : ∀ c ∈ cache, t.Holds V c) : ∀ c ∈ cache', t.Holds V c :=
  h.preserves (fun _ _ _ _ _ hx hc => hc.offer _ hx) hc

/-- A node of the tree that is found in a cache has the property of its nodes. -/
theorem holds_of_bind {z i : Nat} (hnode : t.HasNode z i) {cache : Option NodeCache}
    (hc : ∀ c ∈ cache, t.Holds V c) {kept : Bytes} (h : cache.bind (·.get? z i) = some kept) :
    V z i kept := by
  obtain ⟨c, hmem, hkept⟩ := Option.bind_eq_some_iff.mp h
  exact hc c hmem z i kept hnode hkept

/-! ### Computations with a cache -/

/-- A computed node is offered. -/
theorem offer_holds {z i : Nat} {x : Bytes} (hnode : t.HasNode z i) (hx : V z i x)
    (cache : Option NodeCache) :
    ∃ x' cache', t.offer z i (.ok x) cache = (.ok x', cache') ∧ V z i x' ∧
      t.Fills V cache cache' :=
  ⟨x, _, rfl, hx, Relation.ReflTransGen.single ⟨z, i, x, hnode, hx, rfl⟩⟩

/-- A level has twice as many nodes as the one above it. -/
theorem two_pow_sub {height z : Nat} (hz : z + 1 ≤ height) :
    2 ^ (height - z) = 2 * 2 ^ (height - (z + 1)) := by
  have hsub : height - z = height - (z + 1) + 1 := by omega
  rw [hsub, pow_succ']

theorem HasNode.left {z i : Nat} (h : t.HasNode (z + 1) i) : t.HasNode z (2 * i) := by
  obtain ⟨hz, hi⟩ := h
  refine ⟨by omega, ?_⟩
  have hpow := two_pow_sub hz
  omega

theorem HasNode.right {z i : Nat} (h : t.HasNode (z + 1) i) : t.HasNode z (2 * i + 1) := by
  obtain ⟨hz, hi⟩ := h
  refine ⟨by omega, ?_⟩
  have hpow := two_pow_sub hz
  omega

/-- The index at height `z` of the node above a leaf. -/
theorem shiftRight_lt {leaf height z : Nat} (hleaf : leaf < 2 ^ height) (hz : z ≤ height) :
    leaf >>> z < 2 ^ (height - z) := by
  rw [Nat.shiftRight_eq_div_pow, Nat.div_lt_iff_lt_mul (Nat.two_pow_pos _), ← pow_add,
    Nat.sub_add_cancel hz]
  exact hleaf

/-- The siblings on the path of a leaf are nodes of the tree. -/
theorem hasNode_sibling {leaf z : Nat} (hleaf : leaf < 2 ^ t.height) (hz : z < t.height) :
    t.HasNode z ((leaf >>> z) ^^^ 1) :=
  ⟨hz.le, Nat.xor_lt_two_pow (shiftRight_lt hleaf hz.le) (Nat.one_lt_two_pow (by omega))⟩

/-- The property of the siblings of a leaf at the heights from `z` on. -/
def AreSiblings (V : Nat → Nat → Bytes → Prop) (leaf z count : Nat) : List Bytes → Prop :=
  List.Forall₂ (fun z x => V z ((leaf >>> z) ^^^ 1) x) (List.range' z count)

/-- The property of the nodes of an authentication path, the leaf level first. -/
def IsPath (t : Tree) (V : Nat → Nat → Bytes → Prop) (leaf : Nat) : List Bytes → Prop :=
  AreSiblings V leaf 0 t.height

theorem IsPath.length_eq {leaf : Nat} {path : List Bytes} (hpath : t.IsPath V leaf path) :
    path.length = t.height := by
  rw [← List.Forall₂.length_eq hpath, List.length_range']

theorem isPath_isValue_iff {leaf : Nat} {path : List Bytes} :
    t.IsPath t.IsValue leaf path ↔ path = t.pathNodes leaf := by
  rw [pathNodes, List.range_eq_range', IsPath, AreSiblings, eq_comm, ← List.forall₂_eq_eq_eq,
    List.forall₂_map_left_iff]
  simp only [IsValue, eq_comm]

section

variable (hV : t.Hereditary V)

include hV

theorem IsPath.length_of_mem {leaf : Nat} {path : List Bytes} (hpath : t.IsPath V leaf path)
    {x : Bytes} (hx : x ∈ path) : x.length = t.setting.n := by
  obtain ⟨k, hk, rfl⟩ := List.getElem_of_mem hx
  have hnode := List.Forall₂.get hpath (by rwa [List.Forall₂.length_eq hpath]) hk
  exact hV.length hnode

variable (h : t.setting.Fits t.seeds)

include h

/-- **Every node has a result**, with the property that those found in the cache have. -/
theorem node_holds {z i : Nat} (hnode : t.HasNode z i) {cache : Option NodeCache}
    (hc : ∀ c ∈ cache, t.Holds V c) :
    ∃ x cache', t.node z i cache = (.ok x, cache') ∧ V z i x ∧ t.Fills V cache cache' := by
  -- the induction is on the height; the caches keep the property from one child to the next
  induction z generalizing i cache with
  | zero =>
    rw [node]
    cases hget : cache.bind (·.get? 0 i) with
    | some kept => exact ⟨kept, cache, rfl, holds_of_bind hnode hc hget, .refl _⟩
    | none =>
      have hleaf : i < 2 ^ t.height := by simpa using hnode.2
      rw [leaf_eq h hleaf]
      exact offer_holds hnode (hV.leaf i) cache
  | succ z ih =>
    rw [node]
    cases hget : cache.bind (·.get? (z + 1) i) with
    | some kept => exact ⟨kept, cache, rfl, holds_of_bind hnode hc hget, .refl _⟩
    | none =>
      obtain ⟨left, cache₁, h₁, hleft, hfill₁⟩ := ih hnode.left hc
      obtain ⟨right, cache₂, h₂, hright, hfill₂⟩ := ih hnode.right (hfill₁.holds hc)
      have hparent : t.parent z i (.ok left) (.ok right) = .ok _ :=
        Setting.hashPair_eq (hV.length hleft) (hV.length hright) ..
      obtain ⟨x, cache₃, h₃, hx, hfill₃⟩ := offer_holds hnode (hV.parent hleft hright) cache₂
      refine ⟨x, cache₃, ?_, hx, hfill₁.trans (hfill₂.trans hfill₃)⟩
      simp only [h₁, h₂, hparent, h₃]

theorem siblings_holds {leaf : Nat} (hleaf : leaf < 2 ^ t.height) (count : Nat) :
    ∀ (z : Nat) (cache : Option NodeCache), z + count ≤ t.height →
      (∀ c ∈ cache, t.Holds V c) →
      ∃ nodes cache', t.siblings leaf count z cache = (.ok nodes, cache') ∧
        AreSiblings V leaf z count nodes ∧ t.Fills V cache cache' := by
  induction count with
  | zero =>
    intro z cache _ _
    exact ⟨[], cache, rfl, List.Forall₂.nil, .refl _⟩
  | succ count ih =>
    intro z cache hz hc
    -- each sibling is found or built, and the next one meets the cache that it left
    have hsibling : t.HasNode z ((leaf >>> z) ^^^ 1) := hasNode_sibling hleaf (by omega)
    obtain ⟨x, cache₁, h₁, hx, hfill₁⟩ := node_holds hV h hsibling hc
    obtain ⟨nodes, cache₂, h₂, hnodes, hfill₂⟩ := ih (z + 1) cache₁ (by omega) (hfill₁.holds hc)
    refine ⟨x :: nodes, cache₂, ?_, List.Forall₂.cons hx hnodes, hfill₁.trans hfill₂⟩
    simp only [siblings, h₁, h₂]
    rfl

/-- **A tree signature** has a result: the one-time signature and a path. -/
theorem sign_holds {leaf : Nat} (hleaf : leaf < 2 ^ t.height) {message : Bytes}
    (hm : message.length = t.setting.n) {cache : Option NodeCache}
    (hc : ∀ c ∈ cache, t.Holds V c) :
    ∃ path cache', t.sign leaf message cache
        = (.ok ((OneTime.signatureNodes t.setting t.seeds t.layer t.index leaf message).flatten,
            path.flatten), cache') ∧ t.IsPath V leaf path ∧ t.Fills V cache cache' := by
  obtain ⟨path, cache', hsiblings, hpath, hfill⟩ :=
    siblings_holds hV h hleaf t.height 0 cache (by omega) hc
  refine ⟨path, cache', ?_, hpath, hfill⟩
  simp only [sign, OneTime.sign_eq (h.supports hleaf) h.oneTime t.layer t.index hm, authPath,
    hsiblings]
  rfl

end

/-- **A correct cache changes nothing.** -/
theorem root_eq (h : t.setting.Fits t.seeds) {cache : Option NodeCache}
    (hc : ∀ c ∈ cache, t.Correct c) :
    ∃ cache', t.root cache = (.ok t.rootValue, cache') ∧ t.Fills t.IsValue cache cache' := by
  obtain ⟨_, cache', hroot, rfl, hfill⟩ :=
    node_holds t.hereditary_isValue h ⟨le_rfl, Nat.two_pow_pos _⟩ hc
  exact ⟨cache', hroot, hfill⟩

end Tree

/-! ### Settings that make the same values -/

/-- Trees in the same place under settings that agree have the same nodes. -/
theorem Setting.Agrees.nodeValue_eq {s s' : Setting} (h : s.Agrees s') (seeds : Seeds)
    (layer index : Nat) :
    (Tree.mk s seeds layer index).nodeValue = (Tree.mk s' seeds layer index).nodeValue := by
  funext z
  induction z with
  | zero =>
    funext i
    simp only [Tree.nodeValue, Tree.leafNode, h.compressNodes_eq, h.publicNodes_eq]
  | succ z ih =>
    funext i
    simp only [Tree.nodeValue, ih, h.join_eq]

end Hypertree
