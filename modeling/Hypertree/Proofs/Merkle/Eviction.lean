import Hypertree.Proofs.Merkle.NodeCache
import Hypertree.Proofs.Params

/-!
# What cleaning drops

The full policy drops from the caches of a key what no signature uses any more, and nothing else
(`Caches.clean_full_lossless`). Cleaning looks at the next index alone, and compares one number with
another in each layer. That this says something about all indices to come rests on two facts. The
indices from the next one on whose tree is the one in use have the leaves from the cursor on, each
of them (`exists_index_iff`), and a node is the sibling on the path of such a leaf if its own
sibling does not lie before the path of the cursor (`exists_leaf_iff`).
-/

namespace Hypertree

variable {height layers layer next leaf : Nat}

/-! ### Indices to come -/

/-- Later indices are in the same tree of a layer or in a later one. -/
theorem treeIndex_mono {index index' : Nat} (h : index ≤ index') (layer height : Nat) :
    treeIndex index layer height ≤ treeIndex index' layer height := by
  rw [treeIndex_eq_div, treeIndex_eq_div]
  exact Nat.div_le_div_right h

theorem tree_leaf_of_div_eq {index tree : Nat} (hh : height ≤ 32) (hleaf : leaf < 2 ^ height)
    (h : index / 2 ^ (layer * height) = tree * 2 ^ height + leaf) :
    treeIndex index layer height = tree ∧ leafIndex index layer height = leaf := by
  constructor
  · rw [treeIndex_eq_div, Nat.succ_mul, pow_add, ← Nat.div_div_eq_div_mul, h, mul_comm tree,
      Nat.mul_add_div (Nat.two_pow_pos _), Nat.div_eq_of_lt hleaf, add_zero]
  · rw [leafIndex_eq hh, h, Nat.mul_add_mod', Nat.mod_eq_of_lt hleaf]

/-- The larger of a number and a multiple of `n`, in units of `n`. -/
theorem max_mul_div {n : Nat} (hn : 0 < n) (a b : Nat) : max a (b * n) / n = max (a / n) b := by
  have hmono : Monotone fun x => x / n := fun _ _ h => Nat.div_le_div_right h
  have hmax : max a (b * n) / n = max (a / n) (b * n / n) := hmono.map_max
  rw [hmax, Nat.mul_div_cancel _ hn]

/-- The leaves that are used from an index on, in the tree that it uses. -/
theorem exists_index_iff (hh : height ≤ 32) (hlayer : layer < layers)
    (hnext : next < 2 ^ (layers * height)) :
    (∃ index, next ≤ index ∧ index < 2 ^ (layers * height) ∧
        treeIndex index layer height = treeIndex next layer height ∧
        leafIndex index layer height = leaf) ↔
      leafIndex next layer height ≤ leaf ∧ leaf < 2 ^ height := by
  have hview := div_eq_tree_leaf hh next layer
  constructor
  · rintro ⟨index, hle, -, htree, rfl⟩
    have hmono : next / 2 ^ (layer * height) ≤ index / 2 ^ (layer * height) :=
      Nat.div_le_div_right hle
    rw [hview, div_eq_tree_leaf hh index layer, htree] at hmono
    exact ⟨Nat.le_of_add_le_add_left hmono, leafIndex_lt ..⟩
  · rintro ⟨hcursor, hleaf⟩
    -- the first index from the next one on that uses the leaf
    refine ⟨max next ((treeIndex next layer height * 2 ^ height + leaf) * 2 ^ (layer * height)),
      le_max_left _ _, max_lt hnext ?_, ?_⟩
    · have hsplit : layers * height
          = layers * height - (layer + 1) * height + height + layer * height := by
        have hle := Nat.mul_le_mul_right height hlayer
        rw [Nat.succ_mul] at hle ⊢
        omega
      rw [hsplit, pow_add, pow_add]
      have htree := treeIndex_lt hlayer hnext
      apply Nat.mul_lt_mul_of_pos_right _ (Nat.two_pow_pos _)
      calc treeIndex next layer height * 2 ^ height + leaf
          < (treeIndex next layer height + 1) * 2 ^ height := by rw [Nat.succ_mul]; omega
        _ ≤ 2 ^ (layers * height - (layer + 1) * height) * 2 ^ height :=
          Nat.mul_le_mul_right _ htree
    · apply tree_leaf_of_div_eq hh hleaf
      rw [max_mul_div (Nat.two_pow_pos _), hview]
      exact max_eq_right (Nat.add_le_add_left hcursor _)

/-! ### Siblings of leaves to come -/

/-- A node below the root has a sibling in its tree. -/
theorem xor_one_lt {z i : Nat} (hz : z < height) (hi : i < 2 ^ (height - z)) :
    i ^^^ 1 < 2 ^ (height - z) :=
  Nat.xor_lt_two_pow hi (Nat.one_lt_two_pow (Nat.sub_ne_zero_of_lt hz))

/-- The nodes that are the sibling on the path of a leaf from the cursor on. -/
theorem exists_leaf_iff {cursor z i : Nat} (hcursor : cursor < 2 ^ height) (hz : z < height)
    (hi : i < 2 ^ (height - z)) :
    (∃ leaf, (cursor ≤ leaf ∧ leaf < 2 ^ height) ∧ i = (leaf >>> z) ^^^ 1) ↔
      cursor >>> z ≤ i ^^^ 1 := by
  constructor
  · rintro ⟨leaf, ⟨hle, -⟩, rfl⟩
    rw [Nat.xor_xor_cancel_right, Nat.shiftRight_eq_div_pow, Nat.shiftRight_eq_div_pow]
    exact Nat.div_le_div_right hle
  · intro h
    -- the first leaf from the cursor on that is below the sibling
    refine ⟨max cursor ((i ^^^ 1) * 2 ^ z), ⟨le_max_left _ _, max_lt hcursor ?_⟩, ?_⟩
    · have hsibling := Nat.mul_lt_mul_of_pos_right (xor_one_lt hz hi) (Nat.two_pow_pos z)
      rwa [← pow_add, Nat.sub_add_cancel hz.le] at hsibling
    · rw [Nat.shiftRight_eq_div_pow] at h
      rw [Nat.shiftRight_eq_div_pow, max_mul_div (Nat.two_pow_pos _), max_eq_right h,
        Nat.xor_xor_cancel_right]

/-- What the comparison with the cursor says about the indices to come. -/
theorem isReachable_iff {z i : Nat} (hh : height ≤ 32) (hlayer : layer < layers)
    (hnext : next < 2 ^ (layers * height)) (hz : z ≤ height) (hi : i < 2 ^ (height - z)) :
    isReachable height (leafIndex next layer height) z i = true ↔
      ∃ index, next ≤ index ∧ index < 2 ^ (layers * height) ∧
        treeIndex index layer height = treeIndex next layer height ∧
        (z = height ∨ i = (leafIndex index layer height >>> z) ^^^ 1) := by
  unfold isReachable
  rw [Bool.or_eq_true, beq_iff_eq, decide_eq_true_iff]
  rcases hz.eq_or_lt with rfl | hlt
  · -- the root is the root for every index
    exact iff_of_true (Or.inl rfl) ⟨next, le_rfl, hnext, rfl, Or.inl rfl⟩
  · -- below it, leaves still to come are the indices still to come in this tree
    rw [or_iff_right hlt.ne, ← exists_leaf_iff (leafIndex_lt ..) hlt hi]
    constructor
    · rintro ⟨leaf, hleaf, hi⟩
      obtain ⟨index, hle, hindex, htree, rfl⟩ := (exists_index_iff hh hlayer hnext).mpr hleaf
      exact ⟨index, hle, hindex, htree, Or.inr hi⟩
    · rintro ⟨index, hle, hindex, htree, hroot | hi⟩
      · exact absurd hroot hlt.ne
      · exact ⟨_, (exists_index_iff hh hlayer hnext).mp ⟨index, hle, hindex, htree, rfl⟩, hi⟩

/-! ### Cleaning -/

namespace Caches

/-- The cached node with a height and an index, in a tree of a layer. -/
def node? (c : Caches) (layer tree z i : Nat) : Option Bytes :=
  (c.tree? layer tree).bind fun cache => cache.get? z i

/-- Cleaning keeps the nodes that the policy keeps in the trees in use. -/
theorem node?_clean (c : Caches) (policy : CachePolicy) (treeHeight layers next max : Nat)
    (layer tree z i : Nat) :
    (c.clean policy treeHeight layers next max).2.node? layer tree z i
      = if next < max ∧ isActive treeHeight layers next layer tree ∧
            policy.keeps treeHeight (leafIndex next layer treeHeight) z i
        then c.node? layer tree z i else none := by
  unfold node?
  rw [tree?_clean]
  -- a tree out of use goes as a whole, in one that is used the nodes are sieved
  by_cases hactive : next < max ∧ isActive treeHeight layers next layer tree
  · rw [if_pos hactive, Option.bind_map]
    simp only [Function.comp_def, NodeCache.get?_shake, hactive, true_and]
    split_ifs
    · rfl
    · exact Option.bind_fun_none _
  · rw [if_neg hactive, if_neg fun h => hactive ⟨h.1, h.2.1⟩]
    rfl

/-- Under the full policy, these are the nodes that can be reached. -/
theorem node?_clean_full (c : Caches) {max : Nat} (hnext : next < max) (tree z i : Nat) :
    (c.clean .full height layers next max).2.node? layer tree z i
      = if isActive height layers next layer tree ∧
            isReachable height (leafIndex next layer height) z i then c.node? layer tree z i
        else none := by
  have hkeeps : CachePolicy.full.keeps height (leafIndex next layer height) z i
      = isReachable height (leafIndex next layer height) z i := Bool.and_true _
  rw [node?_clean, hkeeps]
  simp only [hnext, true_and]

/-- Every node has a place in its tree, and no tree comes after the one that index `next` uses. -/
def UpTo (header : Header) (next : Nat) (c : Caches) : Prop :=
  ∀ layer tree z i x, c.node? layer tree z i = some x →
    layer < header.layers ∧ tree ≤ treeIndex next layer header.treeHeight ∧
      z ≤ header.treeHeight ∧ i < 2 ^ (header.treeHeight - z)

/-- **The full policy loses nothing and keeps nothing in vain.** A cached node is found after
cleaning, unchanged, if and only if it is the root of the tree of an index still to come, or the
sibling on the path of the leaf which that index uses. -/
theorem clean_full_lossless {header : Header} (hv : header.Valid)
    (hnext : next < header.maxSignatures) {c : Caches} (hc : c.UpTo header next)
    (layer tree z i : Nat) (x : Bytes) :
    (c.clean .full header.treeHeight header.layers next header.maxSignatures).2.node?
        layer tree z i = some x ↔
      c.node? layer tree z i = some x ∧ ∃ index, next ≤ index ∧ index < header.maxSignatures ∧
        treeIndex index layer header.treeHeight = tree ∧
        (z = header.treeHeight ∨ i = (leafIndex index layer header.treeHeight >>> z) ^^^ 1) := by
  have hh : header.treeHeight ≤ 32 := le_trans hv.treeHeight_le (by decide)
  have hmax : header.maxSignatures = 2 ^ (header.layers * header.treeHeight) := by
    rw [hv.layers_mul_treeHeight]
    rfl
  rw [node?_clean_full c hnext, Option.ite_none_right_eq_some, and_comm]
  refine and_congr_right fun hnode => ?_
  obtain ⟨hlayer, htree, hz, hi⟩ := hc _ _ _ _ _ hnode
  rw [hmax] at hnext ⊢
  rw [isReachable_iff hh hlayer hnext hz hi, isActive, Bool.and_eq_true, decide_eq_true_iff,
    beq_iff_eq]
  constructor
  · rintro ⟨⟨-, rfl⟩, h⟩
    exact h
  · rintro ⟨index, hle, hindex, rfl, hused⟩
    -- a later index is in no earlier tree
    have heq := Nat.le_antisymm htree (treeIndex_mono hle layer header.treeHeight)
    exact ⟨⟨hlayer, heq⟩, index, hle, hindex, heq, hused⟩

/-- Caches of two trees of the bottom layer: the root of the first, and two leaves of the second. -/
def twoTrees : Caches :=
  (empty.insertTree 0 0 ((NodeCache.empty 0).insert 2 0 [1])).insertTree 0 1
    (((NodeCache.empty 0).insert 0 0 [2]).insert 0 3 [3])

theorem upTo_twoTrees : twoTrees.UpTo { height := 4, layers := 2 } 6 := by
  have hentries : ∀ e ∈ twoTrees.trees.entries, e.1.1 < 2 ∧ e.1.2 ≤ treeIndex 6 e.1.1 2 ∧
      ∀ node ∈ e.2.nodes.entries, node.1.1 ≤ 2 ∧ node.1.2 < 2 ^ (2 - node.1.1) := by
    decide
  intro layer tree z i x h
  obtain ⟨cache, hcache, hnode⟩ := Option.bind_eq_some_iff.mp h
  obtain ⟨hlayer, htree, hnodes⟩ := hentries _ (PairMap.get?_eq_some_iff.mp hcache)
  exact ⟨hlayer, htree, hnodes _ (PairMap.get?_eq_some_iff.mp hnode)⟩

theorem clean_full_lossless_twoTrees :
    6 < Header.maxSignatures { height := 4, layers := 2 } ∧
    twoTrees.UpTo { height := 4, layers := 2 } 6 ∧
    (twoTrees.clean .full 2 2 6 16).2.node? 0 1 0 3 = some [3] ∧
    (twoTrees.clean .full 2 2 6 16).2.node? 0 1 0 0 ≠ some [2] ∧
    (twoTrees.clean .full 2 2 6 16).2.node? 0 0 2 0 ≠ some [1] := by
  have hv : Header.Valid { height := 4, layers := 2 } := Header.valid_iff_validate.mpr rfl
  have hnext : 6 < Header.maxSignatures { height := 4, layers := 2 } := by decide
  have h := clean_full_lossless hv hnext upTo_twoTrees
  refine ⟨hnext, upTo_twoTrees, (h 0 1 0 3 [3]).mpr ⟨rfl, 6, by decide⟩, ?_, ?_⟩
  · -- only the second leaf needs the first, and it has been used
    have hunused : ∀ index < 16, 6 ≤ index → treeIndex index 0 2 = 1 →
        ¬(0 = 2 ∨ 0 = (leafIndex index 0 2 >>> 0) ^^^ 1) := by decide
    intro hkept
    obtain ⟨-, index, hle, hlt, htree, hused⟩ := (h 0 1 0 0 [2]).mp hkept
    exact hunused index hlt hle htree hused
  · -- the first tree has been used up
    have hunused : ∀ index < 16, 6 ≤ index → treeIndex index 0 2 ≠ 0 := by decide
    intro hkept
    obtain ⟨-, index, hle, hlt, htree, -⟩ := (h 0 0 2 0 [1]).mp hkept
    exact hunused index hlt hle htree

end Caches

end Hypertree
