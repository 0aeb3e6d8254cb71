import Hypertree.Proofs.Checked
import Hypertree.Proofs.Engine.Encoded
import Hypertree.Proofs.Engine.Shape
import Hypertree.Proofs.Merkle.Eviction
import Mathlib.Data.Nat.Digits.Lemmas

/-!
# Indices in base `2 ^ h'`

In every layer an index uses one leaf of one tree. The leaves are the digits of the index in base
`2 ^ h'`, the bottom layer first, and the tree of a layer is the number that the digits above it
form. `indexLeaves` lists the leaves of an index, `leavesIndex` is the index that given leaves form,
and each undoes the other (`invOn_indexLeaves`): an index is determined by its leaves, and all lists
of leaves occur.

What the layers below leave of an index is what a layer splits (`numberAt`): the index itself at the
bottom, the tree of the layer below at the others (`Splits`). So a leaf above the bottom layer stands
for one tree of the layer below, and it is the root of that tree that it signs.

Verification compares the leaf of every layer with the one that the index uses, so it accepts no
signature whose leaves form another index (`verify_of_index_ne`).
-/

namespace Hypertree

variable {height layers index : Nat}

/-- The leaves that an index uses, from the bottom layer to the top. -/
def indexLeaves (height layers index : Nat) : List Nat :=
  (List.range layers).map fun layer => leafIndex index layer height

/-- The index that leaves form, from the bottom layer to the top. -/
def leavesIndex (height : Nat) (leaves : List Nat) : Nat :=
  Nat.ofDigits (2 ^ height) leaves

/-- What the layers below a layer leave of an index: all of it at the bottom, and the tree of the
layer below at the others. -/
def numberAt (index height : Nat) : (layer : Nat) → Nat
  | 0 => index
  | layer + 1 => treeIndex index layer height

/-! ### Leaves as digits -/

theorem numberAt_eq_div (index height layer : Nat) :
    numberAt index height layer = index / 2 ^ (layer * height) := by
  cases layer with
  | zero => rw [numberAt, zero_mul, pow_zero, Nat.div_one]
  | succ layer => exact treeIndex_eq_div index layer height

theorem length_indexLeaves (height layers index : Nat) :
    (indexLeaves height layers index).length = layers := by
  rw [indexLeaves, List.length_map, List.length_range]

theorem lt_of_mem_indexLeaves {leaf : Nat} (h : leaf ∈ indexLeaves height layers index) :
    leaf < 2 ^ height := by
  obtain ⟨layer, -, rfl⟩ := List.mem_map.mp h
  exact leafIndex_lt index layer height

/-- The leaves of some layers form what lies below the number at the next one. -/
theorem leavesIndex_indexLeaves (hh : height ≤ 32) (layers index : Nat) :
    leavesIndex height (indexLeaves height layers index) = index % 2 ^ (layers * height) := by
  induction layers with
  | zero => rw [zero_mul, pow_zero, Nat.mod_one]; rfl
  | succ layers ih =>
    have hsplit : indexLeaves height (layers + 1) index
        = indexLeaves height layers index ++ [leafIndex index layers height] := by
      rw [indexLeaves, List.range_succ, List.map_append]
      rfl
    have hpow : (2 ^ height) ^ layers = 2 ^ (layers * height) := by
      rw [← pow_mul, mul_comm]
    rw [leavesIndex] at ih ⊢
    rw [hsplit, Nat.ofDigits_append, ih, length_indexLeaves, Nat.ofDigits_singleton, hpow,
      leafIndex_eq hh, Nat.succ_mul, pow_add, Nat.mod_mul]

/-- **Indices and lists of leaves**: each way undoes the other. -/
theorem invOn_indexLeaves (hpos : 1 ≤ height) (hh : height ≤ 32) (layers : Nat) :
    Set.InvOn (leavesIndex height) (indexLeaves height layers)
      {index | index < 2 ^ (layers * height)}
      {leaves | leaves.length = layers ∧ ∀ leaf ∈ leaves, leaf < 2 ^ height} := by
  have hbase : 1 < 2 ^ height := Nat.one_lt_two_pow (by omega)
  have hleft : ∀ index < 2 ^ (layers * height),
      leavesIndex height (indexLeaves height layers index) = index := by
    intro index hindex
    rw [leavesIndex_indexLeaves hh, Nat.mod_eq_of_lt hindex]
  refine ⟨hleft, ?_⟩
  intro leaves hleaves
  -- both lists have the same value, and digits of one number and length are the same
  refine Nat.injOn_ofDigits hbase layers ⟨length_indexLeaves .., fun _ => lt_of_mem_indexLeaves⟩
    hleaves (hleft _ ?_)
  rw [mul_comm, pow_mul]
  exact Nat.mapsTo_ofDigits hbase layers hleaves

/-- **Indices are lists of leaves**, one for each layer. -/
theorem bijOn_indexLeaves (hpos : 1 ≤ height) (hh : height ≤ 32) (layers : Nat) :
    Set.BijOn (indexLeaves height layers) {index | index < 2 ^ (layers * height)}
      {leaves | leaves.length = layers ∧ ∀ leaf ∈ leaves, leaf < 2 ^ height} := by
  have hbase : 1 < 2 ^ height := Nat.one_lt_two_pow (by omega)
  refine (invOn_indexLeaves hpos hh layers).bijOn ?_ ?_
  · intro index _
    exact ⟨length_indexLeaves .., fun _ => lt_of_mem_indexLeaves⟩
  · rw [mul_comm, pow_mul]
    exact Nat.mapsTo_ofDigits hbase layers

/-! ### Layer by layer -/

/-- How an index is split over the layers of a key. -/
structure Splits (height layers index : Nat) : Prop where
  /-- A layer splits what the layers below leave into a tree and a leaf of this tree. -/
  number_eq : ∀ layer < layers, numberAt index height layer
    = treeIndex index layer height * 2 ^ height + leafIndex index layer height
  leaf_lt : ∀ layer < layers, leafIndex index layer height < 2 ^ height
  /-- The top layer leaves nothing. -/
  top : treeIndex index (layers - 1) height = 0
  /-- Above the bottom layer, what the leaf of the tree signs is the root of the tree of the layer
  below that has its place there as number. -/
  signed : ∀ (s : Setting) (seeds : Seeds) (digest : Bytes) (layer : Nat), layer + 1 < layers →
    s.params.treeHeight = height → s.layerMessage seeds index digest (layer + 1)
      = (Tree.mk s seeds layer (treeIndex index (layer + 1) height * 2 ^ height
          + leafIndex index (layer + 1) height)).rootValue
  /-- Machine words hold all that is computed for it. -/
  words : ∀ layer < layers,
    Checked.leafIndex index layer height = .ok (leafIndex index layer height) ∧
    Checked.treeIndex index layer height = .ok (treeIndex index layer height)

theorem splits_of_lt (hpos : 1 ≤ height) (hheight : height ≤ 20) (hlayers : 1 ≤ layers)
    (hbits : layers * height ≤ 60) (hindex : index < 2 ^ (layers * height)) :
    Splits height layers index := by
  have hh : height ≤ 32 := le_trans hheight (by decide)
  refine ⟨?_, fun layer _ => leafIndex_lt index layer height, treeIndex_top hindex hlayers, ?_, ?_⟩
  · intro layer _
    rw [numberAt_eq_div]
    exact div_eq_tree_leaf hh index layer
  · rintro s seeds digest layer - rfl
    rw [← treeIndex_eq hh]
    rfl
  · -- no shift goes past the 60 bits, so the checked operations have these values
    intro layer hlayer
    have hle : (layer + 1) * height ≤ 60 := (Nat.mul_le_mul_right height hlayer).trans hbits
    exact ⟨Checked.leafIndex_eq_of_le index hheight hle, Checked.treeIndex_eq_of_le index hpos hle⟩

/-! ### Verification -/

/-- A signature of the predicted form names the leaves of its index. -/
theorem Params.Predicts.map_leaf_eq {p : Params} {signature : Signature}
    (h : p.Predicts signature) :
    signature.layers.map (·.leaf) = indexLeaves p.treeHeight p.layers signature.index := by
  apply List.ext_getElem
  · rw [List.length_map, length_indexLeaves, h.length_layers]
  · intro i hi _
    rw [List.length_map] at hi
    rw [List.getElem_map, (h.layers i hi).leaf_eq]
    simp only [indexLeaves, List.getElem_map, List.getElem_range]

namespace Engine

variable {e : Engine} {signature : Signature} {message : Bytes} {key : PublicKey}

/-- The leaves of an accepted signature form its index. -/
theorem leavesIndex_of_verify (h : e.verify signature message key = .ok true) :
    leavesIndex e.params.treeHeight (signature.layers.map (·.leaf)) = signature.index := by
  obtain ⟨hshapes, hindex⟩ := shapes_of_verify h
  have hv := e.header_valid
  have hh : e.params.treeHeight ≤ 32 := hv.treeHeight_le.trans (by decide)
  rw [(hshapes.predicts hindex).map_leaf_eq, leavesIndex_indexLeaves hh,
    hv.layers_mul_treeHeight]
  exact Nat.mod_eq_of_lt hindex

/-- **A signature whose leaves form another index is rejected.** -/
theorem verify_of_index_ne
    (h : signature.index ≠ leavesIndex e.params.treeHeight (signature.layers.map (·.leaf))) :
    e.verify signature message key = .ok false := by
  obtain ⟨answer, hanswer⟩ := e.exists_verify_eq signature message key
  cases answer with
  | false => exact hanswer
  | true => exact absurd (leavesIndex_of_verify hanswer).symm h

/-- **Indices are split in mixed radix.** For trees of a height up to 20 in layers that together take
up at most 60 bits, every index is split layer by layer, and nothing is left above the top layer. The
leaves determine the index, whose digits they are, and every list of leaves occurs. Later indices are
in no earlier tree of any layer. An engine of this shape rejects every signature whose index is not
the one that its leaves form. -/
theorem index_mixed_radix {height layers : Nat} (hpos : 1 ≤ height) (hheight : height ≤ 20)
    (hlayers : 1 ≤ layers) (hbits : layers * height ≤ 60) :
    (∀ index < 2 ^ (layers * height), Splits height layers index) ∧
    Set.BijOn (indexLeaves height layers) {index | index < 2 ^ (layers * height)}
      {leaves | leaves.length = layers ∧ ∀ leaf ∈ leaves, leaf < 2 ^ height} ∧
    (∀ index < 2 ^ (layers * height),
      leavesIndex height (indexLeaves height layers index) = index) ∧
    (∀ index index', index ≤ index' → ∀ layer,
      treeIndex index layer height ≤ treeIndex index' layer height) ∧
    ∀ e : Engine, e.params.treeHeight = height → e.params.layers = layers →
      ∀ (signature : Signature) (message : Bytes) (key : PublicKey),
        signature.index ≠ leavesIndex height (signature.layers.map (·.leaf)) →
        e.verify signature message key = .ok false := by
  have hh : height ≤ 32 := le_trans hheight (by decide)
  refine ⟨fun index hindex => splits_of_lt hpos hheight hlayers hbits hindex,
    bijOn_indexLeaves hpos hh layers, (invOn_indexLeaves hpos hh layers).1,
    fun index index' hle layer => treeIndex_mono hle layer height, ?_⟩
  rintro e rfl rfl signature message key hne
  exact verify_of_index_ne hne

/-- Three layers of height twenty, at an index that ends in the last leaf of the bottom tree; and a
signature of `Engine.small` that is accepted at the first index, but not when it names the second. -/
theorem index_mixed_radix_full :
    indexLeaves 20 3 (2 ^ 60 - 2 ^ 40 - 1) = [2 ^ 20 - 1, 2 ^ 20 - 1, 2 ^ 20 - 2] ∧
    Splits 20 3 (2 ^ 60 - 2 ^ 40 - 1) ∧
    leavesIndex 20 [2 ^ 20 - 1, 2 ^ 20 - 1, 2 ^ 20 - 2] = 2 ^ 60 - 2 ^ 40 - 1 ∧
    ∃ (signature : Signature) (key : PublicKey), small.verify signature [] key = .ok true ∧
      small.verify { signature with index := 1 } [] key = .ok false := by
  obtain ⟨hsplits, -, hleaves, -, -⟩ :=
    index_mixed_radix (show 1 ≤ 20 by decide) (by decide) (show 1 ≤ 3 by decide) (by decide)
  have hlist : indexLeaves 20 3 (2 ^ 60 - 2 ^ 40 - 1)
      = [2 ^ 20 - 1, 2 ^ 20 - 1, 2 ^ 20 - 2] := by decide
  have hindex : 2 ^ 60 - 2 ^ 40 - 1 < 2 ^ (3 * 20) := by decide
  refine ⟨hlist, hsplits _ hindex, hlist ▸ hleaves _ hindex, ?_⟩
  obtain ⟨-, -, -, -, hrejects⟩ :=
    index_mixed_radix (show 1 ≤ 1 by decide) (by decide) (show 1 ≤ 2 by decide) (by decide)
  obtain ⟨key, -, -, -, -, hkey, hrooted⟩ := generateFromSeeds_eq seedsFit_small
  have hfirst : 0 < key.header.maxSignatures := Nat.two_pow_pos _
  have hprimary : small.setting? .primary = some small.primary := rfl
  have href := small.reference?_eq hprimary (hrooted .primary) 0 []
  have htrue := verify_of_reference? hkey hrooted hfirst href rfl rfl
  refine ⟨_, _, htrue, hrejects small rfl rfl _ _ _ ?_⟩
  -- its leaves form the first index
  have hzero := leavesIndex_of_verify htrue
  intro hone
  exact Nat.one_ne_zero (hone.trans hzero)

end Engine

end Hypertree
