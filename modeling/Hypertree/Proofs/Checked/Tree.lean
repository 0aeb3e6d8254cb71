import Hypertree.Proofs.Checked.OneTime
import Hypertree.Proofs.Merkle.Path

/-!
# Climbing a tree, checked

What verification does from the chain ends of a one-time key up to the root of its tree, over
checked operations. The nodes of an L-tree lie one after another in one byte buffer, from which
pairs are cut and over which parents are written; `LTree.compress` states the same for an array of
nodes.

`sameNodes_joinPairs` and `sameNodes_collapse` run both side by side: as long as the array holds
nodes of the size of a digest and the buffer is these nodes joined (`SameNodes`), every range lies
within the buffer and every parent fits its place. So nodes of that size are compressed as they are
without checks (`compress_eq`), and climbing past a path of them is safe (`climb_eq`).
`rootFromSignature_eq` then holds for all inputs, as other sizes are refused first.
-/

namespace Hypertree.Checked

/-! ### Nodes in one buffer -/

section

variable {size : Nat} {nodes : List Bytes} (h : ∀ x ∈ nodes, x.length = size)

include h

/-- What is before a node of a buffer and what is after it. -/
theorem flatten_around {i : Nat} (hi : i < nodes.length) :
    ∃ front back, front.length = i * size ∧ nodes.flatten = front ++ (nodes.getD i [] ++ back) ∧
      ∀ x, (nodes.set i x).flatten = front ++ (x ++ back) := by
  refine ⟨(nodes.take i).flatten, (nodes.drop (i + 1)).flatten, ?_, ?_, ?_⟩
  · rw [Bytes.length_flatten fun x hx => h x (List.mem_of_mem_take hx), List.length_take,
      Nat.min_eq_left hi.le]
  · rw [List.getD_eq_getElem _ _ hi, ← List.flatten_cons, List.getElem_cons_drop,
      ← List.flatten_append, List.take_append_drop]
  · intro x
    rw [List.set_eq_take_append_cons_drop, if_pos hi, List.flatten_append, List.flatten_cons]

theorem length_getD {i : Nat} (hi : i < nodes.length) : (nodes.getD i []).length = size := by
  rw [List.getD_eq_getElem _ _ hi]
  exact h _ (List.getElem_mem hi)

/-- The range of a node lies within the buffer. -/
theorem stop_le {i : Nat} (hi : i < nodes.length) : (i + 1) * size ≤ nodes.flatten.length := by
  rw [Bytes.length_flatten h]
  exact Nat.mul_le_mul_right size hi

/-- A node is cut from a buffer. -/
theorem slice_flatten {i : Nat} (hi : i < nodes.length) :
    slice nodes.flatten (i * size) ((i + 1) * size) = .ok (nodes.getD i []) := by
  obtain ⟨front, back, hfront, hflatten, -⟩ := flatten_around h hi
  have hstop : (i + 1) * size = i * size + size := Nat.succ_mul i size
  rw [slice_eq (by omega) (stop_le h hi), hstop, Nat.add_sub_cancel_left, hflatten,
    List.drop_left' hfront, List.take_left' (length_getD h hi)]

/-- A node is written over another one. -/
theorem overwrite_flatten {i : Nat} (hi : i < nodes.length) {x : Bytes} (hx : x.length = size) :
    overwrite nodes.flatten (i * size) ((i + 1) * size) x = .ok (nodes.set i x).flatten := by
  obtain ⟨front, back, hfront, hflatten, hset⟩ := flatten_around h hi
  have hstop : (i + 1) * size = i * size + size := Nat.succ_mul i size
  have hback : (front ++ (nodes.getD i [] ++ back)).drop (i * size + size) = back := by
    rw [← List.append_assoc]
    apply List.drop_left'
    rw [List.length_append, hfront, length_getD h hi]
  rw [overwrite_eq (by omega) (stop_le h hi) (by omega), hset, hflatten, List.take_left' hfront,
    hstop, hback]

theorem length_of_mem_set {i : Nat} {x : Bytes} (hx : x.length = size) :
    ∀ y ∈ nodes.set i x, y.length = size := by
  intro y hy
  rcases List.mem_or_eq_of_mem_set hy with hy | rfl
  · exact h y hy
  · exact hx

end

/-- A computation on an array of nodes and one on the buffer with the nodes joined end with the same
nodes: as many as given, each of the size of a digest. -/
inductive SameNodes (s : Setting) (count : Nat) :
    Except Error (Array Bytes) → Except Breach Bytes → Prop
  | intro {nodes : List Bytes} (hlen : nodes.length = count) (h : ∀ x ∈ nodes, x.length = s.n) :
    SameNodes s count (.ok nodes.toArray) (.ok nodes.flatten)

/-- Two computations, one after the other. -/
theorem SameNodes.bind {s : Setting} {count : Nat} {x : Except Error (Array Bytes)}
    {y : Except Breach Bytes} {f : Array Bytes → Except Error (Array Bytes)}
    {g : Bytes → Except Breach Bytes} (h : SameNodes s count x y)
    (hf : ∀ nodes : List Bytes, nodes.length = count → (∀ x ∈ nodes, x.length = s.n) →
      SameNodes s count (f nodes.toArray) (g nodes.flatten)) :
    SameNodes s count (x >>= f) (y >>= g) := by
  cases h with
  | intro hlen h => exact hf _ hlen h

/-- The first node of the array is at the beginning of the buffer. -/
theorem SameNodes.first {s : Setting} {count : Nat} {x : Except Error (Array Bytes)}
    {y : Except Breach Bytes} (h : SameNodes s count x y) (hpos : 0 < count) {first : Bytes}
    (hx : (do let nodes ← x; return nodes.getD 0 []) = .ok first) :
    (do let nodes ← y; return nodes.take s.n) = .ok first := by
  cases h with
  | intro hlen hsizes =>
    obtain ⟨node, rest, rfl⟩ := List.exists_cons_of_length_pos (hlen ▸ hpos)
    have hnode : node.length = s.n := hsizes node List.mem_cons_self
    have heq : node = first := Except.ok.inj hx
    rw [ok_bind, List.flatten_cons, List.take_left' hnode, heq]
    rfl

/-! ### L-trees -/

/-- Joins the pairs of one level in place: pair `i` and the `pairs` after it. -/
def joinPairs (s : Setting) (publicSeed : Bytes) (a : Address) :
    (pairs i : Nat) → (nodes : Bytes) → Except Breach Bytes
  | 0, _, nodes => return nodes
  | pairs + 1, i, nodes => do
    let a := a.setIndex (UInt32.ofNat i)
    let left ← slice nodes (2 * i * s.n) ((2 * i + 1) * s.n)
    let right ← slice nodes ((2 * i + 1) * s.n) ((2 * i + 2) * s.n)
    let parent ← hashPair s left right publicSeed a
    let nodes ← overwrite nodes (i * s.n) ((i + 1) * s.n) parent
    joinPairs s publicSeed a pairs (i + 1) nodes

/-- Moves the unpaired last node of a level up. -/
def moveUp (s : Setting) (count : Nat) (nodes : Bytes) : Except Breach Bytes := do
  let last ← difference count 1
  let node ← slice nodes (last * s.n) (count * s.n)
  overwrite nodes (count / 2 * s.n) ((count / 2 + 1) * s.n) node

/-- Joins level after level of the first `count` nodes of the buffer until one is left. -/
def collapse (s : Setting) (publicSeed : Bytes) (a : Address) (count level : Nat) (nodes : Bytes) :
    Except Breach Bytes := do
  if count ≤ 1 then
    return nodes
  else
    let a := a.setLevel (UInt32.ofNat level)
    let nodes ← joinPairs s publicSeed a (count / 2) 0 nodes
    let nodes ← (if count % 2 = 1 then moveUp s count nodes else .ok nodes)
    collapse s publicSeed a ((count + 1) / 2) (level + 1) nodes
termination_by count

/-- The node to which a string of `n`-byte nodes is compressed. -/
def compress (s : Setting) (nodes publicSeed : Bytes) (a : Address) : Except Breach Bytes := do
  let rest ← remainder nodes.length s.n
  assert (rest = 0)
  let count ← quotient nodes.length s.n
  let buffer ← collapse s publicSeed a count 0 nodes
  return buffer.take s.n

section

variable {s : Setting} (publicSeed : Bytes)

theorem getD_toArray (nodes : List Bytes) (i : Nat) :
    nodes.toArray.getD i [] = nodes.getD i [] := by
  rw [Array.getD_eq_getD_getElem?, List.getElem?_toArray, List.getD_eq_getElem?_getD]

/-- Pairs are joined in the buffer as in the array. -/
theorem sameNodes_joinPairs (count pairs : Nat) : ∀ (i : Nat) (a : Address) (nodes : List Bytes),
    nodes.length = count → (∀ x ∈ nodes, x.length = s.n) → 2 * (i + pairs) ≤ count →
    SameNodes s count (LTree.joinPairs s publicSeed a pairs i nodes.toArray)
      (joinPairs s publicSeed a pairs i nodes.flatten) := by
  induction pairs with
  | zero =>
    intro i a nodes hlen h _
    exact .intro hlen h
  | succ pairs ih =>
    intro i a nodes hlen h hpairs
    have hleft : (nodes.getD (2 * i) []).length = s.n := length_getD h (by omega)
    have hright : (nodes.getD (2 * i + 1) []).length = s.n := length_getD h (by omega)
    -- both put the parent in the place that has the number of the pair
    set parent := s.join publicSeed (a.setIndex (UInt32.ofNat i)) (nodes.getD (2 * i) [])
      (nodes.getD (2 * i + 1) []) with hdef
    have hparent : parent.length = s.n := Setting.length_join ..
    have harray : LTree.joinPairs s publicSeed a (pairs + 1) i nodes.toArray
        = LTree.joinPairs s publicSeed (a.setIndex (UInt32.ofNat i)) pairs (i + 1)
          (nodes.set i parent).toArray := by
      rw [LTree.joinPairs]
      simp only [getD_toArray, Setting.hashPair_eq hleft hright, ok_bind,
        List.setIfInBounds_toArray, ← hdef]
    have hbuffer : joinPairs s publicSeed a (pairs + 1) i nodes.flatten
        = joinPairs s publicSeed (a.setIndex (UInt32.ofNat i)) pairs (i + 1)
          (nodes.set i parent).flatten := by
      rw [joinPairs, slice_flatten h (by omega), ok_bind, slice_flatten h (by omega), ok_bind,
        hashPair_eq hleft hright, ok_bind, ← hdef, overwrite_flatten h (by omega) hparent, ok_bind]
    rw [harray, hbuffer]
    apply ih
    · rw [List.length_set, hlen]
    · exact length_of_mem_set h hparent
    · omega

/-- An unpaired last node moves up in the buffer as in the array. -/
theorem sameNodes_moveUp {nodes : List Bytes} (h : ∀ x ∈ nodes, x.length = s.n) {count : Nat}
    (hpos : 0 < count) (hcount : count ≤ nodes.length) :
    SameNodes s nodes.length
      (.ok (if count % 2 = 1
        then nodes.toArray.setIfInBounds (count / 2) (nodes.toArray.getD (count - 1) [])
        else nodes.toArray))
      (if count % 2 = 1 then moveUp s count nodes.flatten else .ok nodes.flatten) := by
  by_cases hodd : count % 2 = 1
  · -- the last node is copied over one that was already joined
    have hlast : (nodes.getD (count - 1) []).length = s.n := length_getD h (by omega)
    have hslice := slice_flatten h (show count - 1 < nodes.length by omega)
    rw [Nat.sub_add_cancel hpos] at hslice
    rw [if_pos hodd, if_pos hodd, getD_toArray, List.setIfInBounds_toArray, moveUp,
      difference_eq hpos, ok_bind, hslice, ok_bind, overwrite_flatten h (by omega) hlast]
    exact .intro List.length_set (length_of_mem_set h hlast)
  · rw [if_neg hodd, if_neg hodd]
    exact .intro rfl h

/-- Levels are joined in the buffer as in the array. -/
theorem sameNodes_collapse (total count : Nat) : ∀ (level : Nat) (a : Address) (nodes : List Bytes),
    nodes.length = total → (∀ x ∈ nodes, x.length = s.n) → count ≤ total →
    SameNodes s total (LTree.collapse s publicSeed a count level nodes.toArray)
      (collapse s publicSeed a count level nodes.flatten) := by
  induction count using Nat.strong_induction_on with
  | _ count ih =>
    intro level a nodes hlen h hcount
    rw [LTree.collapse, collapse]
    by_cases hone : count ≤ 1
    · rw [if_pos hone, if_pos hone]
      exact .intro hlen h
    · rw [if_neg hone, if_neg hone]
      -- one level: the pairs are joined, the node without a partner moves up, and half are left
      refine (sameNodes_joinPairs publicSeed total (count / 2) 0 _ nodes hlen h (by omega)).bind ?_
      intro joined hlen₁ h₁
      have hmoved := sameNodes_moveUp h₁ (show 0 < count by omega) (by omega)
      rw [hlen₁] at hmoved
      refine hmoved.bind ?_
      intro moved hlen₂ h₂
      exact ih ((count + 1) / 2) (by omega) (level + 1) _ moved hlen₂ h₂ (by omega)

/-- **Nodes of the size of a digest are compressed without a breach.** -/
theorem compress_eq (a : Address) {nodes : List Bytes} (hne : nodes ≠ [])
    (h : ∀ x ∈ nodes, x.length = s.n) :
    compress s nodes.flatten publicSeed a = .ok (LTree.compressNodes s publicSeed a nodes) := by
  have hn := s.n_pos
  have hlen : nodes.flatten.length = nodes.length * s.n := Bytes.length_flatten h
  have hcount : nodes.flatten.length / s.n = nodes.length := by
    rw [hlen, Nat.mul_div_cancel _ hn]
  have hrest : nodes.flatten.length % s.n = 0 := by
    rw [hlen, Nat.mul_mod_left]
  have htotal : LTree.compress s nodes.flatten publicSeed a
      = .ok (LTree.compressNodes s publicSeed a nodes) := LTree.compress_eq a hne h
  have hsame := sameNodes_collapse publicSeed nodes.length nodes.length 0 a nodes rfl h le_rfl
  rw [LTree.compress, hcount, Bytes.pieces_flatten h] at htotal
  unfold compress
  rw [remainder_eq hn.ne', ok_bind, assert_eq hrest, ok_bind, quotient_eq hn.ne', ok_bind, hcount]
  exact hsame.first (List.length_pos_iff.mpr hne) htotal

end

/-! ### Climbing -/

/-- Climbs from the node on the path of a leaf at height `height` past the given siblings. Every
parent is copied over the node. -/
def climb (s : Setting) (publicSeed : Bytes) (layer tree leaf : Nat) :
    (height : Nat) → (node : Bytes) → List Bytes → Except Breach Bytes
  | _, node, [] => return node
  | height, node, sibling :: rest => do
    let above ← shiftRight 32 leaf (height + 1)
    let a := Address.hashTree layer tree height above
    let here ← shiftRight 32 leaf height
    let parent ←
      (if here % 2 = 0 then hashPair s node sibling publicSeed a
      else hashPair s sibling node publicSeed a)
    let node ← copy node.length parent
    climb s publicSeed layer tree leaf (height + 1) node rest

/-- The root of the tree in which a one-time signature and an authentication path are valid for a
digest. -/
def rootFromSignature (s : Setting) (publicSeed : Bytes) (layer tree leaf : Nat)
    (ots auth message : Bytes) : Except Breach (Option Bytes) := do
  let height ← treeHeight s.params.toHeader
  let authLength ← product 64 height s.n
  let leaves ← bit height
  if auth.length = authLength ∧ leaf < leaves then
    match ← recover s ots message publicSeed layer tree leaf with
    | none => return none
    | some publicKey =>
      let node ← compress s publicKey publicSeed (.ltree layer tree leaf)
      let path ← parts s.n auth
      let root ← climb s publicSeed layer tree leaf 0 node path
      return some root
  else return none

section

variable {s : Setting} {publicSeed : Bytes} {layer tree leaf : Nat}

theorem climb_eq {siblings : List Bytes} (h : ∀ x ∈ siblings, x.length = s.n) {height : Nat}
    (hheight : height + siblings.length < 32) {node : Bytes} (hnode : node.length = s.n) :
    climb s publicSeed layer tree leaf height node siblings
      = .ok (climbNodes s publicSeed layer tree leaf height node siblings) := by
  induction siblings generalizing height node with
  | nil => rfl
  | cons sibling rest ih =>
    have hsibling : sibling.length = s.n := h sibling List.mem_cons_self
    have hrest : ∀ x ∈ rest, x.length = s.n := fun x hx => h x (List.mem_cons_of_mem _ hx)
    rw [List.length_cons] at hheight
    rw [climb, climbNodes, shiftRight_eq (by omega), ok_bind, shiftRight_eq (by omega), ok_bind]
    by_cases hbit : (leaf >>> height) % 2 = 0
    · -- the node is a left child
      rw [if_pos hbit, if_pos hbit, hashPair_eq hnode hsibling, ok_bind,
        copy_eq ((Setting.length_join ..).trans hnode.symm), ok_bind]
      exact ih hrest (by omega) (Setting.length_join ..)
    · -- the node is a right child
      rw [if_neg hbit, if_neg hbit, hashPair_eq hsibling hnode, ok_bind,
        copy_eq ((Setting.length_join ..).trans hnode.symm), ok_bind]
      exact ih hrest (by omega) (Setting.length_join ..)

/-- **The root of a signature of a digest is computed without a breach.** Signatures of other sizes
have none. -/
theorem rootFromSignature_eq (hv : s.params.toHeader.Valid) (hp : s.oneTime.Valid)
    (publicSeed : Bytes) (layer tree leaf : Nat) (ots auth : Bytes) {message : Bytes}
    (hm : message.length = s.n) :
    rootFromSignature s publicSeed layer tree leaf ots auth message
      = .ok (if FitsTree s leaf ots auth
          then some (signatureRoot s publicSeed layer tree leaf ots auth message) else none) := by
  have hheight : s.params.treeHeight ≤ 20 := hv.treeHeight_le
  have hsize := (size_le_maxDigest s.digest).2
  -- at most twenty nodes of at most 64 bytes, so the product is a machine word
  have hlength : s.params.treeHeight * s.n ≤ 20 * 64 := Nat.mul_le_mul hheight hsize
  unfold rootFromSignature
  rw [treeHeight_eq, ok_bind, product_eq (by omega), ok_bind, bit_eq (by omega), ok_bind]
  -- path and leaf are checked here, the one-time signature where it is recovered
  by_cases hframe : auth.length = s.params.treeHeight * s.n ∧ leaf < 2 ^ s.params.treeHeight
  · rw [if_pos hframe]
    by_cases hots : ots.length = s.oneTime.signatureBytes
    · have hnode : compress s (OneTime.recoveredNodes s publicSeed layer tree leaf message
          (OneTime.nodesOf s ots)).flatten publicSeed (.ltree layer tree leaf)
          = .ok (recoveredLeaf s publicSeed layer tree leaf ots message) :=
        compress_eq publicSeed _ (recoveredNodes_ne_nil _ _)
          fun _ => length_of_mem_recoveredNodes hots
      have hclimb : climb s publicSeed layer tree leaf 0
          (recoveredLeaf s publicSeed layer tree leaf ots message)
          (Bytes.pieces s.n s.params.treeHeight auth)
          = .ok (signatureRoot s publicSeed layer tree leaf ots auth message) :=
        climb_eq (fun _ => Bytes.length_of_mem_pieces hframe.1)
          (by rw [Bytes.length_pieces]; omega) (length_recoveredLeaf hots)
      rw [if_pos ⟨hframe.1, hframe.2, hots⟩, recover_eq hp publicSeed layer tree leaf hots hm,
        ok_bind]
      simp only [hnode, ok_bind, parts_eq s.n_pos hframe.1, hclimb, pure_eq_ok]
    · rw [if_neg fun h => hots h.2.2, recover_of_ne fun h => hots h.1]
      rfl
  · rw [if_neg hframe, if_neg fun h => hframe ⟨h.1, h.2.1⟩]
    rfl

end

end Hypertree.Checked
