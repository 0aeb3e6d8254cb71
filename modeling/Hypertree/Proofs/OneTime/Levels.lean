import Hypertree.Proofs.Checked.Tree
import Hypertree.Proofs.OneTime.Outcome
import Hypertree.Proofs.Position

/-!
# The levels of an L-tree

An L-tree over nodes is its levels: the nodes, and above each level the one that has a parent for
every pair and keeps a node without a partner (`IsAbove`). `compress_levels` says that the loop over
one buffer ends with the first level of at most one node, for any number of nodes, none included.

The levels are written over one another. `joinPairs_append` is what stands in the buffer while a
level is joined: when `pairs` parents have been written, all nodes from number `pairs` on are still
there, and the next ones to be read are those from number `2 * pairs` on.
-/

namespace Hypertree

/-- The buffer holds the nodes of the array. -/
theorem Checked.SameNodes.eq_flatten {s : Setting} {count : Nat} {nodes : List Bytes}
    {y : Except Breach Bytes} (h : SameNodes s count (.ok nodes.toArray) y) :
    y = .ok nodes.flatten := by
  generalize hx : (Except.ok nodes.toArray : Except Error (Array Bytes)) = x at h
  cases h with
  | intro hlen hsizes => rw [List.toArray_inj (Except.ok.inj hx)]

namespace LTree

/-- A level of an L-tree and the one above it, whose pairs are joined at the given addresses. -/
structure IsAbove (s : Setting) (publicSeed : Bytes) (address : Nat → Address)
    (nodes above : List Bytes) : Prop where
  length_eq : above.length = (nodes.length + 1) / 2
  pair : ∀ i < nodes.length / 2,
    s.hashPair (nodes.getD (2 * i) []) (nodes.getD (2 * i + 1) []) publicSeed (address i)
      = .ok (above.getD i [])
  unpaired : nodes.length % 2 = 1 →
    above.getD (nodes.length / 2) [] = nodes.getD (nodes.length - 1) []

/-- The nodes at a level. -/
def levelNodes (s : Setting) (publicSeed : Bytes) (a : Address) (nodes : List Bytes) :
    (level : Nat) → List Bytes
  | 0 => nodes
  | level + 1 =>
    joinNodes s publicSeed (a.setLevel (UInt32.ofNat level)) 0 (levelNodes s publicSeed a nodes level)

variable {s : Setting} {publicSeed : Bytes} {a : Address} {nodes : List Bytes}

/-! ### The number of levels -/

theorem levelSize_le_iff (count level m : Nat) :
    levelSize count level ≤ m ↔ count ≤ m * 2 ^ level := by
  induction level generalizing m with
  | zero => rw [levelSize, pow_zero, Nat.mul_one]
  | succ level ih =>
    have hhalf : (levelSize count level + 1) / 2 ≤ m ↔ levelSize count level ≤ m * 2 := by omega
    rw [levelSize, hhalf, ih, pow_succ', Nat.mul_assoc]

/-- The levels up to the first one with at most one node. -/
theorem levelSize_le_one_iff (count level : Nat) :
    levelSize count level ≤ 1 ↔ Nat.clog 2 count ≤ level := by
  rw [levelSize_le_iff, Nat.one_mul, ← Nat.clog_le_iff_le_pow one_lt_two]

theorem length_levelNodes (s : Setting) (publicSeed : Bytes) (a : Address) (nodes : List Bytes)
    (level : Nat) : (levelNodes s publicSeed a nodes level).length = levelSize nodes.length level := by
  induction level with
  | zero => rfl
  | succ level ih => rw [levelNodes, length_joinNodes, ih, levelSize]

/-! ### One level above another -/

theorem length_of_mem_levelNodes (h : ∀ x ∈ nodes, x.length = s.n) (level : Nat) :
    ∀ x ∈ levelNodes s publicSeed a nodes level, x.length = s.n := by
  induction level with
  | zero => exact h
  | succ level ih => exact length_of_mem_joinNodes ih

theorem isAbove_joinNodes (h : ∀ x ∈ nodes, x.length = s.n) :
    IsAbove s publicSeed (fun i => a.setIndex (UInt32.ofNat i)) nodes
      (joinNodes s publicSeed a 0 nodes) where
  length_eq := length_joinNodes ..
  pair i hi := by
    rw [Setting.hashPair_eq (Checked.length_getD h (by omega)) (Checked.length_getD h (by omega)),
      getD_joinNodes hi, Nat.zero_add]
  unpaired := getD_joinNodes_last

/-- The number of a pair is written into the address before the pair is joined, so the one that
stands there does not matter. -/
theorem joinNodes_setIndex (index : UInt32) (i : Nat) :
    joinNodes s publicSeed (a.setIndex index) i nodes = joinNodes s publicSeed a i nodes := by
  fun_induction joinNodes s publicSeed a i nodes with
  | case1 i left right rest ih => rw [joinNodes, ih, setIndex_setIndex]
  | case2 i rest hrest => rw [joinNodes.eq_2 _ _ _ _ _ hrest]

/-! ### Level after level -/

/-- Reducing from any level on ends with the first level of at most one node. -/
theorem reduceNodes_levelNodes {level : Nat} (hlevel : level ≤ Nat.clog 2 nodes.length) :
    reduceNodes s publicSeed a level (levelNodes s publicSeed a nodes level)
      = levelNodes s publicSeed a nodes (Nat.clog 2 nodes.length) := by
  induction hlevel using Nat.decreasingInduction with
  | self =>
    rw [reduceNodes, if_pos]
    rw [length_levelNodes, levelSize_le_one_iff]
  | of_succ level hlt ih =>
    rw [reduceNodes, if_neg]
    · exact ih
    · rw [length_levelNodes, levelSize_le_one_iff]
      exact Nat.not_le_of_lt hlt

theorem joinLevel_eq (h : ∀ x ∈ nodes, x.length = s.n) (i : Nat) :
    joinLevel s publicSeed a i nodes = .ok (joinNodes s publicSeed a i nodes) := by
  fun_induction joinNodes s publicSeed a i nodes with
  | case1 i left right rest ih =>
    have hleft : left.length = s.n := h left (by simp)
    have hright : right.length = s.n := h right (by simp)
    rw [joinLevel, Setting.hashPair_eq hleft hright, ih fun x hx => h x (by simp [hx])]
    rfl
  | case2 i rest hrest => rw [joinLevel.eq_2 _ _ _ _ _ hrest]

/-- The definition without a buffer does not fail. -/
theorem reduce_eq (h : ∀ x ∈ nodes, x.length = s.n) (level : Nat) :
    reduce s publicSeed a level nodes = .ok (reduceNodes s publicSeed a level nodes) := by
  fun_induction reduceNodes s publicSeed a level nodes with
  | case1 level nodes hle => rw [reduce, if_pos hle]
  | case2 level nodes hlt ih =>
    rw [reduce, if_neg hlt]
    split
    next hjoin =>
      rw [joinLevel_eq h] at hjoin
      cases hjoin
    next parents hjoin =>
      rw [joinLevel_eq h] at hjoin
      obtain rfl := Except.ok.inj hjoin
      exact ih (length_of_mem_joinNodes h)

/-- A list of at most one string, joined. -/
theorem flatten_of_length_le_one {strings : List Bytes} (h : strings.length ≤ 1) :
    strings.flatten = strings.headD [] := by
  match strings, h with
  | [], _ => rfl
  | [x], _ => simp
  | _ :: _ :: _, h => simp at h

theorem compressNodes_eq_flatten (s : Setting) (publicSeed : Bytes) (a : Address)
    (nodes : List Bytes) : compressNodes s publicSeed a nodes
      = (levelNodes s publicSeed a nodes (Nat.clog 2 nodes.length)).flatten := by
  have hone : (levelNodes s publicSeed a nodes (Nat.clog 2 nodes.length)).length ≤ 1 := by
    rw [length_levelNodes, levelSize_le_one_iff]
  rw [flatten_of_length_le_one hone, ← reduceNodes_levelNodes (Nat.zero_le _)]
  rfl

/-! ### The buffer -/

theorem eq_toArray_of_getD {buffer : Array Bytes} {strings : List Bytes}
    (hsize : buffer.size = strings.length)
    (h : ∀ j < strings.length, buffer.getD j [] = strings.getD j []) :
    buffer = strings.toArray := by
  refine Array.ext (by rw [hsize, List.size_toArray]) fun j hj hj' => ?_
  have hget := h j (by omega)
  rw [Array.getD_eq_getD_getElem?, Array.getElem?_eq_getElem hj, List.getD_eq_getElem _ _ (by omega)]
    at hget
  rw [List.getElem_toArray]
  exact hget

/-- The beginning of one list in front of the end of another one. -/
theorem getD_take_append_drop {front strings : List Bytes} {k : Nat} (hk : k ≤ front.length)
    (j : Nat) : (front.take k ++ strings.drop k).getD j []
      = if j < k then front.getD j [] else strings.getD j [] := by
  have hlength : (front.take k).length = k := by
    rw [List.length_take, Nat.min_eq_left hk]
  simp only [List.getD_eq_getElem?_getD]
  split_ifs with hj
  · rw [List.getElem?_append_left (by omega), List.getElem?_take_of_lt hj]
  · rw [List.getElem?_append_right (by omega), hlength, List.getElem?_drop,
      Nat.add_sub_cancel' (by omega)]

/-- **While a level is joined** in front of what is left of the levels below it, nothing that is
still to be read has been written over. -/
theorem joinPairs_append (h : ∀ x ∈ nodes, x.length = s.n) (rest : List Bytes) {pairs : Nat}
    (hpairs : pairs ≤ nodes.length / 2) :
    joinPairs s publicSeed a pairs 0 (nodes ++ rest).toArray
      = .ok ((joinNodes s publicSeed a 0 nodes).take pairs ++ (nodes ++ rest).drop pairs).toArray := by
  have hlength : (nodes ++ rest).length = nodes.length + rest.length := List.length_append
  have habove : pairs ≤ (joinNodes s publicSeed a 0 nodes).length := by
    rw [length_joinNodes]
    omega
  have hnode : ∀ j < nodes.length, (nodes ++ rest).toArray.getD j [] = nodes.getD j [] := by
    intro j hj
    rw [Checked.getD_toArray, List.getD_append _ _ _ _ hj]
  obtain ⟨buffer, hok, hsize, hframe, hjoin⟩ :=
    joinPairs_spec s publicSeed pairs 0 a (nodes ++ rest).toArray
      (by rw [List.size_toArray]; omega)
      (fun j _ hj => by
        rw [hnode j (by omega)]
        exact Checked.length_getD h (by omega))
  rw [Nat.zero_add] at hframe hjoin
  rw [hok]
  refine congrArg Except.ok (eq_toArray_of_getD ?_ fun j _ => ?_)
  · simp only [hsize, List.size_toArray, List.length_append, List.length_take, List.length_drop]
    omega
  · rw [getD_take_append_drop habove]
    split_ifs with hj
    · -- a parent that has been written
      rw [hjoin j (Nat.zero_le j) hj, hnode _ (by omega), hnode _ (by omega),
        getD_joinNodes (by omega), Nat.zero_add]
    · -- a node that has been left alone
      rw [hframe j (by omega), Checked.getD_toArray]

/-- The same in the buffer of bytes. -/
theorem checked_joinPairs_append (h : ∀ x ∈ nodes, x.length = s.n) {rest : List Bytes}
    (hrest : ∀ x ∈ rest, x.length = s.n) {pairs : Nat} (hpairs : pairs ≤ nodes.length / 2) :
    Checked.joinPairs s publicSeed a pairs 0 (nodes ++ rest).flatten
      = .ok ((joinNodes s publicSeed a 0 nodes).take pairs
          ++ (nodes ++ rest).drop pairs).flatten := by
  have hsizes : ∀ x ∈ nodes ++ rest, x.length = s.n :=
    fun x hx => (List.mem_append.mp hx).elim (h x) (hrest x)
  have hsame := Checked.sameNodes_joinPairs publicSeed (nodes ++ rest).length pairs 0 a
    (nodes ++ rest) rfl hsizes (by rw [List.length_append]; omega)
  rw [joinPairs_append h rest hpairs] at hsame
  exact hsame.eq_flatten

/-! ### Compression -/

/-- Any number of nodes is compressed to the last level, in an array as in the buffer of bytes. -/
theorem compress_levelNodes (s : Setting) (publicSeed : Bytes) (a : Address) {nodes : List Bytes}
    (h : ∀ x ∈ nodes, x.length = s.n) :
    compress s nodes.flatten publicSeed a
        = .ok (levelNodes s publicSeed a nodes (Nat.clog 2 nodes.length)).flatten ∧
      Checked.compress s nodes.flatten publicSeed a
        = .ok (levelNodes s publicSeed a nodes (Nat.clog 2 nodes.length)).flatten := by
  rw [← compressNodes_eq_flatten]
  by_cases hne : nodes = []
  · -- no node at all
    subst hne
    have hnone : compressNodes s publicSeed a [] = [] := by
      rw [compressNodes, reduceNodes, if_pos (by simp)]
      rfl
    have hcount : ([] : List Bytes).flatten.length / s.n = 0 := Nat.zero_div s.n
    have hrest : ([] : List Bytes).flatten.length % s.n = 0 := Nat.zero_mod s.n
    have hn := s.n_pos.ne'
    rw [hnone]
    constructor
    · rw [compress, hcount, collapse, if_pos (Nat.zero_le 1)]
      rfl
    · rw [Checked.compress, Checked.remainder_eq hn, Checked.ok_bind, Checked.assert_eq hrest,
        Checked.ok_bind, Checked.quotient_eq hn, Checked.ok_bind, hcount, Checked.collapse,
        if_pos (Nat.zero_le 1)]
      exact congrArg Except.ok List.take_nil
  · exact ⟨compress_eq a hne h, Checked.compress_eq publicSeed a hne h⟩

/-- **Compressing nodes is joining level after level.** For any number of nodes of the size of a
digest there are levels, the lowest of which are the nodes, and each of which is above the one
before it, joined at the address of its level and pair. The first level of at most one node is the
result: of the definition without a buffer, of the loop over an array of nodes and of the loop over
one buffer of bytes. While that buffer is overwritten, with whatever the levels below left behind
this one, the nodes that are still to be read stand as they were. -/
theorem compress_levels (s : Setting) (publicSeed : Bytes) (layer : UInt32) (tree : UInt64)
    (leaf level pair selector : UInt32) {nodes : List Bytes} (h : ∀ x ∈ nodes, x.length = s.n) :
    ∃ (levels : Nat → List Bytes) (height : Nat),
      levels 0 = nodes ∧
      (∀ k, IsAbove s publicSeed
        (fun i => ⟨layer, tree, .ltree leaf (UInt32.ofNat k) (UInt32.ofNat i), selector⟩)
        (levels k) (levels (k + 1))) ∧
      (∀ k < height, 1 < (levels k).length) ∧ (levels height).length ≤ 1 ∧
      height = Nat.clog 2 nodes.length ∧
      reduce s publicSeed ⟨layer, tree, .ltree leaf level pair, selector⟩ 0 nodes
        = .ok (levels height) ∧
      compress s nodes.flatten publicSeed ⟨layer, tree, .ltree leaf level pair, selector⟩
        = .ok (levels height).flatten ∧
      Checked.compress s nodes.flatten publicSeed ⟨layer, tree, .ltree leaf level pair, selector⟩
        = .ok (levels height).flatten ∧
      ∀ (k : Nat) (pair' : UInt32) (rest : List Bytes), (∀ x ∈ rest, x.length = s.n) →
        ∀ pairs ≤ (levels k).length / 2,
          Checked.joinPairs s publicSeed
              ⟨layer, tree, .ltree leaf (UInt32.ofNat k) pair', selector⟩ pairs 0
              (levels k ++ rest).flatten
            = .ok ((levels (k + 1)).take pairs ++ (levels k ++ rest).drop pairs).flatten := by
  set a : Address := ⟨layer, tree, .ltree leaf level pair, selector⟩ with ha
  have hsizes : ∀ k, ∀ x ∈ levelNodes s publicSeed a nodes k, x.length = s.n :=
    length_of_mem_levelNodes h
  obtain ⟨hcompress, hchecked⟩ := compress_levelNodes s publicSeed a h
  -- the levels do not depend on the buffer; the height is how often their size can be halved
  refine ⟨levelNodes s publicSeed a nodes, Nat.clog 2 nodes.length, rfl,
    ?_, ?_, ?_, rfl, ?_, hcompress, hchecked, ?_⟩
  · intro k
    exact isAbove_joinNodes (a := a.setLevel (UInt32.ofNat k)) (hsizes k)
  · intro k hk
    rw [length_levelNodes, ← Nat.not_le, levelSize_le_one_iff]
    exact Nat.not_le_of_lt hk
  · rw [length_levelNodes, levelSize_le_one_iff]
  · rw [reduce_eq h, ← reduceNodes_levelNodes (Nat.zero_le _)]
    rfl
  · -- neither the rest of the buffer nor the pair that the address was left at matters
    intro k pair' rest hrest pairs hpairs
    rw [checked_joinPairs_append (hsizes k) hrest hpairs]
    have haddress : (⟨layer, tree, .ltree leaf (UInt32.ofNat k) pair', selector⟩ : Address)
        = (a.setLevel (UInt32.ofNat k)).setIndex pair' := rfl
    rw [haddress, joinNodes_setIndex, levelNodes]

/-- Of three nodes, the last one moves up beside the parent of the others. -/
theorem compress_levels_three :
    ∃ first root : Bytes,
      OneTime.plain.hashPair (List.replicate 32 1) (List.replicate 32 2) (Bytes.zeros 32)
        ⟨0, 0, .ltree 7 0 0, 0⟩ = .ok first ∧
      OneTime.plain.hashPair first (List.replicate 32 3) (Bytes.zeros 32)
        ⟨0, 0, .ltree 7 1 0, 0⟩ = .ok root ∧
      compress OneTime.plain
        [List.replicate 32 1, List.replicate 32 2, List.replicate 32 3].flatten (Bytes.zeros 32)
        (.ltree 0 0 7) = .ok root := by
  have hsizes : ∀ x ∈ ([List.replicate 32 1, List.replicate 32 2, List.replicate 32 3] : List Bytes),
      x.length = OneTime.plain.n := by
    simp [Setting.n, OneTime.plain, Digest.size]
  obtain ⟨levels, height, hzero, habove, -, -, hheight, -, hcompress, -⟩ :=
    compress_levels OneTime.plain (Bytes.zeros 32) 0 0 7 0 0 0 hsizes
  -- a pair and a node without a partner, then one more pair
  have hlow := habove 0
  have hmiddle := habove 1
  rw [hzero] at hlow
  obtain ⟨first, moved, hone⟩ := List.length_eq_two.mp hlow.length_eq
  rw [hone] at hlow hmiddle
  have hlength : (levels 2).length = 1 := hmiddle.length_eq.trans (by simp)
  obtain ⟨root, htwo⟩ := List.length_eq_one_iff.mp hlength
  rw [htwo] at hmiddle
  obtain rfl : moved = List.replicate 32 3 := hlow.unpaired rfl
  obtain rfl : height = 2 := hheight
  refine ⟨first, root, hlow.pair 0 (by simp), hmiddle.pair 0 (by simp), ?_⟩
  rw [htwo] at hcompress
  exact hcompress.trans (congrArg Except.ok List.flatten_singleton)

end LTree

end Hypertree
