import Hypertree.OneTime.LTree
import Hypertree.Proofs.Schedule
import Hypertree.Proofs.Tweak

/-!
# L-trees without a buffer

`joinNodes` joins one level of nodes in pairs and `reduceNodes` goes on until at most one is left;
both are plain functions of lists. `compress_eq`: on nodes of the size of a digest, the loop over one
buffer computes the same.

The buffer argument is `joinPairs_spec`: joining the pairs from number `i` on writes only places
from `i` on, and at place `j` from the nodes at `2 * j` and `2 * j + 1`, which no earlier write has
touched, as `i ≤ 2 * i`.
-/

namespace Hypertree

open Bytes

namespace LTree

/-- One level of nodes joined in pairs; `i` is the number of the first pair. -/
def joinNodes (s : Setting) (publicSeed : Bytes) (a : Address) : (i : Nat) → List Bytes → List Bytes
  | i, left :: right :: rest =>
    s.join publicSeed (a.setIndex (UInt32.ofNat i)) left right
      :: joinNodes s publicSeed a (i + 1) rest
  | _, rest => rest

theorem length_joinNodes (s : Setting) (publicSeed : Bytes) (a : Address) (i : Nat)
    (nodes : List Bytes) : (joinNodes s publicSeed a i nodes).length = (nodes.length + 1) / 2 := by
  fun_induction joinNodes s publicSeed a i nodes with
  | case1 i left right rest ih =>
    simp only [List.length_cons, ih]
    omega
  | case2 i rest hrest =>
    -- at most one node is left
    match rest, hrest with
    | [], _ => rfl
    | [_], _ => simp
    | left :: right :: rest, hrest => exact absurd rfl (hrest left right rest)

/-- Level after level joined in pairs until at most one node is left. -/
def reduceNodes (s : Setting) (publicSeed : Bytes) (a : Address) (level : Nat)
    (nodes : List Bytes) : List Bytes :=
  if nodes.length ≤ 1 then nodes
  else
    reduceNodes s publicSeed a (level + 1)
      (joinNodes s publicSeed (a.setLevel (UInt32.ofNat level)) 0 nodes)
termination_by nodes.length
decreasing_by
  rw [length_joinNodes]
  omega

/-- The node to which a list of nodes is compressed; empty for no nodes. -/
def compressNodes (s : Setting) (publicSeed : Bytes) (a : Address) (nodes : List Bytes) : Bytes :=
  (reduceNodes s publicSeed a 0 nodes).headD []

variable {s : Setting} {publicSeed : Bytes}

/-! ### Sizes -/

theorem length_of_mem_joinNodes {a : Address} {i : Nat} {nodes : List Bytes}
    (h : ∀ x ∈ nodes, x.length = s.n) :
    ∀ x ∈ joinNodes s publicSeed a i nodes, x.length = s.n := by
  fun_induction joinNodes s publicSeed a i nodes with
  | case1 i left right rest ih =>
    intro x hx
    rcases List.mem_cons.mp hx with rfl | hx
    · exact Setting.length_join ..
    · exact ih (fun y hy => h y (List.mem_cons_of_mem _ (List.mem_cons_of_mem _ hy))) x hx
  | case2 i rest hrest => exact h

theorem length_of_mem_reduceNodes {a : Address} {level : Nat} {nodes : List Bytes}
    (h : ∀ x ∈ nodes, x.length = s.n) :
    ∀ x ∈ reduceNodes s publicSeed a level nodes, x.length = s.n := by
  fun_induction reduceNodes s publicSeed a level nodes with
  | case1 level nodes hle => exact h
  | case2 level nodes hlt ih => exact ih (length_of_mem_joinNodes h)

/-- A list that is not empty is reduced to one node. -/
theorem length_reduceNodes (s : Setting) (publicSeed : Bytes) (a : Address) (level : Nat)
    {nodes : List Bytes} (h : nodes ≠ []) :
    (reduceNodes s publicSeed a level nodes).length = 1 := by
  fun_induction reduceNodes s publicSeed a level nodes with
  | case1 level nodes hle =>
    have := List.length_pos_iff.mpr h
    omega
  | case2 level nodes hlt ih =>
    apply ih
    rw [← List.length_pos_iff, length_joinNodes]
    omega

theorem length_compressNodes {a : Address} {nodes : List Bytes} (hne : nodes ≠ [])
    (h : ∀ x ∈ nodes, x.length = s.n) : (compressNodes s publicSeed a nodes).length = s.n := by
  obtain ⟨x, hx⟩ := List.length_eq_one_iff.mp (length_reduceNodes s publicSeed a 0 hne)
  unfold compressNodes
  rw [hx]
  exact length_of_mem_reduceNodes h x (by rw [hx]; exact List.mem_cons_self)

/-! ### One level, place by place -/

/-- Place `j` of the joined level, for a pair that is there. -/
theorem getD_joinNodes {a : Address} {i : Nat} {nodes : List Bytes} {j : Nat}
    (hj : j < nodes.length / 2) :
    (joinNodes s publicSeed a i nodes).getD j []
      = s.join publicSeed (a.setIndex (UInt32.ofNat (i + j))) (nodes.getD (2 * j) [])
          (nodes.getD (2 * j + 1) []) := by
  fun_induction joinNodes s publicSeed a i nodes generalizing j with
  | case1 i left right rest ih =>
    cases j with
    | zero => rfl
    | succ j =>
      simp only [List.length_cons] at hj
      rw [List.getD_cons_succ, ih (by omega), Nat.mul_succ, List.getD_cons_succ,
        List.getD_cons_succ, List.getD_cons_succ, List.getD_cons_succ, Nat.add_right_comm i 1 j,
        Nat.add_assoc i j 1]
  -- a single node has no parent among the joined pairs
  | case2 i rest hrest =>
    match rest, hrest with
    | [], _ => simp at hj
    | [_], _ => simp at hj
    | left :: right :: rest, hrest => exact absurd rfl (hrest left right rest)

/-- An unpaired last node moves up unchanged. -/
theorem getD_joinNodes_last {a : Address} {i : Nat} {nodes : List Bytes}
    (hodd : nodes.length % 2 = 1) :
    (joinNodes s publicSeed a i nodes).getD (nodes.length / 2) []
      = nodes.getD (nodes.length - 1) [] := by
  fun_induction joinNodes s publicSeed a i nodes with
  | case1 i left right rest ih =>
    simp only [List.length_cons] at hodd ⊢
    -- an odd number of nodes is left behind the first pair, so not none
    have hpos : 0 < rest.length := by omega
    rw [show (rest.length + 1 + 1) / 2 = rest.length / 2 + 1 by omega, List.getD_cons_succ,
      ih (by omega), show rest.length + 1 + 1 - 1 = rest.length - 1 + 1 + 1 by omega,
      List.getD_cons_succ, List.getD_cons_succ]
  | case2 i rest hrest =>
    match rest, hrest with
    | [], _ => rfl
    | [_], _ => simp
    | left :: right :: rest, hrest => exact absurd rfl (hrest left right rest)

/-! ### The buffer -/

theorem setIndex_setIndex (a : Address) (i j : UInt32) :
    (a.setIndex i).setIndex j = a.setIndex j := by
  obtain ⟨layer, tree, place, selector⟩ := a
  cases place <;> rfl

theorem setLevel_setLevel (a : Address) (i j : UInt32) :
    (a.setLevel i).setLevel j = a.setLevel j := by
  obtain ⟨layer, tree, place, selector⟩ := a
  cases place <;> rfl

theorem getD_setIfInBounds {buffer : Array Bytes} {i : Nat} (hi : i < buffer.size) (x : Bytes)
    (j : Nat) : (buffer.setIfInBounds i x).getD j [] = if i = j then x else buffer.getD j [] := by
  rw [Array.getD_eq_getD_getElem?, Array.getElem?_setIfInBounds, Array.getD_eq_getD_getElem?,
    if_pos hi]
  split_ifs <;> rfl

/-- What joining `pairs` pairs from number `i` on makes of the buffer. -/
theorem joinPairs_spec (s : Setting) (publicSeed : Bytes) (pairs : Nat) :
    ∀ (i : Nat) (a : Address) (buffer : Array Bytes),
    2 * (i + pairs) ≤ buffer.size →
    (∀ j, 2 * i ≤ j → j < 2 * (i + pairs) → (buffer.getD j []).length = s.n) →
    ∃ buffer', joinPairs s publicSeed a pairs i buffer = .ok buffer' ∧
      buffer'.size = buffer.size ∧
      (∀ j, j < i ∨ i + pairs ≤ j → buffer'.getD j [] = buffer.getD j []) ∧
      ∀ j, i ≤ j → j < i + pairs →
        buffer'.getD j [] = s.join publicSeed (a.setIndex (UInt32.ofNat j))
          (buffer.getD (2 * j) []) (buffer.getD (2 * j + 1) []) := by
  induction pairs with
  | zero =>
    intro i a buffer _ _
    refine ⟨buffer, rfl, rfl, fun _ _ => rfl, ?_⟩
    intro j h1 h2
    omega
  | succ pairs ih =>
    intro i a buffer hsize hlen
    have hleft := hlen (2 * i) (by omega) (by omega)
    have hright := hlen (2 * i + 1) (by omega) (by omega)
    set parent := s.join publicSeed (a.setIndex (UInt32.ofNat i)) (buffer.getD (2 * i) [])
      (buffer.getD (2 * i + 1) []) with hparent
    have hi : i < buffer.size := by omega
    have hset := getD_setIfInBounds hi parent
    have hsize₁ : 2 * (i + 1 + pairs) ≤ (buffer.setIfInBounds i parent).size := by
      rw [Array.size_setIfInBounds]
      omega
    -- the children of the pairs still to be joined lie behind the place just written
    have hlen₁ : ∀ j, 2 * (i + 1) ≤ j → j < 2 * (i + 1 + pairs) →
        ((buffer.setIfInBounds i parent).getD j []).length = s.n := by
      intro j h1 h2
      rw [hset, if_neg (by omega)]
      exact hlen j (by omega) (by omega)
    obtain ⟨buffer', hok, hsize', hframe, hjoin⟩ :=
      ih (i + 1) (a.setIndex (UInt32.ofNat i)) (buffer.setIfInBounds i parent) hsize₁ hlen₁
    refine ⟨buffer', ?_, ?_, ?_, ?_⟩
    · rw [joinPairs]
      simp only [Setting.hashPair_eq hleft hright, bind, Except.bind, ← hparent, hok]
    · rw [hsize', Array.size_setIfInBounds]
    · intro j hj
      rw [hframe j (by omega), hset, if_neg (by omega)]
    · intro j h1 h2
      by_cases hij : i = j
      · rw [hframe j (by omega), hset, if_pos hij, hparent, hij]
      · rw [hjoin j (by omega) (by omega), hset, hset, if_neg (by omega), if_neg (by omega),
          setIndex_setIndex]

/-- The first places of a buffer hold the given nodes. -/
def Holds (buffer : Array Bytes) (nodes : List Bytes) : Prop :=
  nodes.length ≤ buffer.size ∧ ∀ j < nodes.length, buffer.getD j [] = nodes.getD j []

theorem Holds.length_getD {buffer : Array Bytes} {nodes : List Bytes} (h : Holds buffer nodes)
    (hlen : ∀ x ∈ nodes, x.length = s.n) {j : Nat} (hj : j < nodes.length) :
    (buffer.getD j []).length = s.n := by
  rw [h.2 j hj, List.getD_eq_getElem _ _ hj]
  exact hlen _ (List.getElem_mem hj)

/-- A buffer in which the pairs are joined, and then the unpaired node moved up, holds the next
level. -/
theorem holds_joinNodes {a : Address} {nodes : List Bytes} {buffer joined : Array Bytes}
    (h : Holds buffer nodes) (hsize : joined.size = buffer.size)
    (hkeep : ∀ j, nodes.length / 2 ≤ j → joined.getD j [] = buffer.getD j [])
    (hjoin : ∀ j < nodes.length / 2, joined.getD j []
      = s.join publicSeed (a.setIndex (UInt32.ofNat j)) (buffer.getD (2 * j) [])
        (buffer.getD (2 * j + 1) [])) :
    Holds (if nodes.length % 2 = 1
        then joined.setIfInBounds (nodes.length / 2) (joined.getD (nodes.length - 1) [])
        else joined)
      (joinNodes s publicSeed a 0 nodes) := by
  obtain ⟨hfits, hget⟩ := h
  have hlength : (joinNodes s publicSeed a 0 nodes).length = (nodes.length + 1) / 2 :=
    length_joinNodes ..
  set moved := if nodes.length % 2 = 1
    then joined.setIfInBounds (nodes.length / 2) (joined.getD (nodes.length - 1) [])
    else joined with hmoved
  constructor
  · rw [hlength, hmoved]
    split_ifs
    · rw [Array.size_setIfInBounds]
      omega
    · omega
  · intro j hj
    rw [hlength] at hj
    by_cases hpair : j < nodes.length / 2
    · -- a pair, which the move of the last node does not touch
      have hstays : moved.getD j [] = joined.getD j [] := by
        rw [hmoved]
        split_ifs
        · rw [getD_setIfInBounds (by omega), if_neg (by omega)]
        · rfl
      rw [hstays, hjoin j hpair, getD_joinNodes hpair, Nat.zero_add, hget _ (by omega),
        hget _ (by omega)]
    · -- the node without a partner
      have hodd : nodes.length % 2 = 1 := by omega
      obtain rfl : j = nodes.length / 2 := by omega
      rw [hmoved, if_pos hodd, getD_setIfInBounds (by omega), if_pos rfl, hkeep _ (by omega),
        hget _ (by omega), getD_joinNodes_last hodd]

theorem collapse_holds (publicSeed : Bytes) (a : Address) (level : Nat) (nodes : List Bytes)
    (hlen : ∀ x ∈ nodes, x.length = s.n) : ∀ (a' : Address) (buffer : Array Bytes),
      (∀ i, a'.setLevel i = a.setLevel i) → Holds buffer nodes →
      ∃ buffer', collapse s publicSeed a' nodes.length level buffer = .ok buffer' ∧
        Holds buffer' (reduceNodes s publicSeed a level nodes) := by
  -- the loop writes the level into its address; the levels before it leave no trace there
  fun_induction reduceNodes s publicSeed a level nodes with
  | case1 level nodes hle =>
    intro a' buffer _ hb
    refine ⟨buffer, ?_, hb⟩
    rw [collapse, if_pos hle]
    rfl
  | case2 level nodes hlt ih =>
    intro a' buffer ha hb
    have hfits := hb.1
    obtain ⟨joined, hok, hsize, hframe, hjoin⟩ :=
      joinPairs_spec s publicSeed (nodes.length / 2) 0 (a'.setLevel (UInt32.ofNat level)) buffer
        (by omega) (fun j _ hj => hb.length_getD hlen (by omega))
    simp only [Nat.zero_add, ha] at hframe hjoin
    have hholds := holds_joinNodes hb hsize (fun j hj => hframe j (Or.inr hj))
      (fun j hj => hjoin j (Nat.zero_le j) hj)
    obtain ⟨buffer', hok', hb'⟩ := ih (length_of_mem_joinNodes hlen)
      (a'.setLevel (UInt32.ofNat level)) _ (fun i => by rw [setLevel_setLevel, ha]) hholds
    rw [length_joinNodes] at hok'
    refine ⟨buffer', ?_, hb'⟩
    rw [collapse, if_neg hlt]
    simp only [hok, bind, Except.bind]
    exact hok'

/-- **The loop over one buffer computes the level-by-level definition.** -/
theorem compress_eq (a : Address) {nodes : List Bytes} (hne : nodes ≠ [])
    (hlen : ∀ x ∈ nodes, x.length = s.n) :
    compress s nodes.flatten publicSeed a = .ok (compressNodes s publicSeed a nodes) := by
  have hcount : nodes.flatten.length / s.n = nodes.length := by
    rw [length_flatten hlen, Nat.mul_div_cancel _ s.n_pos]
  -- the invariant of the array: its front holds the level that was reached
  have hstart : Holds nodes.toArray nodes := by
    refine ⟨by simp, ?_⟩
    intro j _
    rw [Array.getD_eq_getD_getElem?, List.getElem?_toArray, List.getD_eq_getElem?_getD]
  obtain ⟨buffer, hok, -, hget⟩ :=
    collapse_holds publicSeed a 0 nodes hlen a nodes.toArray (fun _ => rfl) hstart
  have hone := length_reduceNodes s publicSeed a 0 hne
  rw [compress, hcount, pieces_flatten hlen]
  simp only [hok, bind, Except.bind, pure, Except.pure]
  rw [hget 0 (by omega), compressNodes, List.headD_eq_head?_getD, List.head?_eq_getElem?,
    List.getD_eq_getElem?_getD]

end LTree

/-! ### Settings that make the same values -/

namespace Setting.Agrees

variable {s t : Setting}

theorem joinNodes_eq (h : s.Agrees t) : LTree.joinNodes s = LTree.joinNodes t := by
  funext publicSeed a i nodes
  fun_induction LTree.joinNodes s publicSeed a i nodes with
  | case1 i left right rest ih => rw [LTree.joinNodes, h.join_eq, ih]
  | case2 i rest hrest => rw [LTree.joinNodes.eq_2 _ _ _ _ _ hrest]

theorem compressNodes_eq (h : s.Agrees t) : LTree.compressNodes s = LTree.compressNodes t := by
  have hreduce : ∀ publicSeed a level nodes,
      LTree.reduceNodes s publicSeed a level nodes
        = LTree.reduceNodes t publicSeed a level nodes := by
    intro publicSeed a level nodes
    fun_induction LTree.reduceNodes s publicSeed a level nodes with
    | case1 level nodes hle => rw [LTree.reduceNodes, if_pos hle]
    | case2 level nodes hlt ih => rw [ih, h.joinNodes_eq, eq_comm, LTree.reduceNodes, if_neg hlt]
  funext publicSeed a nodes
  rw [LTree.compressNodes, hreduce, LTree.compressNodes]

end Setting.Agrees

end Hypertree
