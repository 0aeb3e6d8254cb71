import Hypertree.Proofs.Position
import Hypertree.Proofs.Transcript

/-!
# The positions at which trees call hash functions

A record of hash calls visits a list of positions if the addresses of its calls are those of the
positions, in their order (`Traced.Visits`). The lists are computed from the sizes alone: the steps
of the chains of a leaf, the pairs of its L-tree level by level, the nodes of a subtree, the
children before the parent, and the nodes on a path. All of them are positions of the key.

The records of chains, L-trees and paths are those of a verification; the root of a tree that
belongs to a signature takes the rest of the chains, the L-tree and the path
(`visits_rootTraced`).
-/

namespace Hypertree

/-! ### Lists of positions -/

namespace Position

/-- `count` steps of a chain from number `start` on. -/
def steps (layer tree leaf chain start count : Nat) : List Position :=
  (List.range' start count).map (step layer tree leaf chain)

/-- Steps of all chains of a leaf. -/
def chainSteps (s : Setting) (layer tree leaf : Nat) (start count : Nat → Nat) : List Position :=
  (List.range s.oneTime.chains).flatMap fun chain =>
    steps layer tree leaf chain (start chain) (count chain)

/-- The pairs of an L-tree from a level of `count` nodes on. -/
def pairs (layer tree leaf count level : Nat) : List Position :=
  if count ≤ 1 then []
  else (List.range (count / 2)).map (pair layer tree leaf level) ++
    pairs layer tree leaf ((count + 1) / 2) (level + 1)
termination_by count

/-- What the node of a leaf takes: the whole chains and the whole L-tree. -/
def leafPositions (s : Setting) (layer tree leaf : Nat) : List Position :=
  chainSteps s layer tree leaf (fun _ => 0) (fun _ => s.oneTime.w - 1) ++
    pairs layer tree leaf s.oneTime.chains 0

/-- What a node takes: its children and the node itself. -/
def subtree (s : Setting) (layer tree : Nat) : (height index : Nat) → List Position
  | 0, index => leafPositions s layer tree index
  | height + 1, index =>
    subtree s layer tree height (2 * index) ++
      (subtree s layer tree height (2 * index + 1) ++ [node layer tree height index])

/-- The parents on the path of a leaf at `count` heights from `height` on. -/
def path (layer tree leaf height count : Nat) : List Position :=
  (List.range' height count).map fun z => node layer tree z (leaf >>> (z + 1))

/-- What the root that belongs to a signature of a message takes: the rest of the chains, the
L-tree and the path. -/
def recovery (s : Setting) (layer tree leaf : Nat) (message : Bytes) : List Position :=
  chainSteps s layer tree leaf (OneTime.digit s message)
      (fun chain => s.oneTime.w - 1 - OneTime.digit s message chain) ++
    (pairs layer tree leaf s.oneTime.chains 0 ++
      path layer tree leaf 0 s.params.treeHeight)

section

variable {s : Setting} {layer tree leaf : Nat} {p : Position}

theorem inKey_of_mem_chainSteps (htree : Caches.HasTree s.params.toHeader layer tree)
    (hleaf : leaf < 2 ^ s.params.treeHeight) {start count : Nat → Nat}
    (h : ∀ chain, start chain + count chain ≤ s.oneTime.w - 1)
    (hp : p ∈ chainSteps s layer tree leaf start count) : p.InKey s := by
  obtain ⟨chain, hchain, hp⟩ := List.mem_flatMap.mp hp
  obtain ⟨number, hnumber, rfl⟩ := List.mem_map.mp hp
  have hend := h chain
  have hlast := (List.mem_range'_1.mp hnumber).2
  exact ⟨htree, hleaf, List.mem_range.mp hchain, by omega⟩

theorem inKey_of_mem_level (htree : Caches.HasTree s.params.toHeader layer tree)
    (hleaf : leaf < 2 ^ s.params.treeHeight) {count level : Nat}
    (hcount : count = LTree.levelSize s.oneTime.chains level)
    (hp : p ∈ pairs layer tree leaf count level) : p.InKey s := by
  fun_induction pairs layer tree leaf count level with
  | case1 count level hle => cases hp
  | case2 count level hlt ih =>
    rcases List.mem_append.mp hp with hp | hp
    · obtain ⟨number, hnumber, rfl⟩ := List.mem_map.mp hp
      exact ⟨htree, hleaf, hcount ▸ List.mem_range.mp hnumber⟩
    · exact ih (by rw [hcount, LTree.levelSize]) hp

theorem inKey_of_mem_pairs (htree : Caches.HasTree s.params.toHeader layer tree)
    (hleaf : leaf < 2 ^ s.params.treeHeight)
    (hp : p ∈ pairs layer tree leaf s.oneTime.chains 0) : p.InKey s := by
  have hcount : s.oneTime.chains = LTree.levelSize s.oneTime.chains 0 := rfl
  exact inKey_of_mem_level htree hleaf hcount hp

theorem inKey_of_mem_leafPositions (htree : Caches.HasTree s.params.toHeader layer tree)
    (hleaf : leaf < 2 ^ s.params.treeHeight) (hp : p ∈ leafPositions s layer tree leaf) :
    p.InKey s := by
  rcases List.mem_append.mp hp with hp | hp
  · exact inKey_of_mem_chainSteps htree hleaf (fun _ => (Nat.zero_add _).le) hp
  · exact inKey_of_mem_pairs htree hleaf hp

theorem inKey_of_mem_subtree (htree : Caches.HasTree s.params.toHeader layer tree) :
    ∀ {height index : Nat}, height ≤ s.params.treeHeight →
      index < 2 ^ (s.params.treeHeight - height) → p ∈ subtree s layer tree height index →
      p.InKey s
  | 0, index, _, hindex, hp => inKey_of_mem_leafPositions htree hindex hp
  | height + 1, index, hheight, hindex, hp => by
    have hpow := Tree.two_pow_sub hheight
    rcases List.mem_append.mp hp with hp | hp
    · exact inKey_of_mem_subtree htree (by omega) (by omega) hp
    · rcases List.mem_append.mp hp with hp | hp
      · exact inKey_of_mem_subtree htree (by omega) (by omega) hp
      · obtain rfl := List.mem_singleton.mp hp
        exact ⟨htree, hheight, hindex⟩

theorem inKey_of_mem_path (htree : Caches.HasTree s.params.toHeader layer tree)
    (hleaf : leaf < 2 ^ s.params.treeHeight) {height count : Nat}
    (h : height + count ≤ s.params.treeHeight) (hp : p ∈ path layer tree leaf height count) :
    p.InKey s := by
  obtain ⟨z, hz, rfl⟩ := List.mem_map.mp hp
  have hlast := (List.mem_range'_1.mp hz).2
  exact ⟨htree, by omega, Tree.shiftRight_lt hleaf (by omega)⟩

theorem inKey_of_mem_recovery (hs : s.oneTime.Valid)
    (htree : Caches.HasTree s.params.toHeader layer tree)
    (hleaf : leaf < 2 ^ s.params.treeHeight) {message : Bytes}
    (hp : p ∈ recovery s layer tree leaf message) : p.InKey s := by
  rcases List.mem_append.mp hp with hp | hp
  · refine inKey_of_mem_chainSteps htree hleaf (fun chain => ?_) hp
    have hdigit := OneTime.digit_lt hs message chain
    omega
  · rcases List.mem_append.mp hp with hp | hp
    · exact inKey_of_mem_pairs htree hleaf hp
    · exact inKey_of_mem_path htree hleaf (Nat.zero_add _).le hp

end

end Position

/-! ### Records that visit positions -/

/-- The address of a call. The digest of a message has none. -/
def HashCall.address? : HashCall → Option Address
  | .message .. => none
  | .step a _ | .pair a _ _ => some a

namespace Traced

variable {α β : Type} {x : Traced α} {f : α → Traced β} {ps qs : List Position}

/-- The calls are made at these positions, in this order. -/
def Visits (x : Traced α) (ps : List Position) : Prop :=
  x.calls.filterMap HashCall.address? = ps.map Position.address

theorem visits_pure (v : α) : (pure v : Traced α).Visits [] :=
  rfl

theorem Visits.bind (h : x.Visits ps) (hf : (f x.value).Visits qs) :
    (x >>= f).Visits (ps ++ qs) := by
  rw [Visits, calls_bind, List.filterMap_append, h, hf, List.map_append]

theorem Visits.bind_pure (h : x.Visits ps) (g : α → β) :
    (x >>= fun v => (pure (g v) : Traced β)).Visits ps := by
  have hbind := h.bind (f := fun v => (pure (g v) : Traced β)) (visits_pure _)
  rwa [List.append_nil] at hbind

theorem visits_each {g : α → List Position} (h : ∀ x, (f x).Visits (g x)) (l : List α) :
    (each f l).Visits (l.flatMap g) := by
  induction l with
  | nil => exact visits_pure []
  | cons x rest ih => exact (h x).bind (ih.bind_pure _)

/-- The calls are made at positions with a property. -/
def VisitsOnly (x : Traced α) (P : Position → Prop) : Prop :=
  ∃ ps, x.Visits ps ∧ ∀ p ∈ ps, P p

section

variable {P Q : Position → Prop}

theorem visitsOnly_pure (v : α) : (pure v : Traced α).VisitsOnly P :=
  ⟨[], visits_pure v, fun _ hp => absurd hp List.not_mem_nil⟩

theorem VisitsOnly.bind (h : x.VisitsOnly P) (hf : (f x.value).VisitsOnly P) :
    (x >>= f).VisitsOnly P := by
  obtain ⟨ps, hps, hall⟩ := h
  obtain ⟨qs, hqs, hall'⟩ := hf
  exact ⟨ps ++ qs, hps.bind hqs, fun p hp =>
    (List.mem_append.mp hp).elim (hall p) (hall' p)⟩

theorem VisitsOnly.bind_pure (h : x.VisitsOnly P) (g : α → β) :
    (x >>= fun v => (pure (g v) : Traced β)).VisitsOnly P :=
  h.bind (visitsOnly_pure _)

theorem VisitsOnly.mono (h : x.VisitsOnly P) (hPQ : ∀ p, P p → Q p) : x.VisitsOnly Q := by
  obtain ⟨ps, hps, hall⟩ := h
  exact ⟨ps, hps, fun p hp => hPQ p (hall p hp)⟩

end

/-- The calls are made at positions of a key. -/
def StaysIn (x : Traced α) (s : Setting) : Prop :=
  ∃ ps, x.Visits ps ∧ ∀ p ∈ ps, p.InKey s

variable {s : Setting}

theorem staysIn_pure (v : α) : (pure v : Traced α).StaysIn s :=
  visitsOnly_pure v

theorem StaysIn.bind (h : x.StaysIn s) (hf : (f x.value).StaysIn s) : (x >>= f).StaysIn s :=
  VisitsOnly.bind h hf

theorem StaysIn.bind_pure (h : x.StaysIn s) (g : α → β) :
    (x >>= fun v => (pure (g v) : Traced β)).StaysIn s :=
  VisitsOnly.bind_pure h g

end Traced

theorem visits_advanceTraced (s : Setting) (publicSeed : Bytes) (p : Position) (node : Bytes) :
    (s.advanceTraced publicSeed p.address node).Visits [p] :=
  rfl

theorem visits_joinTraced (s : Setting) (publicSeed : Bytes) (p : Position)
    (left right : Bytes) : (s.joinTraced publicSeed p.address left right).Visits [p] :=
  rfl

section

variable (s : Setting) (publicSeed : Bytes) (layer tree leaf : Nat)

/-! ### Chains, L-trees and paths -/

theorem visits_walkTraced (chain count start : Nat) (x : Bytes) :
    (walkTraced s publicSeed ((Address.oneTime layer tree leaf).setChain (UInt32.ofNat chain))
      count start x).Visits (Position.steps layer tree leaf chain start count) := by
  induction count generalizing start x with
  | zero => exact Traced.visits_pure x
  | succ count ih =>
    have hstep := visits_advanceTraced s publicSeed (.step layer tree leaf chain start) x
    rw [walkTraced, Position.steps, List.range'_succ, List.map_cons]
    exact hstep.bind (ih (start + 1) _)

theorem visits_levelTraced (level i : Nat) (nodes : List Bytes) :
    (LTree.levelTraced s publicSeed
        ((Address.ltree layer tree leaf).setLevel (UInt32.ofNat level)) i nodes).Visits
      ((List.range' i (nodes.length / 2)).map (Position.pair layer tree leaf level)) := by
  fun_induction LTree.levelTraced s publicSeed
    ((Address.ltree layer tree leaf).setLevel (UInt32.ofNat level)) i nodes with
  | case1 i left right rest ih =>
    have hpair := visits_joinTraced s publicSeed (.pair layer tree leaf level i) left right
    have hcount : (left :: right :: rest).length / 2 = rest.length / 2 + 1 := by
      simp only [List.length_cons]
      omega
    rw [hcount, List.range'_succ, List.map_cons]
    exact hpair.bind (ih.bind_pure _)
  | case2 i rest hrest =>
    -- at most one node is left
    match rest, hrest with
    | [], _ => exact Traced.visits_pure _
    | [last], _ =>
      have hnone : [last].length / 2 = 0 := by simp
      rw [hnone]
      exact Traced.visits_pure _
    | left :: right :: rest, hrest => exact absurd rfl (hrest left right rest)

theorem visits_reduceTraced (level : Nat) (nodes : List Bytes) :
    (LTree.reduceTraced s publicSeed (.ltree layer tree leaf) level nodes).Visits
      (Position.pairs layer tree leaf nodes.length level) := by
  fun_induction LTree.reduceNodes s publicSeed (.ltree layer tree leaf) level nodes with
  | case1 level nodes hle =>
    rw [LTree.reduceTraced, Position.pairs, if_pos hle, if_pos hle]
    exact Traced.visits_pure nodes
  | case2 level nodes hlt ih =>
    rw [LTree.length_joinNodes] at ih
    rw [LTree.reduceTraced, Position.pairs, if_neg hlt, if_neg hlt, List.range_eq_range']
    refine (visits_levelTraced s publicSeed layer tree leaf level 0 nodes).bind ?_
    rw [LTree.value_levelTraced]
    exact ih

theorem visits_climbTraced (height : Nat) (node : Bytes) (siblings : List Bytes) :
    (climbTraced s publicSeed layer tree leaf height node siblings).Visits
      (Position.path layer tree leaf height siblings.length) := by
  induction siblings generalizing height node with
  | nil => exact Traced.visits_pure node
  | cons sibling rest ih =>
    rw [List.length_cons, Position.path, List.range'_succ, List.map_cons, climbTraced]
    -- the parent has one address on whichever side the sibling is
    split_ifs
    · exact (visits_joinTraced s publicSeed (.node layer tree height _) node sibling).bind
        (ih (height + 1) _)
    · exact (visits_joinTraced s publicSeed (.node layer tree height _) sibling node).bind
        (ih (height + 1) _)

/-- **The root that belongs to a signature** takes the rest of the chains, the L-tree and the
path. -/
theorem visits_rootTraced (ots auth message : Bytes) :
    (rootTraced s publicSeed layer tree leaf ots auth message).Visits
      (Position.recovery s layer tree leaf message) := by
  -- chains, then the L-tree over their ends, then the path to the root
  have hchains : (OneTime.recoverTraced s publicSeed layer tree leaf message
      (OneTime.nodesOf s ots)).Visits (Position.chainSteps s layer tree leaf
        (OneTime.digit s message)
        (fun chain => s.oneTime.w - 1 - OneTime.digit s message chain)) :=
    Traced.visits_each (fun chain => visits_walkTraced s publicSeed layer tree leaf chain _ _ _) _
  have hpairs := visits_reduceTraced s publicSeed layer tree leaf 0
    (OneTime.recoverTraced s publicSeed layer tree leaf message (OneTime.nodesOf s ots)).value
  rw [OneTime.value_recoverTraced, length_recoveredNodes] at hpairs
  have hpath := visits_climbTraced s publicSeed layer tree leaf 0
    (recoveredLeaf s publicSeed layer tree leaf ots message)
    (Bytes.pieces s.n s.params.treeHeight auth)
  rw [Bytes.length_pieces] at hpath
  unfold rootTraced
  refine hchains.bind ?_
  rw [OneTime.value_recoverTraced]
  refine hpairs.bind ?_
  rw [LTree.value_reduceTraced]
  exact hpath

end

theorem staysIn_rootTraced {s : Setting} (hs : s.oneTime.Valid) {layer tree leaf : Nat}
    (htree : Caches.HasTree s.params.toHeader layer tree)
    (hleaf : leaf < 2 ^ s.params.treeHeight) (publicSeed ots auth message : Bytes) :
    (rootTraced s publicSeed layer tree leaf ots auth message).StaysIn s :=
  ⟨_, visits_rootTraced .., fun _ => Position.inKey_of_mem_recovery hs htree hleaf⟩

end Hypertree
