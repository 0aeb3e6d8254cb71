import Hypertree.Merkle.NodeCache
import Hypertree.Proofs.PairMap

/-!
# What caches hold

Each operation on a cache is described by the nodes that can be looked up afterwards
(`get?_offer`, `get?_shake`), and each operation on the caches of a key by the tree caches
(`tree?_insertTree`, `tree?_clean`). A cache is known by its cursor and by what is found in it
(`NodeCache.ext_get?`), so two different nodes may be offered in either order (`offer_comm`).

`Caches.All` says that every tree cache has a property. It holds of no caches, stays when a tree
cache with the property is put in, and survives cleaning if moving a cursor keeps it. The invariants
of a key's caches are instances: the nodes have places in their trees (`Caches.InRange`), and they
have the values that belong there.
-/

namespace Hypertree

/-! ### One tree -/

namespace NodeCache

@[simp]
theorem get?_empty (cursor height index : Nat) : (empty cursor).get? height index = none := rfl

theorem ext_nodes {c c' : NodeCache} (hnodes : c.nodes.entries = c'.nodes.entries)
    (hcursor : c.cursor = c'.cursor) : c = c' := by
  obtain ⟨nodes, cursor⟩ := c
  obtain ⟨nodes', cursor'⟩ := c'
  obtain rfl : cursor = cursor' := hcursor
  obtain rfl : nodes = nodes' := PairMap.ext_entries hnodes
  rfl

/-- Caches with one cursor and the same nodes are equal. -/
theorem ext_get? {c c' : NodeCache} (hcursor : c.cursor = c'.cursor)
    (h : ∀ z i, c.get? z i = c'.get? z i) : c = c' :=
  ext_nodes (congrArg PairMap.entries (PairMap.ext_get? fun key => h key.1 key.2)) hcursor

/-- An offer adds at most the offered node, and only where there was none. -/
theorem get?_offer (c : NodeCache) (policy : CachePolicy) (treeHeight z i : Nat) (x : Bytes)
    (z' i' : Nat) :
    (c.offer policy treeHeight z i x).2.get? z' i'
      = if policy.keeps treeHeight c.cursor z i ∧ z' = z ∧ i' = i
        then some ((c.get? z i).getD x) else c.get? z' i' := by
  rw [offer]
  by_cases hk : policy.keeps treeHeight c.cursor z i
  · rw [if_pos hk]
    show (c.nodes.insertNew (z, i) x).get? (z', i') = _
    rw [PairMap.get?_insertNew]
    simp [hk, get?]
  · rw [if_neg hk]
    simp [hk]

/-- What is found after an offer was found before, or is the offered node. -/
theorem of_get?_offer {c : NodeCache} {policy : CachePolicy} {treeHeight z i z' i' : Nat}
    {x x' : Bytes} (h : (c.offer policy treeHeight z i x).2.get? z' i' = some x') :
    c.get? z' i' = some x' ∨ z' = z ∧ i' = i ∧ x' = x := by
  rw [get?_offer] at h
  split_ifs at h with hkey
  · obtain ⟨-, rfl, rfl⟩ := hkey
    have hvalue := Option.some.inj h
    -- an entry that is there is kept, so only a new one has the offered value
    cases hold : c.get? z' i' with
    | none =>
      rw [hold, Option.getD_none] at hvalue
      exact Or.inr ⟨rfl, rfl, hvalue.symm⟩
    | some old =>
      rw [hold, Option.getD_some] at hvalue
      exact Or.inl (congrArg some hvalue)
  · exact Or.inl h

theorem cursor_offer (c : NodeCache) (policy : CachePolicy) (treeHeight z i : Nat) (x : Bytes) :
    (c.offer policy treeHeight z i x).2.cursor = c.cursor := by
  rw [offer]
  split_ifs <;> rfl

/-- Two different nodes may be offered in either order. -/
theorem offer_comm (c : NodeCache) (policy : CachePolicy) (treeHeight : Nat) {z i z' i' : Nat}
    (hne : ¬ (z' = z ∧ i' = i)) (x x' : Bytes) :
    ((c.offer policy treeHeight z i x).2.offer policy treeHeight z' i' x').2
      = ((c.offer policy treeHeight z' i' x').2.offer policy treeHeight z i x).2 := by
  have hne' : ¬ (z = z' ∧ i = i') := fun h => hne ⟨h.1.symm, h.2.symm⟩
  apply ext_get?
  · simp only [cursor_offer]
  · intro w j
    simp only [get?_offer, cursor_offer, if_neg fun h => hne (And.right h),
      if_neg fun h => hne' (And.right h)]
    -- no place is that of both
    by_cases hplace : w = z ∧ j = i
    · obtain ⟨rfl, rfl⟩ := hplace
      simp only [if_neg fun h => hne' (And.right h)]
    · simp only [if_neg fun h => hplace (And.right h)]

/-- Moving the cursor drops the nodes that the policy does not keep there. -/
theorem get?_shake (c : NodeCache) (policy : CachePolicy) (treeHeight cursor z i : Nat) :
    (c.shake policy treeHeight cursor).2.get? z i
      = if policy.keeps treeHeight cursor z i then c.get? z i else none :=
  PairMap.get?_filter ..

/-- What is found after moving the cursor was found before, and the policy keeps it there. -/
theorem of_get?_shake {c : NodeCache} {policy : CachePolicy} {treeHeight cursor z i : Nat}
    {x : Bytes} (h : (c.shake policy treeHeight cursor).2.get? z i = some x) :
    policy.keeps treeHeight cursor z i ∧ c.get? z i = some x := by
  rwa [get?_shake, Option.ite_none_right_eq_some] at h

/-- Every node has a place in a tree of height `treeHeight`, and `n` bytes. -/
def InRange (n treeHeight : Nat) (c : NodeCache) : Prop :=
  ∀ z i x, c.get? z i = some x → z ≤ treeHeight ∧ i < 2 ^ (treeHeight - z) ∧ x.length = n

theorem inRange_empty (n treeHeight cursor : Nat) : (empty cursor).InRange n treeHeight :=
  fun _ _ _ h => nomatch h

theorem InRange.offer {n treeHeight : Nat} {c : NodeCache} (hc : c.InRange n treeHeight)
    (policy : CachePolicy) {z i : Nat} {x : Bytes} (hz : z ≤ treeHeight)
    (hi : i < 2 ^ (treeHeight - z)) (hx : x.length = n) :
    (c.offer policy treeHeight z i x).2.InRange n treeHeight := by
  intro z' i' x' h
  rcases of_get?_offer h with hold | ⟨rfl, rfl, rfl⟩
  · exact hc z' i' x' hold
  · exact ⟨hz, hi, hx⟩

theorem InRange.shake {n treeHeight : Nat} {c : NodeCache} (hc : c.InRange n treeHeight)
    (policy : CachePolicy) (height cursor : Nat) :
    (c.shake policy height cursor).2.InRange n treeHeight :=
  fun z i x h => hc z i x (of_get?_shake h).2

end NodeCache

/-! ### All trees of a key -/

namespace Caches

@[simp]
theorem tree?_empty (layer tree : Nat) : empty.tree? layer tree = none := rfl

theorem tree?_insertTree (c : Caches) (layer tree layer' tree' : Nat) (cache : NodeCache) :
    (c.insertTree layer tree cache).tree? layer' tree'
      = if layer' = layer ∧ tree' = tree then some cache else c.tree? layer' tree' := by
  rw [tree?, insertTree, PairMap.get?_insert, tree?]
  simp

/-- Cleaning keeps the trees that the next index uses, with their cursors moved on. -/
theorem tree?_clean (c : Caches) (policy : CachePolicy) (treeHeight layers next max : Nat)
    (layer tree : Nat) :
    (c.clean policy treeHeight layers next max).2.tree? layer tree
      = if next < max ∧ isActive treeHeight layers next layer tree then
          (c.tree? layer tree).map fun cache =>
            (cache.shake policy treeHeight (leafIndex next layer treeHeight)).2
        else none := by
  unfold clean
  by_cases hmax : max ≤ next
  · rw [if_pos hmax, if_neg fun h => absurd h.1 (Nat.not_lt.mpr hmax)]
    rfl
  · -- each tree is cleaned on its own
    rw [if_neg hmax, tree?, PairMap.get?_filterMap, tree?]
    by_cases hactive : isActive treeHeight layers next layer tree
    · rw [if_pos ⟨Nat.lt_of_not_le hmax, hactive⟩]
      simp [cleanTree, hactive, Option.map_eq_bind]
    · rw [if_neg fun h => hactive h.2]
      simp [cleanTree, hactive]

/-- Every tree cache has a property, which may depend on layer and tree. -/
def All (P : Nat → Nat → NodeCache → Prop) (c : Caches) : Prop :=
  ∀ layer tree cache, c.tree? layer tree = some cache → P layer tree cache

section

variable {P : Nat → Nat → NodeCache → Prop}

theorem all_empty : empty.All P :=
  fun _ _ _ h => nomatch h

theorem All.insertTree {c : Caches} (hc : c.All P) {layer tree : Nat} {cache : NodeCache}
    (h : P layer tree cache) : (c.insertTree layer tree cache).All P := by
  intro layer' tree' cache' h'
  rw [tree?_insertTree] at h'
  split_ifs at h' with hkey
  · obtain ⟨rfl, rfl⟩ := hkey
    exact Option.some.inj h' ▸ h
  · exact hc _ _ _ h'

theorem All.clean {c : Caches} (hc : c.All P) (policy : CachePolicy) {treeHeight : Nat}
    (layers next max : Nat) (hshake : ∀ layer tree cache cursor, P layer tree cache →
      P layer tree (cache.shake policy treeHeight cursor).2) :
    (c.clean policy treeHeight layers next max).2.All P := by
  intro layer tree cache' h
  rw [tree?_clean] at h
  split_ifs at h
  obtain ⟨cache, hcache, rfl⟩ := Option.map_eq_some_iff.mp h
  exact hshake _ _ _ _ (hc _ _ _ hcache)

/-- The cache taken for a tree has the property if an empty one has it. -/
theorem All.treeOrEmpty {c : Caches} (hc : c.All P) {layer tree cursor : Nat}
    (hempty : P layer tree (.empty cursor)) : P layer tree (c.treeOrEmpty layer tree cursor) := by
  unfold Caches.treeOrEmpty
  cases h : c.tree? layer tree with
  | none => exact hempty
  | some cache => exact hc _ _ _ h

end

/-- The place of a tree in a key. -/
def HasTree (header : Header) (layer tree : Nat) : Prop :=
  layer < header.layers ∧ tree < 2 ^ (header.height - (layer + 1) * header.treeHeight)

/-- Every tree cache has a place in the key, and every node one in its tree. -/
def InRange (header : Header) : Caches → Prop :=
  All fun layer tree cache =>
    HasTree header layer tree ∧ cache.InRange header.n header.treeHeight

end Caches

end Hypertree
