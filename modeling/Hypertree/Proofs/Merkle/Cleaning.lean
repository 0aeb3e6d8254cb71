import Hypertree.Proofs.Merkle.Eviction

/-!
# What a cleaning pass leaves

`Caches.Pass` is all that can be said of a cleaning pass over the caches of a key, and
`Caches.pass_clean` says it of every pass, whatever the caches hold: those of skipped indices, of
signatures out of order, or those read from bytes. A cache from which the cursor has been moved
holds only nodes that the policy keeps there (`NodeCache.Kept`), and in the caches that are left
every tree is one in use, with its cursor in place (`Caches.Tidy`). These two carry the rest. Tidy
caches stay as they are when they are cleaned (`Tidy.clean_eq`). The nodes that the automatic policy
keeps are in the upper levels or on two paths, which bounds their number in each tree
(`Kept.size_auto_le`), and there is at most one tree in each layer (`Tidy.treeCount_le`).
-/

namespace Hypertree

variable {policy : CachePolicy} {treeHeight layers next max : Nat}

/-! ### The cache of one tree -/

namespace NodeCache

/-- Every node is one that the policy keeps at the cursor. -/
def Kept (policy : CachePolicy) (treeHeight : Nat) (c : NodeCache) : Prop :=
  ∀ z i x, c.get? z i = some x → policy.keeps treeHeight c.cursor z i

/-- Every node has a place in a tree of height `treeHeight`. -/
def InPlace (treeHeight : Nat) (c : NodeCache) : Prop :=
  ∀ z i x, c.get? z i = some x → z ≤ treeHeight ∧ i < 2 ^ (treeHeight - z)

theorem shake_count (c : NodeCache) (policy : CachePolicy) (treeHeight cursor : Nat) :
    (c.shake policy treeHeight cursor).1 + (c.shake policy treeHeight cursor).2.size = c.size :=
  Nat.sub_add_cancel (PairMap.size_filter_le _ _)

theorem kept_shake (c : NodeCache) (policy : CachePolicy) (treeHeight cursor : Nat) :
    (c.shake policy treeHeight cursor).2.Kept policy treeHeight :=
  fun _ _ _ h => (of_get?_shake h).1

theorem Kept.of_mem {c : NodeCache} (hc : c.Kept policy treeHeight) {e : (Nat × Nat) × Bytes}
    (he : e ∈ c.nodes.entries) : policy.keeps treeHeight c.cursor e.1.1 e.1.2 :=
  hc _ _ _ (PairMap.get?_eq_some_iff.mpr he)

/-- A cache from which the policy drops nothing stays as it is. -/
theorem Kept.shake_eq {c : NodeCache} (hc : c.Kept policy treeHeight) :
    c.shake policy treeHeight c.cursor = (0, c) := by
  rw [shake, PairMap.filter_eq_self fun _ => hc.of_mem, Nat.sub_self]

/-- Without a policy that keeps nodes there are none. -/
theorem Kept.size_disabled {c : NodeCache} (hc : c.Kept .disabled treeHeight) : c.size = 0 := by
  refine List.length_eq_zero_iff.mpr (List.eq_nil_iff_forall_not_mem.mpr fun e he => ?_)
  have hkeeps := hc.of_mem he
  rw [CachePolicy.keeps, Bool.and_false] at hkeeps
  exact Bool.false_ne_true hkeeps

/-- The places of the levels from the root down to the one `levels` below it. -/
def upperPlaces (treeHeight levels : Nat) : Finset (Nat × Nat) :=
  (Finset.range (levels + 1)).biUnion fun depth =>
    (Finset.range (2 ^ depth)).image fun i => (treeHeight - depth, i)

/-- The siblings on the paths of the cursor and the leaf after it, below the levels kept whole. -/
def lowerPlaces (treeHeight levels cursor : Nat) : Finset (Nat × Nat) :=
  (Finset.range (treeHeight - levels)).biUnion fun z =>
    {(z, (cursor >>> z) ^^^ 1), (z, ((cursor + 1) >>> z) ^^^ 1)}

theorem card_upperPlaces_le (treeHeight levels : Nat) :
    (upperPlaces treeHeight levels).card ≤ 2 ^ (levels + 1) - 1 := by
  calc (upperPlaces treeHeight levels).card
      ≤ ∑ depth ∈ Finset.range (levels + 1),
          ((Finset.range (2 ^ depth)).image fun i => (treeHeight - depth, i)).card :=
        Finset.card_biUnion_le
    _ ≤ ∑ depth ∈ Finset.range (levels + 1), 2 ^ depth :=
        Finset.sum_le_sum fun depth _ => Finset.card_image_le.trans (Finset.card_range _).le
    _ = 2 ^ (levels + 1) - 1 := by rw [Nat.geomSum_eq le_rfl, Nat.div_one]

theorem card_lowerPlaces_le (treeHeight levels cursor : Nat) :
    (lowerPlaces treeHeight levels cursor).card ≤ 2 * (treeHeight - levels) := by
  have hle : (lowerPlaces treeHeight levels cursor).card
      ≤ (Finset.range (treeHeight - levels)).card * 2 :=
    Finset.card_biUnion_le_card_mul _ _ _ fun _ _ => Finset.card_le_two
  rwa [Finset.card_range, mul_comm] at hle

/-- A node that the automatic policy keeps has a place in the upper levels, or is on one of the two
paths. -/
theorem mem_places {levels cursor z i : Nat} (hz : z ≤ treeHeight) (hi : i < 2 ^ (treeHeight - z))
    (h : (CachePolicy.auto levels).keeps treeHeight cursor z i) :
    (z, i) ∈ upperPlaces treeHeight levels ∪ lowerPlaces treeHeight levels cursor := by
  rw [CachePolicy.keeps, Bool.and_eq_true] at h
  have hplace := h.2
  simp only [Bool.or_eq_true, decide_eq_true_iff, beq_iff_eq] at hplace
  rw [Finset.mem_union]
  by_cases hupper : treeHeight - z ≤ levels
  · -- counted by its depth below the root, as the levels kept whole are
    refine Or.inl (Finset.mem_biUnion.mpr ⟨treeHeight - z, ?_, ?_⟩)
    · exact Finset.mem_range.mpr (Nat.lt_succ_of_le hupper)
    · refine Finset.mem_image.mpr ⟨i, Finset.mem_range.mpr hi, ?_⟩
      rw [Nat.sub_sub_self hz]
  · refine Or.inr (Finset.mem_biUnion.mpr ⟨z, Finset.mem_range.mpr (by omega), ?_⟩)
    rw [or_assoc, or_iff_right hupper] at hplace
    rcases hplace with rfl | rfl
    · exact Finset.mem_insert_self _ _
    · exact Finset.mem_insert_of_mem (Finset.mem_singleton_self _)

theorem Kept.size_auto_le {levels : Nat} {c : NodeCache} (hc : c.Kept (.auto levels) treeHeight)
    (hplace : c.InPlace treeHeight) :
    c.size ≤ 2 ^ (levels + 1) - 1 + 2 * (treeHeight - levels) := by
  calc c.size
      ≤ (upperPlaces treeHeight levels ∪ lowerPlaces treeHeight levels c.cursor).card := by
        refine PairMap.size_le_card fun e he => ?_
        obtain ⟨hz, hi⟩ := hplace _ _ _ (PairMap.get?_eq_some_iff.mpr he)
        exact mem_places hz hi (hc.of_mem he)
    _ ≤ (upperPlaces treeHeight levels).card + (lowerPlaces treeHeight levels c.cursor).card :=
        Finset.card_union_le _ _
    _ ≤ 2 ^ (levels + 1) - 1 + 2 * (treeHeight - levels) :=
        Nat.add_le_add (card_upperPlaces_le ..) (card_lowerPlaces_le ..)

theorem InPlace.shake {c : NodeCache} (hc : c.InPlace treeHeight) (policy : CachePolicy)
    (height cursor : Nat) : (c.shake policy height cursor).2.InPlace treeHeight :=
  fun z i x h => hc z i x (of_get?_shake h).2

end NodeCache

/-! ### The caches of a key -/

namespace Caches

/-- Every node has a place in a tree of height `treeHeight`. -/
def InPlace (treeHeight : Nat) : Caches → Prop :=
  All fun _ _ cache => cache.InPlace treeHeight

/-- Every tree is the one that index `next` uses in its layer. Its cursor is the leaf that the index
uses, and its nodes are those that the policy keeps there. -/
def Tidy (policy : CachePolicy) (treeHeight layers next : Nat) : Caches → Prop :=
  All fun layer tree cache => layer < layers ∧ tree = treeIndex next layer treeHeight ∧
    cache.cursor = leafIndex next layer treeHeight ∧ cache.Kept policy treeHeight

theorem tidy_clean (c : Caches) (policy : CachePolicy) (treeHeight layers next max : Nat) :
    (c.clean policy treeHeight layers next max).2.Tidy policy treeHeight layers next := by
  intro layer tree cache' h
  rw [tree?_clean] at h
  split_ifs at h with hactive
  obtain ⟨cache, -, rfl⟩ := Option.map_eq_some_iff.mp h
  -- a tree that stays is in use, and its nodes are those that the policy keeps
  have hused := hactive.2
  rw [isActive, Bool.and_eq_true, decide_eq_true_iff, beq_iff_eq] at hused
  exact ⟨hused.1, hused.2, rfl, cache.kept_shake _ _ _⟩

/-! ### How many nodes are dropped -/

theorem cleanTree_count (policy : CachePolicy) (treeHeight layers next : Nat) (key : Nat × Nat)
    (cache : NodeCache) :
    (cleanTree policy treeHeight layers next key cache).1
      + (cleanTree policy treeHeight layers next key cache).2.elim 0 NodeCache.size
      = cache.size := by
  unfold cleanTree
  split_ifs
  · exact cache.shake_count _ _ _
  · rfl

/-- The nodes of the trees that are left, tree by tree. -/
theorem nodeCount_filterMap (trees : PairMap NodeCache)
    (f : Nat × Nat → NodeCache → Option NodeCache) :
    nodeCount ⟨trees.filterMap f⟩
      = (trees.entries.map fun e => (f e.1 e.2).elim 0 NodeCache.size).sum := by
  show (((trees.entries.filterMap fun e => (f e.1 e.2).map (e.1, ·)).map (·.2)).map
    NodeCache.size).sum = _
  -- the induction is on the entries, as each tree counts for itself
  induction trees.entries with
  | nil => rfl
  | cons e entries ih =>
    rw [List.map_cons, List.sum_cons, ← ih]
    cases hf : f e.1 e.2 with
    | none => simp [hf]
    | some cache => simp [hf]

/-- **Cleaning counts the nodes that it drops.** -/
theorem clean_count (c : Caches) (policy : CachePolicy) (treeHeight layers next max : Nat) :
    (c.clean policy treeHeight layers next max).1
      + (c.clean policy treeHeight layers next max).2.nodeCount = c.nodeCount := by
  unfold clean
  split_ifs
  · rfl
  · rw [nodeCount_filterMap, ← List.sum_map_add, nodeCount, PairMap.values, List.map_map]
    simp only [cleanTree_count, Function.comp_def]

/-! ### How many nodes are left -/

theorem Tidy.of_mem {c : Caches} (hc : c.Tidy policy treeHeight layers next)
    {e : (Nat × Nat) × NodeCache} (he : e ∈ c.trees.entries) :
    e.1.1 < layers ∧ e.1.2 = treeIndex next e.1.1 treeHeight ∧
      e.2.cursor = leafIndex next e.1.1 treeHeight ∧ e.2.Kept policy treeHeight :=
  hc _ _ _ (PairMap.get?_eq_some_iff.mpr he)

/-- There is at most one tree for each layer. -/
theorem Tidy.treeCount_le {c : Caches} (hc : c.Tidy policy treeHeight layers next) :
    c.treeCount ≤ layers := by
  have hkeys : ∀ e ∈ c.trees.entries, e.1 ∈ (Finset.range layers).image fun layer =>
      (layer, treeIndex next layer treeHeight) := by
    intro e he
    obtain ⟨hlayer, htree, -, -⟩ := hc.of_mem he
    exact Finset.mem_image.mpr ⟨e.1.1, Finset.mem_range.mpr hlayer, Prod.ext rfl htree.symm⟩
  exact (PairMap.size_le_card hkeys).trans (Finset.card_image_le.trans (Finset.card_range _).le)

/-- A bound on the nodes of each tree bounds those of all. -/
theorem Tidy.nodeCount_le {c : Caches} (hc : c.Tidy policy treeHeight layers next) {bound : Nat}
    (hbound : ∀ e ∈ c.trees.entries, e.2.size ≤ bound) : c.nodeCount ≤ layers * bound := by
  have hsum : c.nodeCount ≤ (c.trees.values.map NodeCache.size).length • bound := by
    refine List.sum_le_card_nsmul _ _ fun n hn => ?_
    obtain ⟨cache, hcache, rfl⟩ := List.mem_map.mp hn
    obtain ⟨e, he, rfl⟩ := List.mem_map.mp hcache
    exact hbound e he
  rw [List.length_map, PairMap.values, List.length_map, smul_eq_mul] at hsum
  exact hsum.trans (Nat.mul_le_mul_right _ hc.treeCount_le)

theorem Tidy.nodeCount_disabled {c : Caches} (hc : c.Tidy .disabled treeHeight layers next) :
    c.nodeCount = 0 := by
  have hle := hc.nodeCount_le fun _ he => (hc.of_mem he).2.2.2.size_disabled.le
  rwa [mul_zero, Nat.le_zero] at hle

theorem Tidy.nodeCount_auto_le {levels : Nat} {c : Caches}
    (hc : c.Tidy (.auto levels) treeHeight layers next) (hplace : c.InPlace treeHeight) :
    c.nodeCount ≤ layers * (2 ^ (levels + 1) - 1 + 2 * (treeHeight - levels)) :=
  hc.nodeCount_le fun _ he =>
    (hc.of_mem he).2.2.2.size_auto_le (hplace _ _ _ (PairMap.get?_eq_some_iff.mpr he))

/-! ### Cleaning again -/

/-- Caches that are tidy stay as they are. -/
theorem Tidy.clean_eq {c : Caches} (hc : c.Tidy policy treeHeight layers next)
    (hnext : next < max) : c.clean policy treeHeight layers next max = (0, c) := by
  -- every tree is in use and its cursor has already been moved
  have hentry : ∀ e ∈ c.trees.entries,
      cleanTree policy treeHeight layers next e.1 e.2 = (0, some e.2) := by
    intro e he
    obtain ⟨hlayer, htree, hcursor, hkept⟩ := hc.of_mem he
    have hactive : isActive treeHeight layers next e.1.1 e.1.2 := by
      rw [isActive, Bool.and_eq_true, decide_eq_true_iff, beq_iff_eq]
      exact ⟨hlayer, htree⟩
    rw [cleanTree, if_pos hactive, ← hcursor, hkept.shake_eq]
  have hkeep : c.trees.filterMap (fun key cache =>
      (cleanTree policy treeHeight layers next key cache).2) = c.trees :=
    PairMap.filterMap_eq_self fun _ he => congrArg Prod.snd (hentry _ he)
  have hnone : (c.trees.entries.map fun e =>
      (cleanTree policy treeHeight layers next e.1 e.2).1).sum = 0 := by
    refine List.sum_eq_zero fun n hn => ?_
    obtain ⟨e, he, rfl⟩ := List.mem_map.mp hn
    exact congrArg Prod.fst (hentry e he)
  rw [clean, if_neg (Nat.not_le.mpr hnext), hkeep]
  exact Prod.ext hnone rfl

/-- Without a tree there is nothing to drop. -/
theorem clean_empty (policy : CachePolicy) (treeHeight layers next max : Nat) :
    empty.clean policy treeHeight layers next max = (0, empty) := by
  unfold clean
  split_ifs <;> rfl

/-- A second pass with the same arguments drops nothing. -/
theorem clean_again (c : Caches) (policy : CachePolicy) (treeHeight layers next max : Nat) :
    (c.clean policy treeHeight layers next max).2.clean policy treeHeight layers next max
      = (0, (c.clean policy treeHeight layers next max).2) := by
  by_cases hnext : next < max
  · exact (c.tidy_clean policy treeHeight layers next max).clean_eq hnext
  · have hnone : c.clean policy treeHeight layers next max = (c.nodeCount, empty) := by
      rw [clean, if_pos (Nat.le_of_not_lt hnext)]
    rw [hnone, clean_empty]

/-- **A cleaning pass.** What it leaves of the caches `before`, and how many nodes it drops, when
the next index to be signed is `next`. -/
structure Pass (policy : CachePolicy) (treeHeight layers next max : Nat) (before : Caches)
    (evicted : Nat) (after : Caches) : Prop where
  /-- The nodes dropped are counted. -/
  evicted_eq : evicted = before.nodeCount - after.nodeCount
  nodeCount_le : after.nodeCount ≤ before.nodeCount
  /-- The nodes left are those that were there and that the policy keeps in the trees in use. -/
  node?_iff : ∀ layer tree z i x, after.node? layer tree z i = some x ↔
    before.node? layer tree z i = some x ∧ next < max ∧ layer < layers ∧
      tree = treeIndex next layer treeHeight ∧
      policy.keeps treeHeight (leafIndex next layer treeHeight) z i
  /-- No tree is added. -/
  isSome_tree? : ∀ layer tree, (after.tree? layer tree).isSome → (before.tree? layer tree).isSome
  /-- A key that is used up keeps nothing. -/
  used_up : max ≤ next → after = empty
  tidy : after.Tidy policy treeHeight layers next
  nodeCount_disabled : policy = .disabled → after.nodeCount = 0
  nodeCount_auto_le : before.InPlace treeHeight → ∀ levels, policy = .auto levels →
    after.nodeCount ≤ layers * (2 ^ (levels + 1) - 1 + 2 * (treeHeight - levels))
  /-- A second pass changes nothing. -/
  again : after.clean policy treeHeight layers next max = (0, after)

theorem InPlace.clean {c : Caches} (hc : c.InPlace treeHeight) (policy : CachePolicy)
    (layers next max : Nat) : (c.clean policy treeHeight layers next max).2.InPlace treeHeight :=
  All.clean hc policy layers next max fun _ _ _ _ h => h.shake _ _ _

/-- **Cleaning is a cleaning pass**, whatever the caches hold. -/
theorem pass_clean (c : Caches) (policy : CachePolicy) (treeHeight layers next max : Nat) :
    Pass policy treeHeight layers next max c (c.clean policy treeHeight layers next max).1
      (c.clean policy treeHeight layers next max).2 := by
  have hcount := c.clean_count policy treeHeight layers next max
  have htidy := c.tidy_clean policy treeHeight layers next max
  refine ⟨by omega, by omega, ?_, ?_, ?_, htidy, ?_, ?_, c.clean_again ..⟩
  · intro layer tree z i x
    rw [node?_clean, Option.ite_none_right_eq_some, isActive, Bool.and_eq_true,
      decide_eq_true_iff, beq_iff_eq, and_comm, and_assoc]
  · intro layer tree h
    rw [tree?_clean] at h
    split_ifs at h
    · rwa [Option.isSome_map] at h
    · cases h
  · intro hmax
    rw [clean, if_pos hmax]
  · rintro rfl
    exact htidy.nodeCount_disabled
  · -- the bound needs the nodes in place before, since shaking moves none
    rintro hplace levels rfl
    exact htidy.nodeCount_auto_le (hplace.clean _ _ _ _)

end Caches

end Hypertree
