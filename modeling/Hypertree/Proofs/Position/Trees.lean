import Hypertree.Proofs.Position.Visits

/-!
# The hash calls of a tree

`Tree.nodeTraced` and `Tree.signTraced` record what a tree calls for a node and for a signature,
with a cache or without; with seeds and caches of the right sizes they are the records of
`Tree.node` and `Tree.sign` (`Tree.node_eq_value`, `Tree.sign_eq_value`). Without a cache the calls
for a node are those for its subtree. Nodes found in a cache save calls and add none
(`Tree.visits_nodeTraced`), so all calls of a tree are made at its own positions.
-/

namespace Hypertree

section

variable (s : Setting) (layer tree leaf : Nat)

/-- Chains of a leaf, each walked a number of steps from its secret start. -/
def OneTime.chainsTraced (s : Setting) (seeds : Seeds) (layer tree leaf : Nat)
    (count : Nat → Nat) : Traced (List Bytes) :=
  (List.range s.oneTime.chains) |> Traced.each fun chain =>
    walkTraced s seeds.publicSeed
      ((Address.oneTime layer tree leaf).setChain (UInt32.ofNat chain)) (count chain) 0
      (secretNode s seeds (.oneTime layer tree leaf) leaf chain)

theorem OneTime.visits_chainsTraced (seeds : Seeds) (count : Nat → Nat) :
    (chainsTraced s seeds layer tree leaf count).Visits
      (Position.chainSteps s layer tree leaf (fun _ => 0) count) :=
  Traced.visits_each
    (fun chain => visits_walkTraced s seeds.publicSeed layer tree leaf chain _ _ _) _

@[simp]
theorem OneTime.value_chainsTraced (seeds : Seeds) (count : Nat → Nat) :
    (chainsTraced s seeds layer tree leaf count).value
      = (List.range s.oneTime.chains).map fun chain =>
          chainNode s seeds (.oneTime layer tree leaf) leaf chain (count chain) := by
  simp only [chainsTraced, Traced.value_each, value_walkTraced]
  rfl

@[simp]
theorem OneTime.length_value_chainsTraced (seeds : Seeds) (count : Nat → Nat) :
    (chainsTraced s seeds layer tree leaf count).value.length = s.oneTime.chains := by
  rw [value_chainsTraced, List.length_map, List.length_range]

end

/-! ### Records -/

namespace Tree

/-- Recorded `leafNode`. -/
def leafTraced (t : Tree) (leaf : Nat) : Traced Bytes := do
  let ends ← OneTime.chainsTraced t.setting t.seeds t.layer t.index leaf
    fun _ => t.setting.oneTime.w - 1
  let compressed ← LTree.reduceTraced t.setting t.seeds.publicSeed (.ltree t.layer t.index leaf) 0
    ends
  return compressed.headD []

/-- The cache after a computed node was offered. -/
def offered (t : Tree) (height index : Nat) (node : Bytes) (cache : Option NodeCache) :
    Option NodeCache :=
  (t.offer height index (.ok node) cache).2

/-- Recorded `node`, for seeds and caches of the right sizes. -/
def nodeTraced (t : Tree) : (height index : Nat) → Option NodeCache →
    Traced (Bytes × Option NodeCache)
  | height, index, cache =>
    match cache.bind (·.get? height index) with
    | some kept => return (kept, cache)
    | none =>
      match height with
      | 0 => do
        let node ← t.leafTraced index
        return (node, t.offered 0 index node cache)
      | height + 1 => do
        let left ← nodeTraced t height (2 * index) cache
        let right ← nodeTraced t height (2 * index + 1) left.2
        let node ← t.setting.joinTraced t.seeds.publicSeed
          (.hashTree t.layer t.index height index) left.1 right.1
        return (node, t.offered (height + 1) index node right.2)

/-- Recorded `root`. -/
def treeTraced (t : Tree) (cache : Option NodeCache) : Traced (Bytes × Option NodeCache) :=
  t.nodeTraced t.height 0 cache

/-- Recorded `siblings`. -/
def siblingsTraced (t : Tree) (leaf : Nat) : (count height : Nat) → Option NodeCache →
    Traced (List Bytes × Option NodeCache)
  | 0, _, cache => return ([], cache)
  | count + 1, height, cache => do
    let sibling ← t.nodeTraced height ((leaf >>> height) ^^^ 1) cache
    let rest ← siblingsTraced t leaf count (height + 1) sibling.2
    return (sibling.1 :: rest.1, rest.2)

/-- Recorded `sign`. -/
def signTraced (t : Tree) (leaf : Nat) (message : Bytes) (cache : Option NodeCache) :
    Traced ((Bytes × Bytes) × Option NodeCache) := do
  let ots ← OneTime.chainsTraced t.setting t.seeds t.layer t.index leaf
    (OneTime.digit t.setting message)
  let path ← t.siblingsTraced leaf t.height 0 cache
  return ((ots.flatten, path.1.flatten), path.2)

/-- Recorded `signedRoot`. -/
def signedRootTraced (t : Tree) (leaf : Nat) (ots auth message : Bytes)
    (cache : Option NodeCache) : Traced (Bytes × Option NodeCache) :=
  match cache.bind (·.get? t.height 0) with
  | some root => return (root, cache)
  | none => do
    let root ← rootTraced t.setting t.seeds.publicSeed t.layer t.index leaf ots auth message
    return (root, t.offered t.height 0 root cache)

variable {t : Tree}

@[simp]
theorem value_leafTraced (leaf : Nat) : (t.leafTraced leaf).value = t.leafNode leaf := by
  simp only [leafTraced, Traced.value_bind, OneTime.value_chainsTraced, LTree.value_reduceTraced,
    Traced.value_pure]
  rfl

theorem visits_leafTraced (leaf : Nat) :
    (t.leafTraced leaf).Visits (Position.leafPositions t.setting t.layer t.index leaf) := by
  have hends := OneTime.visits_chainsTraced t.setting t.layer t.index leaf t.seeds
    fun _ => t.setting.oneTime.w - 1
  refine hends.bind (Traced.Visits.bind_pure ?_ _)
  have hpairs := visits_reduceTraced t.setting t.seeds.publicSeed t.layer t.index leaf 0
    (OneTime.chainsTraced t.setting t.seeds t.layer t.index leaf
      fun _ => t.setting.oneTime.w - 1).value
  rwa [OneTime.length_value_chainsTraced] at hpairs

/-! ### Nodes -/

/-- Nodes of the right size, as a property of those in a cache. -/
abbrev Sized (t : Tree) (cache : Option NodeCache) : Prop :=
  ∀ c ∈ cache, t.Holds t.IsSized c

theorem sized_of_node_eq (h : t.setting.Fits t.seeds) {z i : Nat} (hnode : t.HasNode z i)
    {cache cache' : Option NodeCache} (hc : t.Sized cache) {x : Bytes}
    (hx : t.node z i cache = (.ok x, cache')) : x.length = t.setting.n ∧ t.Sized cache' := by
  obtain ⟨y, cache₁, hy, hlength, hfill⟩ := node_holds t.hereditary_isSized h hnode hc
  obtain ⟨hvalue, rfl⟩ := Prod.mk.inj (hx.symm.trans hy)
  obtain rfl := Except.ok.inj hvalue
  exact ⟨hlength, hfill.holds hc⟩

/-- **The record of a node** is that of `node`. -/
theorem node_eq_value (h : t.setting.Fits t.seeds) {z i : Nat} (hnode : t.HasNode z i)
    {cache : Option NodeCache} (hc : t.Sized cache) :
    t.node z i cache
        = (.ok (t.nodeTraced z i cache).value.1, (t.nodeTraced z i cache).value.2) := by
  induction z generalizing i cache with
  | zero =>
    rw [node, nodeTraced]
    cases hget : cache.bind (·.get? 0 i) with
    | some kept => rfl
    | none =>
      have hleaf : i < 2 ^ t.height := by simpa using hnode.2
      simp only [leaf_eq h hleaf, Traced.value_bind, value_leafTraced]
      rfl
  | succ z ih =>
    rw [node, nodeTraced]
    cases hget : cache.bind (·.get? (z + 1) i) with
    | some kept => rfl
    | none =>
      -- the left half leaves only nodes of the right size in the cache of the right half
      have hleft := ih hnode.left hc
      obtain ⟨hlength, hc₁⟩ := sized_of_node_eq h hnode.left hc hleft
      have hright := ih hnode.right hc₁
      obtain ⟨hlength', hc₂⟩ := sized_of_node_eq h hnode.right hc₁ hright
      have hparent : t.parent z i (.ok (t.nodeTraced z (2 * i) cache).value.1) (.ok
          (t.nodeTraced z (2 * i + 1) (t.nodeTraced z (2 * i) cache).value.2).value.1) = .ok _ :=
        Setting.hashPair_eq hlength hlength' ..
      simp only [hleft, hright, hparent]
      rfl

/-- With a correct cache, the recorded root is the root. -/
theorem value_treeTraced (h : t.setting.Fits t.seeds) {cache : Option NodeCache}
    (hc : ∀ c ∈ cache, t.Correct c) : (t.treeTraced cache).value.1 = t.rootValue := by
  have hsized : t.Sized cache := by
    intro c hmem z i x hnode hget
    rw [hc c hmem z i x hnode hget]
    exact length_nodeValue z i
  obtain ⟨cache', hroot, -⟩ := root_eq h hc
  have hvalue := node_eq_value h ⟨le_rfl, Nat.two_pow_pos _⟩ hsized
  exact Except.ok.inj (Prod.mk.inj (hvalue.symm.trans hroot)).1

/-- **The calls for a node** are among those for its subtree, and without a cache they are all of
them. -/
theorem visits_nodeTraced (z i : Nat) (cache : Option NodeCache) :
    ∃ ps, (t.nodeTraced z i cache).Visits ps ∧
      ps.Sublist (Position.subtree t.setting t.layer t.index z i) ∧
      (cache = none → ps = Position.subtree t.setting t.layer t.index z i ∧
        (t.nodeTraced z i cache).value.2 = none) := by
  -- a node that is found takes no calls; else the halves are visited in order, then the pair
  induction z generalizing i cache with
  | zero =>
    rw [nodeTraced]
    cases hget : cache.bind (·.get? 0 i) with
    | some kept =>
      refine ⟨[], Traced.visits_pure _, List.nil_sublist _, ?_⟩
      rintro rfl
      cases hget
    | none =>
      refine ⟨_, (visits_leafTraced i).bind_pure _, List.Sublist.refl _, ?_⟩
      rintro rfl
      exact ⟨rfl, rfl⟩
  | succ z ih =>
    rw [nodeTraced]
    cases hget : cache.bind (·.get? (z + 1) i) with
    | some kept =>
      refine ⟨[], Traced.visits_pure _, List.nil_sublist _, ?_⟩
      rintro rfl
      cases hget
    | none =>
      obtain ⟨ps, hps, hsub, hnone⟩ := ih (2 * i) cache
      obtain ⟨qs, hqs, hsub', hnone'⟩ := ih (2 * i + 1) (t.nodeTraced z (2 * i) cache).value.2
      have hjoin := visits_joinTraced t.setting t.seeds.publicSeed (.node t.layer t.index z i)
        (t.nodeTraced z (2 * i) cache).value.1
        (t.nodeTraced z (2 * i + 1) (t.nodeTraced z (2 * i) cache).value.2).value.1
      refine ⟨_, hps.bind (hqs.bind (hjoin.bind_pure _)),
        hsub.append (hsub'.append (List.Sublist.refl _)), ?_⟩
      rintro rfl
      -- without a cache nothing is found, so no position is left out
      obtain ⟨rfl, hcache⟩ := hnone rfl
      obtain ⟨rfl, hcache'⟩ := hnone' hcache
      refine ⟨rfl, ?_⟩
      simp only [Traced.value_bind, Traced.value_pure, hcache']
      rfl

/-! ### Signatures -/

section

variable (h : t.setting.Fits t.seeds) {leaf : Nat} (hleaf : leaf < 2 ^ t.height)

include h hleaf

theorem siblings_eq_value (count : Nat) : ∀ (z : Nat) (cache : Option NodeCache),
    z + count ≤ t.height → t.Sized cache →
    t.siblings leaf count z cache = (.ok (t.siblingsTraced leaf count z cache).value.1,
      (t.siblingsTraced leaf count z cache).value.2) := by
  induction count with
  | zero => exact fun z cache _ _ => rfl
  | succ count ih =>
    intro z cache hz hc
    have hsibling : t.HasNode z ((leaf >>> z) ^^^ 1) := hasNode_sibling hleaf (by omega)
    have hnode := node_eq_value h hsibling hc
    have hc₁ := (sized_of_node_eq h hsibling hc hnode).2
    have hrest := ih (z + 1) _ (by omega) hc₁
    simp only [siblings, hnode, hrest]
    rfl

/-- **The record of a signature** is that of `sign`. -/
theorem sign_eq_value {message : Bytes} (hm : message.length = t.setting.n)
    {cache : Option NodeCache} (hc : t.Sized cache) :
    t.sign leaf message cache = (.ok (t.signTraced leaf message cache).value.1,
      (t.signTraced leaf message cache).value.2) := by
  have hsiblings := siblings_eq_value h hleaf t.height 0 cache (Nat.zero_add _).le hc
  simp only [sign, OneTime.sign_eq (h.supports hleaf) h.oneTime t.layer t.index hm, authPath,
    hsiblings, signTraced, Traced.value_bind, OneTime.value_chainsTraced, Traced.value_pure]
  rfl

/-- The parts of a recorded signature have the right sizes, and its cache was filled. -/
theorem signTraced_spec {message : Bytes} (hm : message.length = t.setting.n)
    {cache : Option NodeCache} (hc : t.Sized cache) :
    FitsTree t.setting leaf (t.signTraced leaf message cache).value.1.1
        (t.signTraced leaf message cache).value.1.2 ∧
      t.Fills t.IsSized cache (t.signTraced leaf message cache).value.2 := by
  obtain ⟨path, cache', hsign, hpath, hfill⟩ := sign_holds t.hereditary_isSized h hleaf hm hc
  obtain ⟨hparts, hcache⟩ := Prod.mk.inj (hsign.symm.trans (sign_eq_value h hleaf hm hc))
  rw [← hcache, ← Except.ok.inj hparts]
  exact ⟨fitsTree_sign t.hereditary_isSized hleaf message hpath, hfill⟩

omit hleaf in
theorem signedRoot_eq_value {ots auth message : Bytes} (hm : message.length = t.setting.n)
    (hfits : FitsTree t.setting leaf ots auth) (cache : Option NodeCache) :
    t.signedRoot leaf ots auth message cache
      = (.ok (t.signedRootTraced leaf ots auth message cache).value.1,
        (t.signedRootTraced leaf ots auth message cache).value.2) := by
  unfold signedRoot signedRootTraced
  cases cache.bind (·.get? t.height 0) with
  | some root => rfl
  | none =>
    simp only [rootFromSignature_eq h.oneTime _ _ _ _ _ _ hm, if_pos hfits, Traced.value_bind,
      value_rootTraced, Traced.value_pure]
    rfl

omit h hleaf in
/-- The root of a recorded signature has the size of a digest, and its cache was filled. -/
theorem signedRootTraced_spec {ots auth : Bytes} (message : Bytes)
    (hfits : FitsTree t.setting leaf ots auth) {cache : Option NodeCache} (hc : t.Sized cache) :
    (t.signedRootTraced leaf ots auth message cache).value.1.length = t.setting.n ∧
      t.Fills t.IsSized cache (t.signedRootTraced leaf ots auth message cache).value.2 := by
  have hroot : t.HasNode t.height 0 := ⟨le_rfl, Nat.two_pow_pos _⟩
  unfold signedRootTraced
  cases hget : cache.bind (·.get? t.height 0) with
  | some kept => exact ⟨holds_of_bind hroot hc hget, .refl _⟩
  | none =>
    have hlength : (signatureRoot t.setting t.seeds.publicSeed t.layer t.index leaf ots auth
        message).length = t.setting.n := length_signatureRoot hfits.2.2
    simp only [Traced.value_bind, value_rootTraced, Traced.value_pure]
    exact ⟨hlength, Relation.ReflTransGen.single ⟨_, _, _, hroot, hlength, rfl⟩⟩

end

/-! ### Calls at positions of the key -/

section

variable (htree : Caches.HasTree t.setting.params.toHeader t.layer t.index) {leaf : Nat}

include htree

theorem staysIn_nodeTraced {z i : Nat} (hnode : t.HasNode z i) (cache : Option NodeCache) :
    (t.nodeTraced z i cache).StaysIn t.setting := by
  obtain ⟨ps, hps, hsub, -⟩ := t.visits_nodeTraced z i cache
  exact ⟨ps, hps, fun p hp =>
    Position.inKey_of_mem_subtree htree hnode.1 hnode.2 (hsub.subset hp)⟩

theorem staysIn_treeTraced (cache : Option NodeCache) :
    (t.treeTraced cache).StaysIn t.setting :=
  staysIn_nodeTraced htree ⟨le_rfl, Nat.two_pow_pos _⟩ cache

variable (hleaf : leaf < 2 ^ t.height)

include hleaf

theorem staysIn_siblingsTraced (count : Nat) : ∀ (z : Nat) (cache : Option NodeCache),
    z + count ≤ t.height → (t.siblingsTraced leaf count z cache).StaysIn t.setting := by
  induction count with
  | zero => exact fun z cache _ => Traced.staysIn_pure _
  | succ count ih =>
    intro z cache hz
    have hsibling : t.HasNode z ((leaf >>> z) ^^^ 1) := hasNode_sibling hleaf (by omega)
    exact (staysIn_nodeTraced htree hsibling cache).bind
      ((ih (z + 1) _ (by omega)).bind_pure _)

theorem staysIn_signTraced (hs : t.setting.oneTime.Valid) (message : Bytes)
    (cache : Option NodeCache) : (t.signTraced leaf message cache).StaysIn t.setting := by
  have hots : (OneTime.chainsTraced t.setting t.seeds t.layer t.index leaf
      (OneTime.digit t.setting message)).StaysIn t.setting := by
    refine ⟨_, OneTime.visits_chainsTraced .., fun p hp => ?_⟩
    refine Position.inKey_of_mem_chainSteps htree hleaf (fun chain => ?_) hp
    have hdigit := OneTime.digit_lt hs message chain
    omega
  exact hots.bind
    ((staysIn_siblingsTraced htree hleaf t.height 0 cache (Nat.zero_add _).le).bind_pure _)

theorem staysIn_signedRootTraced (hs : t.setting.oneTime.Valid) (ots auth message : Bytes)
    (cache : Option NodeCache) :
    (t.signedRootTraced leaf ots auth message cache).StaysIn t.setting := by
  unfold signedRootTraced
  cases cache.bind (·.get? t.height 0) with
  | some root => exact Traced.staysIn_pure _
  | none =>
    exact (staysIn_rootTraced hs htree hleaf t.seeds.publicSeed ots auth message).bind_pure _

end

end Tree

end Hypertree
