import Hypertree.Proofs.Merkle.Eviction
import Hypertree.Proofs.Position.Engine

/-!
# What cached siblings save

Each layer of a signature calls hash functions in its own tree, and fills the cache of that tree
alone. So if the siblings of the leaf in use in some layer are in the caches when signing begins,
they are there when that layer signs, and nothing but the one-time signature is computed in it
(`spared_signLayersTraced`, `Engine.spared_signTraced`): no leaf, no pair of an L-tree, no node.
-/

namespace Hypertree

/-! ### Layers of positions -/

namespace Position

/-- The layer of a position. -/
def layer : Position → Nat
  | step layer .. => layer
  | pair layer .. => layer
  | node layer .. => layer

variable {s : Setting} {l tree leaf : Nat} {p : Position}

theorem exists_of_mem_chainSteps {start count : Nat → Nat}
    (hp : p ∈ chainSteps s l tree leaf start count) :
    ∃ chain number, p = step l tree leaf chain number := by
  obtain ⟨chain, -, hp⟩ := List.mem_flatMap.mp hp
  obtain ⟨number, -, rfl⟩ := List.mem_map.mp hp
  exact ⟨chain, number, rfl⟩

theorem layer_of_mem_chainSteps {start count : Nat → Nat}
    (hp : p ∈ chainSteps s l tree leaf start count) : p.layer = l := by
  obtain ⟨chain, number, rfl⟩ := exists_of_mem_chainSteps hp
  rfl

theorem layer_of_mem_pairs {count level : Nat} (hp : p ∈ pairs l tree leaf count level) :
    p.layer = l := by
  fun_induction pairs l tree leaf count level with
  | case1 count level hle => cases hp
  | case2 count level hlt ih =>
    rcases List.mem_append.mp hp with hp | hp
    · obtain ⟨number, -, rfl⟩ := List.mem_map.mp hp
      rfl
    · exact ih hp

theorem layer_of_mem_leafPositions (hp : p ∈ leafPositions s l tree leaf) : p.layer = l :=
  (List.mem_append.mp hp).elim layer_of_mem_chainSteps layer_of_mem_pairs

theorem layer_of_mem_subtree {height index : Nat} (hp : p ∈ subtree s l tree height index) :
    p.layer = l := by
  induction height generalizing index with
  | zero => exact layer_of_mem_leafPositions hp
  | succ height ih =>
    rcases List.mem_append.mp hp with hp | hp
    · exact ih hp
    · rcases List.mem_append.mp hp with hp | hp
      · exact ih hp
      · obtain rfl := List.mem_singleton.mp hp
        rfl

theorem layer_of_mem_recovery {message : Bytes} (hp : p ∈ recovery s l tree leaf message) :
    p.layer = l := by
  rcases List.mem_append.mp hp with hp | hp
  · exact layer_of_mem_chainSteps hp
  · rcases List.mem_append.mp hp with hp | hp
    · exact layer_of_mem_pairs hp
    · obtain ⟨z, -, rfl⟩ := List.mem_map.mp hp
      rfl

end Position

/-! ### One tree -/

namespace Tree

variable {t : Tree} {leaf : Nat} {cache : Option NodeCache}

theorem layer_nodeTraced (t : Tree) (z i : Nat) (cache : Option NodeCache) :
    (t.nodeTraced z i cache).VisitsOnly (·.layer = t.layer) := by
  obtain ⟨ps, hps, hsub, -⟩ := t.visits_nodeTraced z i cache
  exact ⟨ps, hps, fun p hp => Position.layer_of_mem_subtree (hsub.subset hp)⟩

theorem layer_siblingsTraced (t : Tree) (leaf count : Nat) : ∀ (z : Nat)
    (cache : Option NodeCache),
    (t.siblingsTraced leaf count z cache).VisitsOnly (·.layer = t.layer) := by
  induction count with
  | zero => exact fun z cache => Traced.visitsOnly_pure _
  | succ count ih =>
    intro z cache
    exact (t.layer_nodeTraced z _ cache).bind ((ih (z + 1) _).bind_pure _)

/-- A signature takes calls in its own layer. -/
theorem layer_signTraced (t : Tree) (leaf : Nat) (message : Bytes) (cache : Option NodeCache) :
    (t.signTraced leaf message cache).VisitsOnly (·.layer = t.layer) := by
  have hots : (OneTime.chainsTraced t.setting t.seeds t.layer t.index leaf
      (OneTime.digit t.setting message)).VisitsOnly (·.layer = t.layer) :=
    ⟨_, OneTime.visits_chainsTraced .., fun p hp => Position.layer_of_mem_chainSteps hp⟩
  exact hots.bind ((t.layer_siblingsTraced leaf t.height 0 cache).bind_pure _)

theorem layer_signedRootTraced (t : Tree) (leaf : Nat) (ots auth message : Bytes)
    (cache : Option NodeCache) :
    (t.signedRootTraced leaf ots auth message cache).VisitsOnly (·.layer = t.layer) := by
  have hroot : (rootTraced t.setting t.seeds.publicSeed t.layer t.index leaf ots auth
      message).VisitsOnly (·.layer = t.layer) :=
    ⟨_, visits_rootTraced .., fun p hp => Position.layer_of_mem_recovery hp⟩
  unfold signedRootTraced
  cases cache.bind (·.get? t.height 0) with
  | some root => exact Traced.visitsOnly_pure _
  | none => exact hroot.bind_pure _

/-- A node that is found takes no calls and changes no cache. -/
theorem nodeTraced_found {z i : Nat} {kept : Bytes}
    (h : cache.bind (·.get? z i) = some kept) :
    t.nodeTraced z i cache = pure (kept, cache) := by
  cases z <;> rw [nodeTraced, h]

theorem visits_siblingsTraced_found
    (hfound : ∀ z < t.height, (cache.bind (·.get? z ((leaf >>> z) ^^^ 1))).isSome) (count : Nat) :
    ∀ z, z + count ≤ t.height → (t.siblingsTraced leaf count z cache).Visits [] := by
  induction count with
  | zero => exact fun z _ => Traced.visits_pure _
  | succ count ih =>
    intro z hz
    obtain ⟨kept, hkept⟩ := Option.isSome_iff_exists.mp (hfound z (by omega))
    rw [siblingsTraced, nodeTraced_found hkept]
    exact (Traced.visits_pure _).bind ((ih (z + 1) (by omega)).bind_pure _)

/-- **With the siblings in the cache**, a signature takes steps of the chains of its leaf and no
other calls. -/
theorem visits_signTraced_found
    (hfound : ∀ z < t.height, (cache.bind (·.get? z ((leaf >>> z) ^^^ 1))).isSome)
    (message : Bytes) :
    (t.signTraced leaf message cache).Visits (Position.chainSteps t.setting t.layer t.index leaf
      (fun _ => 0) (OneTime.digit t.setting message)) := by
  have hots := OneTime.visits_chainsTraced t.setting t.layer t.index leaf t.seeds
    (OneTime.digit t.setting message)
  have hpath := visits_siblingsTraced_found hfound t.height 0 (Nat.zero_add _).le
  rw [← List.append_nil (Position.chainSteps ..)]
  exact hots.bind (hpath.bind_pure _)

end Tree

/-! ### All layers -/

namespace Caches

/-- Filling the cache of a tree changes nothing in other layers. -/
theorem node?_store {layer layer' : Nat} (h : layer' ≠ layer) (c : Caches) (tree tree' z i : Nat)
    (cache : Option NodeCache) :
    (c.store layer tree cache).node? layer' tree' z i = c.node? layer' tree' z i := by
  cases cache with
  | none => rfl
  | some cache =>
    rw [store, node?, tree?_insertTree, if_neg fun hplace => h hplace.1, node?]

/-- A node of the tree in use is found in the cache with which a layer is signed. -/
theorem inUse_found {s : Setting} {index layer z i : Nat} {c : Caches}
    (h : (c.node? layer (treeIndex index layer s.params.treeHeight) z i).isSome) :
    ((c.inUse s true index layer).bind (·.get? z i)).isSome := by
  obtain ⟨x, hx⟩ := Option.isSome_iff_exists.mp h
  obtain ⟨cache, hcache, hget⟩ := Option.bind_eq_some_iff.mp hx
  simp [inUse, treeOrEmpty, hcache, hget]

/-- The siblings of the leaf that an index uses in a layer are in the caches. -/
def HasSiblings (c : Caches) (s : Setting) (index layer : Nat) : Prop :=
  ∀ z < s.params.treeHeight, (c.node? layer (treeIndex index layer s.params.treeHeight) z
    ((s.leafAt index layer >>> z) ^^^ 1)).isSome

end Caches

/-- A position that is not in a given layer, or is a step of a chain of the leaf in use there. -/
def Position.Spared (s : Setting) (index top : Nat) (p : Position) : Prop :=
  p.layer = top → ∃ chain number,
    p = .step top (treeIndex index top s.params.treeHeight) (s.leafAt index top) chain number

/-- **Signing with the siblings of the last layer in the caches** computes nothing in that layer but
the one-time signature. -/
theorem spared_signLayersTraced (s : Setting) (seeds : Seeds) {index top : Nat} (r : Bytes)
    (count : Nat) : ∀ (layer : Nat) (message : Bytes) (caches : Caches),
      layer + count = top + 1 → caches.HasSiblings s index top →
      (signLayersTraced s seeds true index r count layer message caches).VisitsOnly
        (Position.Spared s index top) := by
  -- the induction is on the layers left, and the caches keep the siblings
  induction count with
  | zero => exact fun layer message caches _ _ => Traced.visitsOnly_pure _
  | succ count ih =>
    intro layer message caches hcount hfound
    rw [signLayersTraced]
    by_cases hlast : count = 0
    · obtain rfl : layer = top := by omega
      have hsign := Tree.visits_signTraced_found (t := s.treeAt seeds index layer)
        (fun z hz => Caches.inUse_found (hfound z hz)) message
      have hspared : ((s.treeAt seeds index layer).signTraced (s.leafAt index layer) message
          (caches.inUse s true index layer)).VisitsOnly (Position.Spared s index layer) :=
        ⟨_, hsign, fun p hp _ => Position.exists_of_mem_chainSteps hp⟩
      simp only [if_pos hlast]
      exact hspared.bind_pure _
    · have hbelow : layer ≠ top := by omega
      have hspared : ∀ p : Position, p.layer = layer → p.Spared s index top :=
        fun p hp htop => absurd (hp.symm.trans htop) hbelow
      simp only [if_neg hlast]
      refine ((Tree.layer_signTraced ..).mono hspared).bind ?_
      refine ((Tree.layer_signedRootTraced ..).mono hspared).bind ?_
      refine (ih (layer + 1) _ _ (by omega) fun z hz => ?_).bind_pure _
      rw [Caches.node?_store hbelow.symm]
      exact hfound z hz

namespace Engine

/-- **Signing under the primary digest** with the siblings of the top layer in the caches. -/
theorem spared_signTraced {e : Engine} {key : PrivateKey} {committed : CommittedIndex}
    (hfound : key.caches.HasSiblings e.primary committed.index (e.params.layers - 1))
    (message : Bytes) :
    (e.signTraced key committed message .primary).VisitsOnly
      (Position.Spared e.primary committed.index (e.params.layers - 1)) := by
  have hcount : 0 + e.params.layers = e.params.layers - 1 + 1 := by
    have hpos := e.header_valid.layers_pos
    omega
  unfold signTraced
  cases hp : e.prepare key committed .primary with
  | error err => exact Traced.visitsOnly_pure _
  | ok p =>
    obtain ⟨s, root⟩ := p
    obtain ⟨-, -, hroot⟩ := e.prepare_eq_ok_iff.mp hp
    obtain ⟨hs, -⟩ := e.signingRoot_eq_ok_iff.mp hroot
    obtain rfl := Option.some.inj hs
    -- digesting the message visits no place
    have hdigest : (e.primary.hMsgTraced (e.primary.prfIndex key.secretPrf committed.index) root
        committed.index message).VisitsOnly
          (Position.Spared e.primary committed.index (e.params.layers - 1)) :=
      ⟨[], rfl, fun _ hp => absurd hp List.not_mem_nil⟩
    exact hdigest.bind ((spared_signLayersTraced e.primary key.seeds _ e.params.layers 0 _
      key.caches hcount hfound).bind_pure _)

end Engine

end Hypertree
