import Hypertree.Proofs.Merkle.Complete
import Hypertree.Proofs.Position.Cached
import Hypertree.Proofs.Session

/-!
# The top tree under the full policy

Key generation computes the tree of the top layer and the full policy keeps it. `TopKept` is what
stays true of the key from then on: as long as an index is left, its caches have the root of the top
tree and the siblings of every leaf from the one in use on (`OnPathFrom`).

`KeyStep.topKept` says that each operation keeps this, for its own reason. Reserving an index moves
on to fewer nodes, as a later index is at the same leaf of the top tree or at a later one. Signing
puts nodes in and takes out none but by the cleaning that follows, and cleaning spares the nodes
that indices to come can use; that is a property of the index and not of the cursors, which may be
behind. A key that is read from bytes has the same nodes.

So signing under the primary digest finds the whole path of the top layer (`top_layer_kept`).
-/

namespace Hypertree

/-! ### The nodes that are needed -/

/-- The root of a tree and the siblings on the paths of its leaves from the cursor on. -/
def OnPathFrom (height cursor z i : Nat) : Prop :=
  z = height ∧ i = 0 ∨
    z < height ∧ ∃ leaf, cursor ≤ leaf ∧ leaf < 2 ^ height ∧ i = (leaf >>> z) ^^^ 1

namespace OnPathFrom

variable {height cursor cursor' z i : Nat}

theorem mono (h : OnPathFrom height cursor' z i) (hle : cursor ≤ cursor') :
    OnPathFrom height cursor z i :=
  h.imp_right fun ⟨hz, leaf, hcursor, hleaf⟩ => ⟨hz, leaf, hle.trans hcursor, hleaf⟩

/-- They have places in the tree. -/
theorem inPlace (h : OnPathFrom height cursor z i) : z ≤ height ∧ i < 2 ^ (height - z) := by
  rcases h with ⟨rfl, rfl⟩ | ⟨hz, leaf, -, hleaf, rfl⟩
  · exact ⟨le_rfl, Nat.two_pow_pos _⟩
  · exact ⟨hz.le, xor_one_lt hz (Tree.shiftRight_lt hleaf hz.le)⟩

/-- The full policy keeps them. -/
theorem isReachable (h : OnPathFrom height cursor z i) (hcursor : cursor < 2 ^ height) :
    isReachable height cursor z i = true := by
  obtain ⟨-, hi⟩ := h.inPlace
  unfold Hypertree.isReachable
  rw [Bool.or_eq_true, beq_iff_eq, decide_eq_true_iff]
  rcases h with ⟨rfl, -⟩ | ⟨hz, leaf, hle, hleaf, heq⟩
  · exact Or.inl rfl
  · exact Or.inr ((exists_leaf_iff hcursor hz hi).mp ⟨leaf, ⟨hle, hleaf⟩, heq⟩)

end OnPathFrom

/-- Later indices are at the same leaf of the top tree or at a later one. -/
theorem leafIndex_top_mono {height layers index index' : Nat} (hh : height ≤ 32)
    (hlayers : 0 < layers) (hle : index ≤ index') (hindex : index' < 2 ^ (layers * height)) :
    leafIndex index (layers - 1) height ≤ leafIndex index' (layers - 1) height := by
  have hlt := lt_of_le_of_lt hle hindex
  refine ((exists_index_iff hh (Nat.sub_lt hlayers one_pos) hlt).mp
    ⟨index', hle, hindex, ?_, rfl⟩).1
  rw [treeIndex_top hindex hlayers, treeIndex_top hlt hlayers]

namespace Caches

/-- Signing keeps every node that is there. -/
theorem Refills.isSome {V : NodeProperty} {s : Setting} {seeds : Seeds} {index : Nat}
    {caches caches' : Caches} (h : Refills V s seeds index caches caches') {layer tree z i : Nat}
    (hnode : (caches.node? layer tree z i).isSome) : (caches'.node? layer tree z i).isSome := by
  obtain ⟨layer', cache, -, hfill, rfl⟩ := h
  unfold node? at hnode ⊢
  rw [tree?_insertTree]
  split_ifs with hplace
  · obtain ⟨rfl, rfl⟩ := hplace
    -- an offer leaves the nodes that are there
    refine hfill.preserves (P := fun c => (c.get? z i).isSome) ?_ ?_ cache rfl
    · intro c z' i' x _ _ hget
      rw [NodeCache.get?_offer]
      split_ifs
      · rfl
      · exact hget
    · rintro c ⟨⟩
      obtain ⟨x, hx⟩ := Option.isSome_iff_exists.mp hnode
      obtain ⟨c, hcache, hget⟩ := Option.bind_eq_some_iff.mp hx
      rw [treeOrEmpty, hcache, Option.getD_some, hget]
      rfl
  · exact hnode

theorem isSome_of_refills {V : NodeProperty} {s : Setting} {seeds : Seeds} {index : Nat}
    {caches caches' : Caches} (h : Relation.ReflTransGen (Refills V s seeds index) caches caches')
    {layer tree z i : Nat} (hnode : (caches.node? layer tree z i).isSome) :
    (caches'.node? layer tree z i).isSome := by
  induction h with
  | refl => exact hnode
  | tail _ hstep ih => exact hstep.isSome ih

/-- Moving the cursors changes no node. -/
theorem node?_atIndex (c : Caches) (treeHeight index layer tree z i : Nat) :
    (c.atIndex treeHeight index).node? layer tree z i = c.node? layer tree z i := by
  rw [node?, tree?_atIndex, Option.bind_map, node?]
  rfl

end Caches

namespace Engine

variable {e : Engine} {seeds : Seeds} {key key' : PrivateKey}

/-! ### Operations on a key -/

/-- One operation on a key by an engine: an index is reserved, a message is signed at the next index
or at a committed one, whatever that is, nodes are evicted, or the key is written and read back. -/
inductive KeyStep (e : Engine) : PrivateKey → PrivateKey → Prop where
  | reserve {key key' : PrivateKey} {r : Reservation} :
      key.reserve = .ok (r, key') → KeyStep e key key'
  | sign (key : PrivateKey) (message : Bytes) (selector : Selector) :
      KeyStep e key (e.sign key message selector).2
  | signCommitted (key : PrivateKey) (committed : CommittedIndex) (message : Bytes)
      (selector : Selector) : KeyStep e key (e.signCommitted key committed message selector).2
  | evict (key : PrivateKey) : KeyStep e key (e.evict key).2
  | reload {key key' : PrivateKey} :
      PrivateKey.ofBytes key.toBytes = .ok key' → KeyStep e key key'

/-- The leaf of the top tree that an index uses. -/
def topLeaf (e : Engine) (index : Nat) : Nat :=
  leafIndex index (e.params.layers - 1) e.params.treeHeight

theorem maxSignatures_eq_two_pow (e : Engine) :
    e.params.maxSignatures = 2 ^ (e.params.layers * e.params.treeHeight) := by
  rw [e.header_valid.layers_mul_treeHeight]
  rfl

theorem topLeaf_mono (e : Engine) {index index' : Nat} (hle : index ≤ index')
    (hindex : index' < e.params.maxSignatures) : e.topLeaf index ≤ e.topLeaf index' := by
  rw [e.maxSignatures_eq_two_pow] at hindex
  exact leafIndex_top_mono (le_trans e.header_valid.treeHeight_le (by decide))
    e.header_valid.layers_pos hle hindex

theorem treeIndex_top_eq_zero (e : Engine) {index : Nat} (hindex : index < e.params.maxSignatures) :
    treeIndex index (e.params.layers - 1) e.params.treeHeight = 0 := by
  rw [e.maxSignatures_eq_two_pow] at hindex
  exact treeIndex_top hindex e.header_valid.layers_pos

/-- A sound key with the given seeds that has the nodes of the top tree which its indices to come
need. -/
structure TopKept (e : Engine) (seeds : Seeds) (key : PrivateKey) : Prop where
  sound : key.SoundFor e
  seeds_eq : key.seeds = seeds
  isSome : key.index < e.params.maxSignatures → ∀ z i,
    OnPathFrom e.params.treeHeight (e.topLeaf key.index) z i →
      (key.caches.node? (e.params.layers - 1) 0 z i).isSome

namespace TopKept

/-- A key with the nodes of another one and more. -/
theorem update (h : e.TopKept seeds key) {caches : Caches}
    (hsound : { key with caches }.SoundFor e)
    (hkeep : ∀ z i, (key.caches.node? (e.params.layers - 1) 0 z i).isSome →
      (caches.node? (e.params.layers - 1) 0 z i).isSome) : e.TopKept seeds { key with caches } where
  sound := hsound
  seeds_eq := h.seeds_eq
  isSome hindex z i hneeded := hkeep z i (h.isSome hindex z i hneeded)

/-- The next index needs no more nodes than the one that is taken. -/
theorem advance (h : e.TopKept seeds key) (hindex : key.index < key.header.maxSignatures) :
    e.TopKept seeds { key with index := key.index + 1 } where
  sound := h.sound.advance hindex
  seeds_eq := h.seeds_eq
  isSome hnext z i hneeded := by
    have hlt : key.index < e.params.maxSignatures := lt_trans (Nat.lt_succ_self _) hnext
    exact h.isSome hlt z i (hneeded.mono (e.topLeaf_mono (Nat.le_succ _) hnext))

/-- Cleaning spares the nodes that are needed. -/
theorem evict (h : e.TopKept seeds key) (hfull : e.params.cache = .full) :
    e.TopKept seeds (e.evict key).2 where
  sound := h.sound.evict
  seeds_eq := h.seeds_eq
  isSome hindex z i hneeded := by
    have hpos := e.header_valid.layers_pos
    have hlt : key.index < e.params.maxSignatures := hindex
    -- the top layer has one tree, which holds every index, so it stays in use
    have hactive : Caches.isActive e.params.treeHeight e.params.layers key.index
        (e.params.layers - 1) 0 = true := by
      rw [Caches.isActive, e.treeIndex_top_eq_zero hlt]
      simp [Nat.sub_lt hpos one_pos]
    show ((key.caches.clean e.params.cache e.params.treeHeight e.params.layers key.index
      e.params.maxSignatures).2.node? (e.params.layers - 1) 0 z i).isSome
    rw [hfull, Caches.node?_clean_full _ hlt,
      if_pos ⟨hactive, hneeded.isReachable (leafIndex_lt ..)⟩]
    exact h.isSome hlt z i hneeded

theorem signCommitted (h : e.TopKept seeds key) (hfull : e.params.cache = .full)
    (committed : CommittedIndex) (message : Bytes) (selector : Selector) :
    e.TopKept seeds (e.signCommitted key committed message selector).2 := by
  cases hp : e.prepare key committed selector with
  | error err =>
    rw [Engine.signCommitted, hp]
    exact h
  | ok p =>
    obtain ⟨signature, caches, -, hout, hrefills, hrange, hcorrect⟩ :=
      signCommitted_refills h.sound.toMadeFor Tree.hereditary_isValue h.sound.caches message hp
    rw [hout]
    cases selector with
    | primary =>
      -- offers to a cache take no node away, and the eviction keeps the path of the next index
      have hfilled : e.TopKept seeds { key with caches } :=
        h.update (h.sound.update h.sound.wellFormed.index_le hrange hcorrect)
          fun _ _ => Caches.isSome_of_refills hrefills
      exact hfilled.evict hfull
    | backup => exact h

theorem sign (h : e.TopKept seeds key) (hfull : e.params.cache = .full) (message : Bytes)
    (selector : Selector) : e.TopKept seeds (e.sign key message selector).2 := by
  rw [sign_eq h.sound.toMadeFor]
  split_ifs with hindex
  · exact (h.advance hindex).signCommitted hfull _ message selector
  · exact h

/-- They have their values. -/
theorem node?_eq (h : e.TopKept seeds key) (hindex : key.index < e.params.maxSignatures) {z i : Nat}
    (hneeded : OnPathFrom e.params.treeHeight (e.topLeaf key.index) z i) :
    key.caches.node? (e.params.layers - 1) 0 z i
      = some ((e.primary.topTree seeds).nodeValue z i) := by
  obtain ⟨x, hx⟩ := Option.isSome_iff_exists.mp (h.isSome hindex z i hneeded)
  obtain ⟨cache, hcache, hget⟩ := Option.bind_eq_some_iff.mp hx
  have hvalue := h.sound.caches _ _ cache hcache z i x hneeded.inPlace hget
  rw [h.seeds_eq] at hvalue
  rw [hx, hvalue]
  rfl

/-- The siblings of the leaf in use in the top layer are among them. -/
theorem hasSiblings (h : e.TopKept seeds key) (hindex : key.index < e.params.maxSignatures) :
    key.caches.HasSiblings e.primary key.index (e.params.layers - 1) := by
  intro z hz
  have htree : treeIndex key.index (e.params.layers - 1) e.primary.params.treeHeight = 0 :=
    e.treeIndex_top_eq_zero hindex
  rw [htree]
  exact h.isSome hindex z _ (Or.inr ⟨hz, _, le_rfl, leafIndex_lt .., rfl⟩)

end TopKept

/-- **Every operation keeps the nodes of the top tree that are needed.** -/
theorem KeyStep.topKept (hstep : e.KeyStep key key') (hfull : e.params.cache = .full)
    (h : e.TopKept seeds key) : e.TopKept seeds key' := by
  cases hstep with
  | reserve hreserve =>
    obtain ⟨hindex, -, rfl⟩ := PrivateKey.reserve_eq_ok_iff.mp hreserve
    exact h.advance hindex
  | sign message selector => exact h.sign hfull message selector
  | signCommitted committed message selector => exact h.signCommitted hfull committed message selector
  | evict => exact h.evict hfull
  -- reading the key back moves the cursors, but no node
  | reload hkey =>
    rw [PrivateKey.ofBytes_toBytes h.sound.wellFormed] at hkey
    obtain rfl := Except.ok.inj hkey
    refine h.update h.sound.atIndex fun z i hnode => ?_
    rwa [Caches.node?_atIndex]

/-- So does any number of them. -/
theorem topKept_of_run (hfull : e.params.cache = .full) (h : e.TopKept seeds key)
    (hrun : Relation.ReflTransGen e.KeyStep key key') : e.TopKept seeds key' := by
  induction hrun with
  | refl => exact h
  | tail _ hstep ih => exact hstep.topKept hfull ih

/-! ### From key generation on -/

section

variable {publicSeed secretSeed secretPrf : Bytes} {nonces : NonceTable}

/-- A key that was generated has the whole top tree. -/
theorem topKept_of_generateFromSeeds (hfull : e.params.cache = .full) {publicKey : PublicKey}
    (hgen : e.generateFromSeeds publicSeed secretSeed secretPrf nonces = .ok (key, publicKey)) :
    e.TopKept ⟨publicSeed, secretSeed, nonces⟩ key ∧ key.index = 0 := by
  have hfits := seedsFit_of_generateFromSeeds hgen
  obtain ⟨c, hroot, hcorrect, hrange⟩ := topTree_root_cached hfits
  rw [generateFromSeeds_eq_freshKey hfits hroot] at hgen
  obtain ⟨rfl, -⟩ := Prod.mk.inj (Except.ok.inj hgen)
  refine ⟨⟨soundFor_freshKey hfits hcorrect hrange, rfl, fun _ z i hneeded => ?_⟩, rfl⟩
  -- under the full policy the build leaves every node of the tree in the cache
  have hcomplete := Tree.root_complete (t := e.primary.topTree ⟨publicSeed, secretSeed, nonces⟩)
    hfull hroot hneeded.inPlace
  have htop : (e.freshKey publicSeed secretSeed secretPrf nonces c).caches.tree?
      (e.params.layers - 1) 0 = some c := by
    rw [freshKey, Caches.tree?_insertTree, if_pos ⟨rfl, rfl⟩]
  rw [Caches.node?, htop]
  exact hcomplete

/-- **The full policy loses no node of the top tree.** Whatever is done to a generated key by an
engine that caches everything, in any order: as long as an index is left, the caches have the root of
the top tree and every sibling of its leaves from the one in use on, with the values that they had
when the key was generated. So signing at the next index under the primary digest succeeds, and all
that it computes in the top layer are steps of the chains of the leaf in use: no node of its path,
and no leaf or pair of an L-tree below one. The calls are those of a recorded signer, which returns
the same signature and leaves the same key with the same caches. -/
theorem top_layer_kept (hfull : e.params.cache = .full) {key₀ : PrivateKey} {publicKey : PublicKey}
    (hgen : e.generateFromSeeds publicSeed secretSeed secretPrf nonces = .ok (key₀, publicKey))
    (hrun : Relation.ReflTransGen e.KeyStep key₀ key)
    (hindex : key.index < e.params.maxSignatures) :
    (∀ z i, OnPathFrom e.params.treeHeight (e.topLeaf key.index) z i →
      ∃ x, key₀.caches.node? (e.params.layers - 1) 0 z i = some x ∧
        key.caches.node? (e.params.layers - 1) 0 z i = some x ∧
        x = (e.primary.topTree ⟨publicSeed, secretSeed, nonces⟩).nodeValue z i) ∧
    ∀ message, ∃ signature ps, (e.sign key message .primary).1 = .ok signature ∧
      (e.signTraced { key with index := key.index + 1 } ⟨key.index, key.tag⟩ message
        .primary).value = e.sign key message .primary ∧
      (e.signTraced { key with index := key.index + 1 } ⟨key.index, key.tag⟩ message
        .primary).Visits ps ∧
      ∀ p ∈ ps, p.layer = e.params.layers - 1 →
        ∃ chain number, p = .step (e.params.layers - 1) 0 (e.topLeaf key.index) chain number := by
  obtain ⟨hkept₀, hzero⟩ := topKept_of_generateFromSeeds hfull hgen
  have hkept := topKept_of_run hfull hkept₀ hrun
  constructor
  · -- the path of a later index needs no node that the path of an earlier one does not
    intro z i hneeded
    have hle : key₀.index ≤ key.index := hzero ▸ Nat.zero_le _
    exact ⟨_, hkept₀.node?_eq (lt_of_le_of_lt hle hindex)
      (hneeded.mono (e.topLeaf_mono hle hindex)), hkept.node?_eq hindex hneeded, rfl⟩
  · intro message
    have hlt : key.index < key.header.maxSignatures := by
      rw [hkept.sound.maxSignatures]
      exact hindex
    have hprimary : e.setting? .primary = some e.primary := rfl
    have hout := sign_outcome hkept.sound message .primary
    rw [if_pos hlt, e.reference?_eq hprimary rfl] at hout
    -- signing takes the index and signs with it, as the record does
    have hrecord := sign_eq hkept.sound.toMadeFor message .primary
    rw [if_pos hlt, signCommitted_eq_value (hkept.sound.toMadeFor.advance hlt)] at hrecord
    -- every sibling is found, so what is left in the top layer is the one-time signature
    have hspared : (e.signTraced { key with index := key.index + 1 } ⟨key.index, key.tag⟩ message
        .primary).VisitsOnly (Position.Spared e.primary key.index (e.params.layers - 1)) :=
      spared_signTraced (hkept.hasSiblings hindex) message
    obtain ⟨ps, hps, hspared⟩ := hspared
    refine ⟨_, ps, toOption_eq_some_iff.mp hout, hrecord.symm, hps, fun p hp htop => ?_⟩
    obtain ⟨chain, number, rfl⟩ := hspared p hp htop
    have htree : treeIndex key.index (e.params.layers - 1) e.primary.params.treeHeight = 0 :=
      e.treeIndex_top_eq_zero hindex
    rw [htree]
    exact ⟨chain, number, rfl⟩

end

/-- An engine for keys of four signatures in two layers that caches everything. -/
def smallFull : Engine :=
  ⟨.standard, { height := 2, layers := 2, cache := .full }, rfl⟩

/-- Once an index has been dropped, the nodes evicted, the key read back and a message signed, the
caches still have the root of the top tree and the sibling of its second leaf. -/
theorem top_layer_kept_small :
    ∃ (key₀ key : PrivateKey) (root sibling : Bytes),
      smallFull.generateFromSeeds (Bytes.zeros 32) (Bytes.zeros 32) (Bytes.zeros 32)
        ⟨Array.replicate 2 ⟨0, 0⟩⟩ = .ok (key₀, key₀.publicKey) ∧
      Relation.ReflTransGen smallFull.KeyStep key₀ key ∧ key.index = 2 ∧
      key.caches.node? 1 0 1 0 = some root ∧ key.caches.node? 1 0 0 0 = some sibling ∧
      (smallFull.sign key [] .primary).1.isOk := by
  have hfits : smallFull.SeedsFit (Bytes.zeros 32) (Bytes.zeros 32) (Bytes.zeros 32)
      ⟨Array.replicate 2 ⟨0, 0⟩⟩ := ⟨rfl, rfl, rfl, rfl⟩
  have hfull : smallFull.params.cache = .full := rfl
  obtain ⟨key₀, hgen, hzero, -, -, hsound, -⟩ := generateFromSeeds_eq hfits
  have hmax : key₀.header.maxSignatures = 4 := hsound.maxSignatures
  -- one operation after another
  set dropped : PrivateKey := { key₀ with index := key₀.index + 1 }
  have hdropped : smallFull.KeyStep key₀ dropped :=
    .reserve (PrivateKey.reserve_eq_ok_iff.mpr ⟨by omega, rfl, rfl⟩)
  set evicted := (smallFull.evict dropped).2
  have hevicted : evicted.SoundFor smallFull := (hsound.advance (by omega)).evict
  set reread : PrivateKey := { evicted with
    caches := evicted.caches.atIndex evicted.header.treeHeight evicted.index }
  have hreread : smallFull.KeyStep evicted reread :=
    .reload (PrivateKey.ofBytes_toBytes hevicted.wellFormed)
  set signed := (smallFull.sign reread [] .primary).2
  have hrun : Relation.ReflTransGen smallFull.KeyStep key₀ signed :=
    .tail (.tail (.tail (.single hdropped) (.evict dropped)) hreread) (.sign reread [] .primary)
  have hindex : signed.index = 2 := by
    have hone : reread.index = 1 := congrArg (· + 1) hzero
    have hlt : reread.index < reread.header.maxSignatures := by
      rw [hone]
      exact hmax ▸ (by decide : 1 < 4)
    rw [show signed = (smallFull.sign reread [] .primary).2 from rfl,
      sign_eq hevicted.atIndex.toMadeFor, if_pos hlt, (signCommitted_index ..).1, hone]
  have hleft : signed.index < smallFull.params.maxSignatures := hindex ▸ (by decide : 2 < 4)
  obtain ⟨hfound, hsigns⟩ := top_layer_kept hfull hgen hrun hleft
  have hneeded : ∀ {z i}, OnPathFrom 1 1 z i →
      ∃ x, signed.caches.node? 1 0 z i = some x := by
    intro z i hneeded
    have hleaf : smallFull.topLeaf signed.index = 1 := by
      rw [hindex]
      rfl
    obtain ⟨x, -, hx, -⟩ := hfound z i (hleaf ▸ hneeded)
    exact ⟨x, hx⟩
  obtain ⟨root, hroot⟩ := hneeded (Or.inl ⟨rfl, rfl⟩)
  obtain ⟨sibling, hsibling⟩ := hneeded
    (Or.inr ⟨by decide, 1, le_rfl, by decide, rfl⟩ : OnPathFrom 1 1 0 0)
  obtain ⟨signature, -, hok, -⟩ := hsigns []
  exact ⟨key₀, signed, root, sibling, hgen, hrun, hindex, hroot, hsibling, by rw [hok]; rfl⟩

end Engine

end Hypertree
