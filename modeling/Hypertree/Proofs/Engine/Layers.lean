import Hypertree.Engine
import Hypertree.Proofs.Merkle.Path

/-!
# The layers of a signature

`layerSignature` is what a layer contributes to the signature at an index, computed from the seeds
alone: no cache is read, the bottom layer signs the digest of the message and every other layer the
recomputed root of the tree in use below it. `Setting.reference` puts the layers together. It is the
reference for what signing returns.

`signLayers_holds`: signing the layers always has a result, whether nodes are taken from caches or
not, and its paths and roots have every hereditary property that the nodes in the caches have. The
induction is on the layers left, and the caches pass through it by steps that each refill the one
tree in use in a layer (`Caches.Refills`), so what holds of caches and is kept by offers holds
afterwards. With correct caches every node has its value, and layers with such nodes are those of the
reference (`SignedLayers.eq_map`).
-/

namespace Hypertree

/-! ### The reference -/

namespace Setting

/-- The tree in use in a layer at an index. -/
def treeAt (s : Setting) (seeds : Seeds) (index layer : Nat) : Tree :=
  ⟨s, seeds, layer, treeIndex index layer s.params.treeHeight⟩

/-- The leaf in use in a layer at an index. -/
def leafAt (s : Setting) (index layer : Nat) : Nat :=
  leafIndex index layer s.params.treeHeight

/-- What a layer signs: the digest of the message, or the root of the tree below. -/
def layerMessage (s : Setting) (seeds : Seeds) (index : Nat) (digest : Bytes) : Nat → Bytes
  | 0 => digest
  | layer + 1 => (s.treeAt seeds index layer).rootValue

/-- The one-time signature of a layer. -/
def layerOts (s : Setting) (seeds : Seeds) (index : Nat) (digest : Bytes) (layer : Nat) : Bytes :=
  (OneTime.signatureNodes s seeds layer (treeIndex index layer s.params.treeHeight)
    (s.leafAt index layer) (s.layerMessage seeds index digest layer)).flatten

/-- The tree signature of a layer. -/
def layerSignature (s : Setting) (seeds : Seeds) (index : Nat) (r digest : Bytes) (layer : Nat) :
    TreeSignature :=
  ⟨layer, r, s.leafAt index layer, s.layerOts seeds index digest layer,
    ((s.treeAt seeds index layer).pathNodes (s.leafAt index layer)).flatten⟩

/-- **The reference signature** of a message at an index, for the key with the given seeds,
randomizer key and root. -/
def reference (s : Setting) (seeds : Seeds) (secretPrf root : Bytes) (selector : Selector)
    (index : Nat) (message : Bytes) : Signature :=
  let r := s.prfIndex secretPrf index
  let digest := s.hMsg r root index message
  ⟨selector, index, r, (List.range s.params.layers).map (s.layerSignature seeds index r digest)⟩

variable {s : Setting} {seeds : Seeds}

theorem leafAt_lt (s : Setting) (index layer : Nat) :
    s.leafAt index layer < 2 ^ s.params.treeHeight :=
  leafIndex_lt ..

/-- Above the bottom layer, a one-time key signs one message: its tree and its leaf determine the
tree whose root is signed. -/
theorem layerOts_eq_of_leafAt_eq (hh : s.params.treeHeight ≤ 32) {i j layer : Nat}
    (hlayer : layer ≠ 0)
    (htree : treeIndex i layer s.params.treeHeight = treeIndex j layer s.params.treeHeight)
    (hleaf : s.leafAt i layer = s.leafAt j layer) (digest digest' : Bytes) :
    s.layerOts seeds i digest layer = s.layerOts seeds j digest' layer := by
  obtain ⟨below, rfl⟩ := Nat.exists_eq_succ_of_ne_zero hlayer
  have hbelow : s.treeAt seeds i below = s.treeAt seeds j below := by
    unfold treeAt
    rw [treeIndex_eq hh, treeIndex_eq hh j, htree]
    unfold leafAt at hleaf
    rw [hleaf]
  rw [layerOts, layerOts, layerMessage, layerMessage, htree, hleaf, hbelow]

namespace Agrees

variable {t : Setting}

theorem layerMessage_eq (h : s.Agrees t) : s.layerMessage = t.layerMessage := by
  funext seeds index digest layer
  cases layer with
  | zero => rfl
  | succ layer =>
    simp only [layerMessage, Tree.rootValue, Tree.height, treeAt, h.treeHeight, h.nodeValue_eq]

theorem layerSignature_eq (h : s.Agrees t) : s.layerSignature = t.layerSignature := by
  funext seeds index r digest layer
  simp only [layerSignature, layerOts, leafAt, Tree.pathNodes, Tree.height, treeAt, h.treeHeight,
    h.nodeValue_eq, h.layerMessage_eq, h.signatureNodes_eq]

/-- Settings that agree, also on the number of layers, have the same reference. -/
theorem reference_eq (h : s.Agrees t) (hlayers : s.params.layers = t.params.layers) :
    s.reference = t.reference := by
  funext seeds secretPrf root selector index message
  simp only [reference, h.layerSignature_eq, h.prfIndex_eq, h.hMsg_eq, hlayers]

end Agrees

end Setting

/-! ### What signing does to caches -/

/-- A property of the nodes of all trees. -/
abbrev NodeProperty := Tree → (height index : Nat) → Bytes → Prop

namespace Caches

variable {V : NodeProperty} {s : Setting} {seeds : Seeds} {index : Nat}

/-- Every node that a cache holds of its tree has a property. -/
def Holds (V : NodeProperty) (s : Setting) (seeds : Seeds) : Caches → Prop :=
  All fun layer tree cache =>
    (Tree.mk s seeds layer tree).Holds (V ⟨s, seeds, layer, tree⟩) cache

/-- Every cache holds correct nodes of its tree. -/
def Correct (s : Setting) (seeds : Seeds) : Caches → Prop :=
  All fun layer tree cache => (Tree.mk s seeds layer tree).Correct cache

/-- The cache of the tree in use in one layer is refilled. -/
def Refills (V : NodeProperty) (s : Setting) (seeds : Seeds) (index : Nat)
    (caches caches' : Caches) : Prop :=
  ∃ layer cache, layer < s.params.layers ∧
    (s.treeAt seeds index layer).Fills (V (s.treeAt seeds index layer))
      (some (caches.treeOrEmpty layer (s.treeAt seeds index layer).index (s.leafAt index layer)))
      (some cache) ∧
    caches' = caches.insertTree layer (s.treeAt seeds index layer).index cache

/-- What offers of nodes keep, and what holds of the empty caches of the trees in use, is kept. -/
theorem Refills.all {caches caches' : Caches} {P : Nat → Nat → NodeCache → Prop}
    (hempty : ∀ layer < s.params.layers,
      P layer (s.treeAt seeds index layer).index (.empty (s.leafAt index layer)))
    (hoffer : ∀ layer < s.params.layers, ∀ c z i x, (s.treeAt seeds index layer).HasNode z i →
      V (s.treeAt seeds index layer) z i x → P layer (s.treeAt seeds index layer).index c →
      P layer (s.treeAt seeds index layer).index
        (c.offer s.params.cache s.params.treeHeight z i x).2)
    (h : Refills V s seeds index caches caches') (hc : caches.All P) : caches'.All P := by
  obtain ⟨layer, cache, hlayer, hfill, rfl⟩ := h
  apply hc.insertTree
  refine hfill.preserves (hoffer layer hlayer) ?_ cache rfl
  rintro c ⟨⟩
  exact hc.treeOrEmpty (hempty layer hlayer)

theorem Holds.refills {caches caches' : Caches} (hc : caches.Holds V s seeds)
    (h : Refills V s seeds index caches caches') : caches'.Holds V s seeds :=
  h.all (fun _ _ => Tree.holds_empty _ _ _) (fun _ _ _ _ _ _ _ hx hc => hc.offer _ hx) hc

/-- At an index of the key, the trees in use have places in it. -/
theorem hasTree_treeIndex {header : Header} (hv : header.Valid) {index layer : Nat}
    (hindex : index < header.maxSignatures) (hlayer : layer < header.layers) :
    HasTree header layer (treeIndex index layer header.treeHeight) := by
  have hmul := hv.layers_mul_treeHeight
  refine ⟨hlayer, ?_⟩
  rw [← hmul]
  apply treeIndex_lt hlayer
  rw [hmul]
  exact hindex

theorem InRange.refills {caches caches' : Caches} (hV : ∀ t : Tree, t.Hereditary (V t))
    (hv : s.params.toHeader.Valid) (hn : s.n = s.params.n)
    (hindex : index < s.params.maxSignatures) (hc : caches.InRange s.params.toHeader)
    (h : Refills V s seeds index caches caches') : caches'.InRange s.params.toHeader := by
  refine h.all ?_ ?_ hc
  · intro layer hlayer
    exact ⟨hasTree_treeIndex hv hindex hlayer, NodeCache.inRange_empty _ _ _⟩
  · intro layer _ c z i x hnode hx hcache
    have hlen : x.length = s.params.n := ((hV _).length hx).trans hn
    exact ⟨hcache.1, hcache.2.offer _ hnode.1 hnode.2 hlen⟩

end Caches

/-! ### Signing the layers -/

section

variable {V : NodeProperty} {s : Setting} {seeds : Seeds} {index : Nat}

/-- The root of a tree that has just signed is found or reached from the signature. -/
theorem Tree.signedRoot_holds {t : Tree} {V : Nat → Nat → Bytes → Prop} (hV : t.Hereditary V)
    (h : t.setting.Fits t.seeds) {leaf : Nat} (hleaf : leaf < 2 ^ t.height) {message : Bytes}
    (hm : message.length = t.setting.n) {path : List Bytes} (hpath : t.IsPath V leaf path)
    {cache : Option NodeCache} (hc : ∀ c ∈ cache, t.Holds V c) :
    ∃ root cache', t.signedRoot leaf
        (OneTime.signatureNodes t.setting t.seeds t.layer t.index leaf message).flatten
        path.flatten message cache = (.ok root, cache') ∧ V t.height 0 root ∧
      t.Fills V cache cache' := by
  have hroot : t.HasNode t.height 0 := ⟨le_rfl, Nat.two_pow_pos _⟩
  unfold signedRoot
  -- the root is in the cache, or is recovered from the signature and offered to it
  cases hget : cache.bind (·.get? t.height 0) with
  | some kept => exact ⟨kept, cache, rfl, Tree.holds_of_bind hroot hc hget, .refl _⟩
  | none =>
    simp only [rootFromSignature_eq h.oneTime _ _ _ _ _ _ hm,
      if_pos (fitsTree_sign hV hleaf message hpath)]
    exact Tree.offer_holds hroot (signatureRoot_holds hV h.oneTime hleaf message hpath) cache

/-- The cache with which a layer is signed. -/
def Caches.inUse (caches : Caches) (s : Setting) (cached : Bool) (index layer : Nat) :
    Option NodeCache :=
  if cached then
    some (caches.treeOrEmpty layer (treeIndex index layer s.params.treeHeight)
      (leafIndex index layer s.params.treeHeight))
  else none

theorem Caches.inUse_holds {caches : Caches} {cached : Bool}
    (hc : cached = true → caches.Holds V s seeds) (index layer : Nat) :
    ∀ c ∈ caches.inUse s cached index layer,
      (s.treeAt seeds index layer).Holds (V (s.treeAt seeds index layer)) c := by
  intro c hmem
  unfold inUse at hmem
  split_ifs at hmem with hcached
  · obtain rfl := Option.some.inj hmem
    exact Caches.All.treeOrEmpty (hc hcached) (Tree.holds_empty _ _ _)
  · exact nomatch hmem

/-- What storing the filled cache of a layer does, with caches or without. -/
theorem Caches.store_refills {cached : Bool} {layer : Nat} (hlayer : layer < s.params.layers)
    (caches : Caches) {cache : Option NodeCache}
    (h : (s.treeAt seeds index layer).Fills (V (s.treeAt seeds index layer))
      (caches.inUse s cached index layer) cache) :
    if cached then Caches.Refills V s seeds index caches
        (caches.store layer (treeIndex index layer s.params.treeHeight) cache)
      else caches.store layer (treeIndex index layer s.params.treeHeight) cache = caches := by
  have hsome := h.isSome_eq
  cases cached with
  | true =>
    obtain ⟨c, rfl⟩ := Option.isSome_iff_exists.mp hsome
    exact ⟨layer, c, hlayer, h, rfl⟩
  | false =>
    obtain rfl : cache = none := by simpa [inUse] using hsome
    rfl

variable {cached : Bool} {r message ots auth : Bytes} {caches : Caches} {cache : Option NodeCache}

/-- The last layer that signs. -/
theorem signLayers_one {layer : Nat} (hsign : (s.treeAt seeds index layer).sign
      (s.leafAt index layer) message (caches.inUse s cached index layer)
      = (.ok (ots, auth), cache)) :
    signLayers s seeds cached index r 1 layer message caches
      = (.ok [⟨layer, r, s.leafAt index layer, ots, auth⟩],
          caches.store layer (treeIndex index layer s.params.treeHeight) cache) := by
  unfold Setting.treeAt Setting.leafAt Caches.inUse at hsign
  simp only [signLayers, hsign, if_true]
  rfl

/-- A layer that signs and has others above it. -/
theorem signLayers_next {count layer : Nat} (hcount : count ≠ 0) {root : Bytes}
    {cache' : Option NodeCache}
    (hsign : (s.treeAt seeds index layer).sign (s.leafAt index layer) message
      (caches.inUse s cached index layer) = (.ok (ots, auth), cache))
    (hroot : (s.treeAt seeds index layer).signedRoot (s.leafAt index layer) ots auth message cache
      = (.ok root, cache')) :
    signLayers s seeds cached index r (count + 1) layer message caches
      = ((signLayers s seeds cached index r count (layer + 1) root
            (caches.store layer (treeIndex index layer s.params.treeHeight) cache')).1.map
          (⟨layer, r, s.leafAt index layer, ots, auth⟩ :: ·),
        (signLayers s seeds cached index r count (layer + 1) root
          (caches.store layer (treeIndex index layer s.params.treeHeight) cache')).2) := by
  unfold Setting.treeAt Setting.leafAt at hroot
  unfold Setting.treeAt Setting.leafAt Caches.inUse at hsign
  rw [signLayers]
  simp only [hsign, hroot, if_neg hcount]
  rfl

/-- What a layer contributes that signs `message` and takes a path. -/
def Setting.layerOf (s : Setting) (seeds : Seeds) (index : Nat) (r : Bytes) (layer : Nat)
    (message : Bytes) (path : List Bytes) : TreeSignature :=
  ⟨layer, r, s.leafAt index layer,
    (OneTime.signatureNodes s seeds layer (treeIndex index layer s.params.treeHeight)
      (s.leafAt index layer) message).flatten, path.flatten⟩

/-- The layers from `layer` on, the lowest of which signs `message`. Each has a path, and what the
next one signs is a root, with the property of the nodes of the tree. -/
def SignedLayers (V : NodeProperty) (s : Setting) (seeds : Seeds) (index : Nat) (r : Bytes) :
    (layer : Nat) → (message : Bytes) → List TreeSignature → Prop
  | _, _, [] => True
  | layer, message, signature :: rest =>
    let t := s.treeAt seeds index layer
    ∃ path root, t.IsPath (V t) (s.leafAt index layer) path ∧
      signature = s.layerOf seeds index r layer message path ∧ V t t.height 0 root ∧
      SignedLayers V s seeds index r (layer + 1) root rest

/-- **Signing the layers has a result**, with caches or without. -/
theorem signLayers_holds (hV : ∀ t : Tree, t.Hereditary (V t)) (h : s.Fits seeds) (cached : Bool)
    (index : Nat) (r : Bytes) (count : Nat) : ∀ (layer : Nat) (message : Bytes) (caches : Caches),
      layer + count = s.params.layers → message.length = s.n →
      (cached = true → caches.Holds V s seeds) →
      ∃ signatures caches', signLayers s seeds cached index r count layer message caches
          = (.ok signatures, caches') ∧ signatures.length = count ∧
        SignedLayers V s seeds index r layer message signatures ∧
        if cached then Relation.ReflTransGen (Caches.Refills V s seeds index) caches caches'
          else caches' = caches := by
  -- the induction is on the layers left, and the caches of those signed keep the property
  induction count with
  | zero =>
    intro layer message caches _ _ _
    refine ⟨[], caches, rfl, rfl, trivial, ?_⟩
    split_ifs
    · exact Relation.ReflTransGen.refl
    · rfl
  | succ count ih =>
    intro layer message caches hcount hm hcaches
    have hlayer : layer < s.params.layers := by omega
    have hholds := Caches.inUse_holds hcaches index layer
    obtain ⟨path, cache₁, hsign, hpath, hfill₁⟩ := Tree.sign_holds (hV _) h
      (t := s.treeAt seeds index layer) (s.leafAt_lt index layer) hm hholds
    obtain ⟨root, cache₂, hroot, hrootV, hfill₂⟩ := Tree.signedRoot_holds (hV _) h
      (t := s.treeAt seeds index layer) (s.leafAt_lt index layer) hm hpath (hfill₁.holds hholds)
    by_cases hlast : count = 0
    · -- the top layer signs and no root is needed
      subst hlast
      have hstore := Caches.store_refills hlayer caches hfill₁
      refine ⟨_, _, signLayers_one hsign, rfl, ⟨path, root, hpath, rfl, hrootV, trivial⟩, ?_⟩
      split_ifs at hstore ⊢
      · exact Relation.ReflTransGen.single hstore
      · exact hstore
    · -- the layer above signs the root of this one
      have hstore := Caches.store_refills hlayer caches (hfill₁.trans hfill₂)
      set caches₁ := caches.store layer (treeIndex index layer s.params.treeHeight) cache₂
        with hcaches₁
      have hcaches' : cached = true → caches₁.Holds V s seeds := by
        intro hcached
        rw [if_pos hcached] at hstore
        exact (hcaches hcached).refills hstore
      obtain ⟨signatures, caches', hrest, hlength, hsigned, hrefills⟩ :=
        ih (layer + 1) root caches₁ (by omega) ((hV _).length hrootV) hcaches'
      refine ⟨_ :: signatures, caches', ?_, congrArg Nat.succ hlength,
        ⟨path, root, hpath, rfl, hrootV, hsigned⟩, ?_⟩
      · rw [signLayers_next hlast hsign hroot, ← hcaches₁, hrest]
        rfl
      · split_ifs at hstore hrefills ⊢
        · exact Relation.ReflTransGen.head hstore hrefills
        · rw [hrefills, hstore]

/-- Layers whose nodes have their values are those of the reference. -/
theorem SignedLayers.eq_map (digest : Bytes) {signatures : List TreeSignature} :
    ∀ (layer : Nat), SignedLayers Tree.IsValue s seeds index r layer
        (s.layerMessage seeds index digest layer) signatures →
      signatures
        = (List.range' layer signatures.length).map (s.layerSignature seeds index r digest) := by
  induction signatures with
  | nil =>
    intro layer _
    rfl
  | cons signature rest ih =>
    -- the root that the layer leads to is the message of the next one
    rintro layer ⟨path, root, hpath, rfl, rfl, hrest⟩
    obtain rfl := Tree.isPath_isValue_iff.mp hpath
    rw [List.length_cons, List.range'_succ, List.map_cons, ← ih (layer + 1) hrest]
    rfl

end

end Hypertree
