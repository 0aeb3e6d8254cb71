import Hypertree.Proofs.Call
import Hypertree.Proofs.Position.Engine

/-!
# Separate domains

`Engine.separatesDomains` puts together what keeps the hash calls of an engine apart: addresses are
told apart by their bytes, the positions of a key have different addresses, the computations call at
the positions they are about, and no two calls of the keyed hash functions digest the same string.
-/

namespace Hypertree

/-- Digests are longer than indices. -/
theorem Setting.eight_le_n (s : Setting) : 8 ≤ s.n := by
  unfold n
  cases s.digest <;> decide

/-- How the hash calls of an engine are kept apart. -/
structure Engine.SeparatesDomains (e : Engine) : Prop where
  /-- An address is determined by its bytes. -/
  address : Function.Injective Address.toBytes
  /-- Two positions of a key have no address in common, nor has one under two selectors. -/
  position : ∀ p q : Position, p.InKey e.primary → q.InKey e.primary → ∀ k k' : UInt32,
    (p.address.withSelector k).toBytes = (q.address.withSelector k').toBytes → p = q ∧ k = k'
  /-- Walking a chain calls at the steps of the chain that are walked. -/
  chain : ∀ (s : Setting) (publicSeed : Bytes) (layer tree leaf i start count : Nat) (x : Bytes),
    x.length = s.n → start + count ≤ s.oneTime.w - 1 →
      let a := (Address.oneTime layer tree leaf).setChain (UInt32.ofNat i)
      let record := walkTraced s publicSeed a count start x
      (∃ a', Hypertree.chain s x start count publicSeed a = .ok (some (record.value, a'))) ∧
        record.Visits (Position.steps layer tree leaf i start count)
  /-- Compressing a public key calls at the pairs of the L-tree. -/
  compress : ∀ (s : Setting) (publicSeed : Bytes) (layer tree leaf : Nat) (nodes : List Bytes),
    nodes ≠ [] → (∀ x ∈ nodes, x.length = s.n) →
      let record := LTree.reduceTraced s publicSeed (.ltree layer tree leaf) 0 nodes
      LTree.compress s nodes.flatten publicSeed (.ltree layer tree leaf)
          = .ok (record.value.headD []) ∧
        record.Visits (Position.pairs layer tree leaf nodes.length 0)
  /-- Computing a node calls at the chains, pairs and nodes of its subtree, except for what a cache
  saves. -/
  node : ∀ (t : Tree) (z i : Nat) (cache : Option NodeCache),
    t.setting.Fits t.seeds → t.HasNode z i → t.Sized cache →
      let record := t.nodeTraced z i cache
      t.node z i cache = (.ok record.value.1, record.value.2) ∧
        ∃ ps, record.Visits ps ∧ ps.Sublist (Position.subtree t.setting t.layer t.index z i) ∧
          (cache = none → ps = Position.subtree t.setting t.layer t.index z i)
  /-- Key generation calls at positions of the key. -/
  generate : ∀ (publicSeed secretSeed secretPrf : Bytes) (nonces : NonceTable),
    e.SeedsFit publicSeed secretSeed secretPrf nonces →
      let record := e.rootsTraced ⟨publicSeed, secretSeed, nonces⟩
      (∃ key, e.generateFromSeeds publicSeed secretSeed secretPrf nonces
          = .ok (key, key.publicKey) ∧ record.value = (key.root, key.backupRoot)) ∧
        record.StaysIn e.primary
  /-- Signing calls at positions of the key. The record returns what signing returns and leaves the
  same key. -/
  sign : ∀ (key : PrivateKey) (committed : CommittedIndex) (message : Bytes)
    (selector : Selector), key.MadeFor e →
      let record := e.signTraced key committed message selector
      e.signCommitted key committed message selector = record.value ∧
        record.StaysIn e.primary
  /-- Verification calls at positions of the key. -/
  verify : ∀ (signature : Signature) (message : Bytes) (key : PublicKey),
    let record := e.verifyTraced signature message key
    e.verify signature message key = .ok record.value ∧ record.StaysIn e.primary
  /-- What a call of a keyed hash function returns is the digest of what it absorbs. -/
  result : ∀ (s : Setting) (c : Call), c.result s = s.suite.hash s.digest (c.absorbed s.n)
  /-- The function that is called and its arguments are determined by what is absorbed. -/
  absorbed : ∀ (s : Setting) (c d : Call), c.Sized s.n → d.Sized s.n →
    c.absorbed s.n = d.absorbed s.n → c = d

/-- **Every engine keeps its domains apart.** -/
theorem Engine.separatesDomains (e : Engine) : e.SeparatesDomains where
  address := Address.toBytes_injective
  position _ _ hp hq _ _ := hp.address_inj e.valid hq
  chain s publicSeed layer tree leaf i start count x hx hle := by
    refine ⟨?_, visits_walkTraced s publicSeed layer tree leaf i count start x⟩
    simp only [value_walkTraced]
    exact chain_eq publicSeed start count hx hle _
  compress s publicSeed layer tree leaf nodes hne hlen := by
    refine ⟨?_, visits_reduceTraced s publicSeed layer tree leaf 0 nodes⟩
    simp only [LTree.value_reduceTraced]
    exact LTree.compress_eq _ hne hlen
  node t z i cache h hnode hc := by
    obtain ⟨ps, hps, hsub, hnone⟩ := t.visits_nodeTraced z i cache
    exact ⟨Tree.node_eq_value h hnode hc, ps, hps, hsub, fun hcache => (hnone hcache).1⟩
  generate _ _ _ _ h := ⟨generateFromSeeds_eq_value h, staysIn_rootsTraced e _⟩
  sign _ committed message selector h :=
    ⟨signCommitted_eq_value h committed message selector,
      staysIn_signTraced h committed message selector⟩
  verify signature message key :=
    ⟨e.verify_eq_value signature message key, staysIn_verifyTraced signature message key⟩
  result := Call.result_eq
  absorbed s _ _ hc hd := Call.absorbed_injective s.eight_le_n hc hd

/-- The last step of the last chain of a leaf of `Engine.small` and the last pair of its L-tree have
no address in common, key generation calls at positions of the key, and `f` and `h` never digest the
same string. -/
theorem Engine.separatesDomains_small :
    (∀ k k' : UInt32, ((Position.step 0 1 1 66 14).address.withSelector k).toBytes ≠
      ((Position.pair 0 1 1 6 0).address.withSelector k').toBytes) ∧
    (small.rootsTraced ⟨Bytes.zeros 32, Bytes.zeros 32, ⟨Array.replicate 2 ⟨0, 0⟩⟩⟩).StaysIn
      small.primary ∧
    ∀ m m', (Call.f (Bytes.zeros 32) m).absorbed 32 ≠ (Call.h (Bytes.zeros 32) m').absorbed 32 := by
  have hdomains := small.separatesDomains
  refine ⟨fun k k' h => ?_, (hdomains.generate _ _ _ _ seedsFit_small).2, fun m m' h => ?_⟩
  · have hstep : (Position.step 0 1 1 66 14).InKey small.primary := by
      unfold Position.InKey Caches.HasTree
      decide
    have hpair : (Position.pair 0 1 1 6 0).InKey small.primary := by
      unfold Position.InKey Caches.HasTree
      decide
    cases (hdomains.position _ _ hstep hpair k k' h).1
  · have hkey : (Bytes.zeros 32).length = small.primary.n := rfl
    cases hdomains.absorbed small.primary (.f _ m) (.h _ m') hkey hkey h

end Hypertree
