import Hypertree.Proofs.Key.Layout

/-!
# Keys read back from bytes

A writer of keys takes the layout in which trees and nodes stand in the order of their places
(`Caches.blocks`). Entries that are inserted in that order are added each at the end of those before
it, so the caches that are read from this layout are those that were written, but for their cursors.

`PrivateKey.ofBytes_toBytes`: reading the encoding of a well-formed key gives the key back, with the
cursors of its caches moved to the leaves that its index uses. `PrivateKey.ofBytes_eq_ok_iff` says
which strings are keys at all. `PublicKey.ofBytes_toBytes` is the round trip of public keys, where a
backup root of zeros is taken for an absent one.
-/

namespace Hypertree

open Decoder

/-! ### Node caches -/

namespace NodeCache

theorem size_lt {n treeHeight : Nat} (hheight : treeHeight ≤ 20) {c : NodeCache}
    (h : c.InRange n treeHeight) : c.size < 2 ^ 64 := by
  have hle : c.size ≤ (Finset.range 21 ×ˢ Finset.range (2 ^ 20)).card := by
    apply PairMap.size_le_card
    intro e he
    obtain ⟨hz, hi, -⟩ := inRange_iff.mp h e he
    have hindex : e.1.2 < 2 ^ 20 := lt_of_lt_of_le hi (Nat.pow_le_pow_right (by decide) (by omega))
    rw [Finset.mem_product, Finset.mem_range, Finset.mem_range]
    exact ⟨by omega, hindex⟩
  refine lt_of_le_of_lt hle ?_
  rw [Finset.card_product, Finset.card_range, Finset.card_range]
  decide

/-- The nodes of a cache, inserted in their order, make the cache at another cursor. -/
theorem insertAll_entries (c : NodeCache) (cursor : Nat) :
    (empty cursor).insertAll c.nodes.entries = ⟨c.nodes, cursor⟩ :=
  ext_nodes (entries_insertAll (empty cursor) c.nodes.ascending) (cursor_insertAll _)

end NodeCache

/-! ### The caches of a key -/

namespace Caches

/-- The caches with their cursors moved to the leaves that an index uses. -/
def atIndex (c : Caches) (treeHeight index : Nat) : Caches :=
  ⟨c.trees.filterMap fun key cache =>
    some ⟨cache.nodes, leafIndex index key.1 treeHeight⟩⟩

theorem tree?_atIndex (c : Caches) (treeHeight index layer tree : Nat) :
    (c.atIndex treeHeight index).tree? layer tree
      = (c.tree? layer tree).map fun cache => ⟨cache.nodes, leafIndex index layer treeHeight⟩ := by
  rw [tree?, atIndex, PairMap.get?_filterMap, tree?]
  cases c.trees.get? (layer, tree) <;> rfl

theorem entries_atIndex (c : Caches) (treeHeight index : Nat) :
    (c.atIndex treeHeight index).trees.entries
      = c.trees.entries.map fun e => (e.1, ⟨e.2.nodes, leafIndex index e.1.1 treeHeight⟩) := by
  simp only [atIndex, PairMap.filterMap, Option.map_some, List.filterMap_eq_map']

/-- Cursors that are where an index puts them stay there. -/
theorem atIndex_eq_self {c : Caches} {treeHeight index : Nat}
    (h : c.All fun layer _ cache => cache.cursor = leafIndex index layer treeHeight) :
    c.atIndex treeHeight index = c := by
  rw [Caches.mk.injEq]
  refine PairMap.ext_entries ((entries_atIndex c treeHeight index).trans ?_)
  refine (List.map_congr_left fun e he => ?_).trans (List.map_id _)
  have hcursor := h e.1.1 e.1.2 e.2 (PairMap.get?_eq_some_iff.mpr he)
  rw [← hcursor]
  rfl

/-- A property of trees and their nodes does not depend on the cursors. -/
theorem All.atIndex {P : Nat → Nat → NodeCache → Prop} {c : Caches} (hc : c.All P)
    (hcursor : ∀ layer tree cache cursor, P layer tree cache → P layer tree ⟨cache.nodes, cursor⟩)
    (treeHeight index : Nat) : (c.atIndex treeHeight index).All P := by
  intro layer tree cache' h
  rw [tree?_atIndex] at h
  obtain ⟨cache, hcache, rfl⟩ := Option.map_eq_some_iff.mp h
  exact hcursor _ _ _ _ (hc _ _ _ hcache)

theorem InRange.atIndex {header : Header} {c : Caches} (hc : c.InRange header)
    (treeHeight index : Nat) : (c.atIndex treeHeight index).InRange header :=
  All.atIndex hc (fun _ _ _ _ h => ⟨h.1, h.2⟩) treeHeight index

/-- The entry of a tree cache is in the ranges of the header. -/
def EntryInRange (header : Header) (e : (Nat × Nat) × NodeCache) : Prop :=
  HasTree header e.1.1 e.1.2 ∧ e.2.InRange header.n header.treeHeight

theorem inRange_iff {header : Header} {c : Caches} :
    c.InRange header ↔ ∀ e ∈ c.trees.entries, EntryInRange header e := by
  constructor
  · intro h e he
    exact h _ _ _ (PairMap.get?_eq_some_iff.mpr he)
  · intro h layer tree cache hget
    exact h ((layer, tree), cache) (PairMap.get?_eq_some_iff.mp hget)

theorem treeCount_lt {header : Header} (hv : header.Valid) {c : Caches} (h : c.InRange header) :
    c.treeCount < 2 ^ 64 := by
  have hle : c.treeCount ≤ (Finset.range 12 ×ˢ Finset.range (2 ^ 60)).card := by
    apply PairMap.size_le_card
    intro e he
    obtain ⟨htree, -⟩ := inRange_iff.mp h e he
    have hlayer : e.1.1 < 12 := lt_of_lt_of_le htree.1 hv.layers_le
    rw [Finset.mem_product, Finset.mem_range, Finset.mem_range]
    exact ⟨hlayer, hasTree_lt hv htree⟩
  refine lt_of_le_of_lt hle ?_
  rw [Finset.card_product, Finset.card_range, Finset.card_range]
  decide

/-- The tree caches as they are written. -/
def blocks (c : Caches) : List TreeBlock :=
  c.trees.entries.map fun e => (e.1, e.2.nodes.entries)

theorem fst_blocks (c : Caches) : c.blocks.map Prod.fst = c.trees.entries.map Prod.fst := by
  rw [blocks, List.map_map]
  rfl

theorem ascending_blocks (c : Caches) : Ascending c.blocks := by
  rw [PairMap.ascending_iff_keys, fst_blocks]
  exact PairMap.ascending_iff_keys.mp c.trees.ascending

theorem toBytes_eq (c : Caches) :
    c.toBytes
      = Bytes.varint (UInt64.ofNat c.blocks.length) ++ c.blocks.flatMap TreeBlock.bytes := by
  rw [toBytes, blocks, List.length_map, List.flatMap_map]
  rfl

/-- Trees with places in the key are written with places that a reader accepts. -/
theorem InRange.blocks {header : Header} (hv : header.Valid) {c : Caches} (h : c.InRange header) :
    ∀ b ∈ c.blocks, b.InRange header := by
  intro b hb
  obtain ⟨e, he, rfl⟩ := List.mem_map.mp hb
  obtain ⟨htree, hcache⟩ := inRange_iff.mp h e he
  exact ⟨htree, NodeCache.size_lt hv.treeHeight_le hcache, NodeCache.inRange_iff.mp hcache⟩

/-- The tree caches, put in in their order, make the caches at the cursors of an index. -/
theorem insertBlocks_blocks (c : Caches) (treeHeight index : Nat) :
    empty.insertBlocks treeHeight index c.blocks = c.atIndex treeHeight index := by
  have hentries := entries_insertBlocks treeHeight index empty
    (PairMap.ascending_iff_keys.mp c.ascending_blocks)
  have hmap : (c.blocks.map fun b => (b.1, b.cache treeHeight index))
      = (c.atIndex treeHeight index).trees.entries := by
    rw [blocks, List.map_map, entries_atIndex]
    simp only [TreeBlock.cache, Function.comp_def, NodeCache.insertAll_entries]
  rw [Caches.mk.injEq]
  exact PairMap.ext_entries (hentries.trans hmap)

end Caches

/-! ### Keys -/

namespace PublicKey

/-- **A public key is read back**; a backup root of zeros is taken for an absent one. -/
theorem ofBytes_toBytes {key : PublicKey} (digest : Digest) (hroot : key.root.length = digest.size)
    (hbackup : ∀ root, key.backupRoot = some root → root.length = digest.size)
    (hseed : key.publicSeed.length = digest.size) :
    ofBytes key.toBytes digest
      = .ok { key with backupRoot := key.backupRoot.filter fun root => !Bytes.isZero root } := by
  obtain ⟨root, backupRoot, publicSeed⟩ := key
  simp only at hroot hbackup hseed
  set middle := backupRoot.getD (Bytes.zeros root.length) with hmiddle
  have hlen : middle.length = digest.size := by
    rw [hmiddle]
    cases h : backupRoot with
    | none => rw [Option.getD_none, Bytes.length_zeros, hroot]
    | some r =>
      rw [Option.getD_some]
      exact hbackup r h
  have hzero : (if Bytes.isZero middle then none else some middle)
      = backupRoot.filter fun root => !Bytes.isZero root := by
    rw [hmiddle]
    cases backupRoot with
    | none =>
      rw [Option.getD_none, if_pos (by simp [Bytes.isZero, Bytes.zeros])]
      rfl
    | some r =>
      rw [Option.getD_some]
      by_cases hr : Bytes.isZero r <;> simp [Option.filter, hr]
  have htotal : (root ++ (middle ++ publicSeed)).length = 3 * digest.size := by
    rw [List.length_append, List.length_append]
    omega
  unfold ofBytes
  rw [toBytes]
  simp only [← hmiddle]
  -- the three parts have one length, so they are cut out again
  rw [if_pos htotal, List.take_left' hroot, List.drop_left' hroot, List.take_left' hlen, hzero,
    two_mul, ← List.drop_drop, List.drop_left' hroot, List.drop_left' hlen]

end PublicKey

namespace PrivateKey

variable {key : PrivateKey}

/-- The layout in which a key is written. -/
def layout (key : PrivateKey) : Layout :=
  ⟨versionMinor, key.caches.blocks⟩

theorem toBytes_eq_bytesIn (key : PrivateKey) : key.toBytes = key.bytesIn key.layout := by
  rw [toBytes, Caches.toBytes_eq, List.append_assoc]
  rfl

theorem WellFormed.layout_admitted (h : key.WellFormed) : key.layout.Admitted key.header where
  length_lt := by
    rw [layout, Caches.blocks, List.length_map]
    exact Caches.treeCount_lt h.header h.caches
  inRange := Caches.InRange.blocks h.header h.caches
  nodup := by
    refine (PairMap.ascending_iff_keys.mp key.caches.ascending_blocks).imp ?_
    rintro a _ hlt rfl
    exact Precedes.irrefl _ hlt

/-- **A well-formed key is read back** with its caches at the leaves that its index uses. -/
theorem ofBytes_toBytes (h : key.WellFormed) :
    ofBytes key.toBytes
      = .ok { key with caches := key.caches.atIndex key.header.treeHeight key.index } := by
  rw [toBytes_eq_bytesIn, ofBytes, decode_eq_ok_iff]
  have hmoved := h.update h.index_le (h.caches.atIndex key.header.treeHeight key.index)
  exact (reads_bytesIn hmoved h.layout_admitted
    (Caches.insertBlocks_blocks key.caches key.header.treeHeight key.index).symm).run

/-- **The strings that are keys** are the well-formed keys in the layouts that have their caches. -/
theorem ofBytes_eq_ok_iff {bytes : Bytes} :
    ofBytes bytes = .ok key ↔ key.WellFormed ∧ ∃ l : Layout, l.Admitted key.header ∧
      key.caches = l.caches key.header.treeHeight key.index ∧ bytes = key.bytesIn l := by
  rw [ofBytes, decode_eq_ok_iff]
  constructor
  · intro h
    obtain ⟨hkey, l, hl, hcaches, hbytes⟩ := of_decoder_run h
    rw [List.append_nil] at hbytes
    exact ⟨hkey, l, hl, hcaches, hbytes⟩
  · rintro ⟨h, l, hl, hcaches, rfl⟩
    exact (reads_bytesIn h hl hcaches).run

/-- A key that was read is well formed. -/
theorem wellFormed_of_ofBytes {bytes : Bytes} (h : ofBytes bytes = .ok key) : key.WellFormed :=
  (ofBytes_eq_ok_iff.mp h).1

end PrivateKey

end Hypertree
