import Hypertree.Proofs.Key.Codec

/-!
# One layout for every key

A string that is a key has one layout (`PrivateKey.bytesIn_inj`): every field of the encoding has
one form, and every count is written before what it counts. So a string is what a writer makes of
the key that is read from it if and only if its layout is the writer's: the minor version is zero,
and trees and nodes stand in the order of their places (`PrivateKey.layout_eq_iff`).

`PrivateKey.reload_preserves` and `PrivateKey.decoding_canonical` are the two round trips, from keys
and from strings. A reader knows the end of a key without looking beyond it, so no string that is a
key begins another one.
-/

namespace Hypertree

open Decoder

/-! ### Strings that begin with different layouts -/

theorem NodeCache.prefixFreeOn_entryBytes {n treeHeight : Nat} (hheight : treeHeight ≤ 20) :
    PrefixFreeOn (EntryInRange n treeHeight) entryBytes := by
  intro e e' x y he he' h
  obtain ⟨hz, hi⟩ := he.lt hheight
  obtain ⟨hz', hi'⟩ := he'.lt hheight
  simp only [entryBytes, List.cons_append, List.append_assoc, List.cons.injEq] at h
  obtain ⟨hbyte, h⟩ := h
  have hplace : e.1.1 = e'.1.1 := by rw [← hz, hbyte, hz']
  obtain ⟨hindex, h⟩ := prefixFreeOn_varint hi hi' h
  obtain ⟨hnode, hrest⟩ := List.append_inj h (he.2.2.trans he'.2.2.symm)
  exact ⟨Prod.ext (Prod.ext hplace hindex) hnode, hrest⟩

theorem TreeBlock.prefixFreeOn_bytes {header : Header} (hv : header.Valid) :
    PrefixFreeOn (InRange header) bytes := by
  intro b b' x y hb hb' h
  obtain ⟨hlayer, htree⟩ := hb.hasTree.lt hv
  obtain ⟨hlayer', htree'⟩ := hb'.hasTree.lt hv
  simp only [bytes, List.cons_append, List.append_assoc, List.cons.injEq] at h
  obtain ⟨hbyte, h⟩ := h
  have hplace : b.1.1 = b'.1.1 := by rw [← hlayer, hbyte, hlayer']
  -- number by number: each is prefix-free, and the count tells how many nodes follow
  obtain ⟨hindex, h⟩ := prefixFreeOn_varint htree htree' h
  obtain ⟨hcount, h⟩ := prefixFreeOn_varint hb.length_lt hb'.length_lt h
  obtain ⟨hnodes, hrest⟩ := (NodeCache.prefixFreeOn_entryBytes hv.treeHeight_le).flatMap
    hb.nodes hb'.nodes hcount h
  exact ⟨Prod.ext (Prod.ext hplace hindex) hnodes, hrest⟩

namespace PrivateKey

variable {key : PrivateKey} {bytes : Bytes}

/-- **A string has one layout.** -/
theorem bytesIn_inj {l l' : Layout} (hv : key.header.Valid) (hl : l.Admitted key.header)
    (hl' : l'.Admitted key.header) (h : key.bytesIn l = key.bytesIn l') : l = l' := by
  simp only [bytesIn, List.cons.injEq, true_and, List.append_cancel_left_eq] at h
  obtain ⟨hminor, h⟩ := h
  obtain ⟨hcount, h⟩ := prefixFreeOn_varint hl.length_lt hl'.length_lt h
  obtain ⟨hblocks, -⟩ := (TreeBlock.prefixFreeOn_bytes hv).flatMap hl.inRange hl'.inRange hcount h
  obtain ⟨minor, blocks⟩ := l
  exact congrArg₂ Layout.mk hminor hblocks

/-! ### The layout of a writer -/

/-- **A writer's layout**: of those that have the caches of a key, it is the one with minor version
zero in which trees and nodes stand in the order of their places. -/
theorem layout_eq_iff {l : Layout}
    (hcaches : key.caches = l.caches key.header.treeHeight key.index) :
    key.layout = l ↔
      l.minor = 0 ∧ Ascending l.blocks ∧ ∀ block ∈ l.blocks, Ascending block.2 := by
  constructor
  · rintro rfl
    refine ⟨rfl, key.caches.ascending_blocks, ?_⟩
    intro block hblock
    obtain ⟨e, -, rfl⟩ := List.mem_map.mp hblock
    exact e.2.nodes.ascending
  · rintro ⟨hminor, htrees, hnodes⟩
    obtain ⟨minor, blocks⟩ := l
    obtain rfl : minor = 0 := hminor
    -- trees and nodes in their order are entries of the caches as they stand
    have hentries := Caches.entries_insertBlocks key.header.treeHeight key.index .empty
      (PairMap.ascending_iff_keys.mp htrees)
    have hblocks : key.caches.blocks = blocks := by
      rw [hcaches, Caches.blocks, Layout.caches, hentries]
      refine (List.map_map ..).trans ((List.map_congr_left fun block hblock => ?_).trans
        (List.map_id _))
      exact Prod.ext rfl (NodeCache.entries_insertAll (.empty _) (hnodes block hblock))
    exact congrArg (Layout.mk 0) hblocks

/-- A key that was read has its cursors where its index puts them. -/
theorem atIndex_of_ofBytes (h : ofBytes bytes = .ok key) :
    key.caches.atIndex key.header.treeHeight key.index = key.caches := by
  obtain ⟨-, l, -, hcaches, -⟩ := ofBytes_eq_ok_iff.mp h
  rw [hcaches]
  exact Caches.atIndex_eq_self (l.cursor_caches _ _)

/-- A string that is a key is read wherever it stands. -/
theorem reads_of_ofBytes (h : ofBytes bytes = .ok key) : Reads decoder bytes key := by
  obtain ⟨hkey, l, hl, hcaches, rfl⟩ := ofBytes_eq_ok_iff.mp h
  exact reads_bytesIn hkey hl hcaches

/-- A string that is a key begins no other one. -/
theorem eq_of_isPrefix {bytes' : Bytes} {key' : PrivateKey} (h : ofBytes bytes = .ok key)
    (h' : ofBytes bytes' = .ok key') ( hprefix : bytes <+: bytes') : bytes' = bytes := by
  obtain ⟨rest, rfl⟩ := hprefix
  rw [decode_append (reads_of_ofBytes h) h', List.append_nil]

/-! ### Round trips -/

/-- A layout of another minor version, with trees out of their order and a node that is repeated. -/
def shuffled : Layout :=
  ⟨7, [((1, 0), [((1, 0), Bytes.zeros 32)]),
    ((0, 0), [((0, 1), Bytes.zeros 32), ((0, 0), Bytes.zeros 32), ((0, 1), Bytes.zeros 32)])]⟩

/-- A key of four signatures in two layers, one of them spent, with the caches of that layout. -/
def shuffledKey : PrivateKey where
  header := { height := 2, layers := 2 }
  index := 1
  publicSeed := Bytes.zeros 32
  secretSeed := Bytes.zeros 32
  secretPrf := Bytes.zeros 32
  root := Bytes.zeros 32
  backupRoot := none
  nonces := ⟨Array.replicate 2 ⟨0, 0⟩⟩
  caches := shuffled.caches 1 1

theorem shuffled_admitted : shuffled.Admitted shuffledKey.header where
  length_lt := by decide
  inRange := by
    intro block hblock
    rcases List.mem_pair.mp hblock with rfl | rfl
    · exact ⟨⟨by decide, by decide⟩, by decide, by decide⟩
    · exact ⟨⟨by decide, by decide⟩, by decide, by decide⟩
  nodup := by decide

theorem wellFormed_shuffledKey : shuffledKey.WellFormed where
  header := Header.valid_iff_validate.mpr rfl
  index_le := by decide
  publicSeed := rfl
  secretSeed := rfl
  secretPrf := rfl
  root := rfl
  backupRoot := fun _ h => nomatch h
  backup_isSome := rfl
  nonces := rfl
  caches := shuffled_admitted.inRange_caches 1

/-- **From a key and back.** A well-formed key is read back from its encoding in every field, with
all its trees and their nodes; the cursor of each tree is at the leaf that the index of the key
uses. -/
theorem reload_preserves (h : key.WellFormed) : ∃ key', ofBytes key.toBytes = .ok key' ∧
    key'.header = key.header ∧ key'.index = key.index ∧ key'.publicSeed = key.publicSeed ∧
    key'.secretSeed = key.secretSeed ∧ key'.secretPrf = key.secretPrf ∧ key'.root = key.root ∧
    key'.backupRoot = key.backupRoot ∧ key'.nonces = key.nonces ∧
    ∀ layer tree, key'.caches.tree? layer tree = (key.caches.tree? layer tree).map fun cache =>
      ⟨cache.nodes, leafIndex key.index layer key.header.treeHeight⟩ :=
  ⟨_, ofBytes_toBytes h, rfl, rfl, rfl, rfl, rfl, rfl, rfl, rfl,
    Caches.tree?_atIndex key.caches key.header.treeHeight key.index⟩

theorem reload_preserves_shuffledKey :
    { shuffledKey with index := 0 }.WellFormed ∧
    ∃ key', ofBytes { shuffledKey with index := 0 }.toBytes = .ok key' ∧
      key'.header = shuffledKey.header ∧
      (shuffledKey.caches.tree? 0 0).map NodeCache.cursor = some 1 ∧
      (key'.caches.tree? 0 0).map NodeCache.cursor = some 0 := by
  have h := wellFormed_shuffledKey.update (Nat.zero_le _) wellFormed_shuffledKey.caches
  obtain ⟨key', hkey, hheader, -, -, -, -, -, -, -, hcaches⟩ := reload_preserves h
  refine ⟨h, key', hkey, hheader, rfl, ?_⟩
  rw [hcaches]
  rfl

/-- **From a string and back.** What is read from a string is read from its own encoding. The string
has one layout, and it is that encoding if and only if its minor version is zero and its trees and
their nodes stand in the order of their places. No other string that begins with it is a key, and
none with which it begins. -/
theorem decoding_canonical (h : ofBytes bytes = .ok key) :
    ofBytes key.toBytes = .ok key ∧
    (∃ l : Layout, l.Admitted key.header ∧ bytes = key.bytesIn l ∧
      (∀ l' : Layout, l'.Admitted key.header → bytes = key.bytesIn l' → l' = l) ∧
      (key.toBytes = bytes ↔
        bytes[1]? = some 0 ∧ Ascending l.blocks ∧ ∀ block ∈ l.blocks, Ascending block.2)) ∧
    ∀ bytes' key', bytes' <+: bytes ∨ bytes <+: bytes' → bytes' ≠ bytes →
      ofBytes bytes' ≠ .ok key' := by
  obtain ⟨hkey, l, hl, hcaches, hbytes⟩ := ofBytes_eq_ok_iff.mp h
  have hv := hkey.header
  refine ⟨?_, ⟨l, hl, hbytes, ?_, ?_⟩, ?_⟩
  · rw [ofBytes_toBytes hkey, atIndex_of_ofBytes h]
  · intro l' hl' hbytes'
    exact bytesIn_inj hv hl' hl (hbytes'.symm.trans hbytes)
  · -- encoding writes the layout of the key, which has no minor version and sorted caches
    have hencoded : key.toBytes = bytes ↔ key.layout = l := by
      rw [toBytes_eq_bytesIn, hbytes]
      exact ⟨bytesIn_inj hv hkey.layout_admitted hl, fun heq => by rw [heq]⟩
    have hminor : bytes[1]? = some 0 ↔ l.minor = 0 := by
      rw [hbytes]
      exact Option.some_inj
    rw [hencoded, layout_eq_iff hcaches, hminor]
  · -- no accepted encoding is a proper prefix of another, in either direction
    rintro bytes' key' ( hprefix | hprefix) hne h'
    · exact hne (eq_of_isPrefix h' h hprefix).symm
    · exact hne (eq_of_isPrefix h h' hprefix)

theorem decoding_canonical_shuffledKey :
    ofBytes (shuffledKey.bytesIn shuffled) = .ok shuffledKey ∧
    ofBytes shuffledKey.toBytes = .ok shuffledKey ∧
    shuffledKey.toBytes ≠ shuffledKey.bytesIn shuffled ∧
    ∀ key', ofBytes (shuffledKey.bytesIn shuffled ++ [0]) ≠ .ok key' := by
  have h : ofBytes (shuffledKey.bytesIn shuffled) = .ok shuffledKey :=
    ofBytes_eq_ok_iff.mpr ⟨wellFormed_shuffledKey, shuffled, shuffled_admitted, rfl, rfl⟩
  obtain ⟨hback, ⟨l, -, -, -, hencoded⟩, hends⟩ := decoding_canonical h
  refine ⟨h, hback, fun heq => ?_, fun key' => ?_⟩
  · have hminor : (some 7 : Option UInt8) = some 0 := (hencoded.mp heq).1
    exact absurd hminor (by decide)
  · exact hends _ key' (Or.inr (List.prefix_append _ _)) (by simp)

end PrivateKey

end Hypertree
