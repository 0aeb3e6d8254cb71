import Hypertree.Key
import Hypertree.Proofs.Merkle.NodeCache
import Hypertree.Proofs.Params

/-!
# Well-formed keys and their indices

A key is well formed (`PrivateKey.WellFormed`) if its header passes every check, its parts have the
sizes that the header asks for, and its caches hold nodes in their places. Whatever a signer does to
a key changes the next index and the caches and nothing else, so well-formedness comes down to these
two (`WellFormed.update`).

`reserve_eq_ok_iff` and `checkCommitted_eq_ok_iff` say when the next index is handed out and when a
committed index is accepted. The tag of a key depends on neither index nor caches.
-/

namespace Hypertree.PrivateKey

/-- A key whose parts fit its header. -/
structure WellFormed (key : PrivateKey) : Prop where
  header : key.header.Valid
  index_le : key.index ≤ key.header.maxSignatures
  publicSeed : key.publicSeed.length = key.header.n
  secretSeed : key.secretSeed.length = key.header.n
  secretPrf : key.secretPrf.length = key.header.n
  root : key.root.length = key.header.n
  backupRoot : ∀ root, key.backupRoot = some root → root.length = key.header.n
  backup_isSome : key.backupRoot.isSome = key.header.backupDigest.isSome
  nonces : key.nonces.size = key.header.leavesPerTree
  caches : key.caches.InRange key.header

theorem WellFormed.update {key : PrivateKey} (h : key.WellFormed) {index : Nat} {caches : Caches}
    (hindex : index ≤ key.header.maxSignatures) (hcaches : caches.InRange key.header) :
    { key with index, caches }.WellFormed :=
  { h with index_le := hindex, caches := hcaches }

variable {key : PrivateKey}

/-- The next index is handed out until all are, and the key advances by one. -/
theorem reserve_eq_ok_iff {r : Reservation} {key' : PrivateKey} :
    key.reserve = .ok (r, key') ↔ key.index < key.header.maxSignatures ∧
      r = ⟨key.index, key.tag⟩ ∧ key' = { key with index := key.index + 1 } := by
  unfold reserve
  split_ifs with h
  · simp [Nat.not_lt.mpr h]
  · simp [Nat.lt_of_not_le h, eq_comm]

theorem checkCommitted_eq_ok_iff {committed : CommittedIndex} :
    key.checkCommitted committed = .ok () ↔
      committed.tag = key.tag ∧ committed.index < key.index := by
  unfold checkCommitted
  split_ifs with h
  · simp [h.1, h.2]
  · simpa [eq_comm] using h

theorem checkCommitted_of_tag_ne {committed : CommittedIndex} (h : committed.tag ≠ key.tag) :
    key.checkCommitted committed = .error .foreignReservation := by
  unfold checkCommitted
  rw [if_neg fun hc => h hc.1.symm]

/-- A key that differs from another at most in its next index and its caches. -/
def Evolves (key key' : PrivateKey) : Prop :=
  ∃ index caches, key' = { key with index, caches }

theorem Evolves.refl (key : PrivateKey) : key.Evolves key :=
  ⟨key.index, key.caches, rfl⟩

theorem Evolves.trans {key' key'' : PrivateKey} (h : key.Evolves key') (h' : key'.Evolves key'') :
    key.Evolves key'' := by
  obtain ⟨index, caches, rfl⟩ := h
  exact h'

theorem evolves_update (key : PrivateKey) (index : Nat) (caches : Caches) :
    key.Evolves { key with index, caches } :=
  ⟨index, caches, rfl⟩

theorem Evolves.tag_eq {key' : PrivateKey} (h : key.Evolves key') : key'.tag = key.tag := by
  obtain ⟨index, caches, rfl⟩ := h
  rfl

end Hypertree.PrivateKey
