import Hypertree.Proofs.Engine.Outcome
import Hypertree.Proofs.Merkle.Cleaning
import Hypertree.Proofs.Session

/-!
# Caches in the course of a session

Signing under the primary digest cleans the caches of a key, and so does evicting. Both clean up to
the next index of the key as it is returned, so what the caches then hold does not depend on how the
session went: on the order in which committed indices were used, on indices that were given up, on
the engines that worked on the key before, or on an encoding from which it was read. All that is
needed is that the key is well formed, which every step of a session keeps (`Step.wellFormed`).
-/

namespace Hypertree

/-- Nodes with places in a key have places in its trees. -/
theorem Caches.InRange.inPlace {header : Header} {c : Caches} (hc : c.InRange header) :
    c.InPlace header.treeHeight := by
  intro layer tree cache hcache z i x hget
  obtain ⟨hz, hi, -⟩ := (hc layer tree cache hcache).2 z i x hget
  exact ⟨hz, hi⟩

namespace Engine

variable {e : Engine} {key key' : PrivateKey} {message : Bytes} {signature : Signature}

/-- A key has in its caches what a cleaning pass up to its next index leaves of others, and cleaning
it once more changes nothing. -/
def Cleans (e : Engine) (caches : Caches) (evicted : Nat) (key : PrivateKey) : Prop :=
  Caches.Pass e.params.cache e.params.treeHeight e.params.layers key.index e.params.maxSignatures
    caches evicted key.caches ∧ e.evict key = (0, key)

/-- A key has in its caches what a cleaning pass leaves of those of `key`, once these have been
refilled by signing at an index. -/
def CleansRefilled (e : Engine) (key : PrivateKey) (index : Nat) (key' : PrivateKey) : Prop :=
  ∃ filled evicted, filled.InPlace e.params.treeHeight ∧
    Relation.ReflTransGen (Caches.Refills Tree.IsSized e.primary key.seeds index) key.caches
      filled ∧ e.Cleans filled evicted key'

/-- A key with caches from which nothing is dropped stays as it is. -/
theorem evict_eq_self (h : key.caches.clean e.params.cache e.params.treeHeight e.params.layers
    key.index e.params.maxSignatures = (0, key.caches)) : e.evict key = (0, key) := by
  rw [evict, h]

theorem evict_cleans (e : Engine) (key : PrivateKey) :
    e.Cleans key.caches (e.evict key).1 (e.evict key).2 := by
  have hpass := key.caches.pass_clean e.params.cache e.params.treeHeight e.params.layers key.index
    e.params.maxSignatures
  exact ⟨hpass, evict_eq_self hpass.again⟩

theorem signCommitted_cleans (h : key.WellFormed) {committed : CommittedIndex}
    (hok : e.signCommitted key committed message .primary = (.ok signature, key')) :
    key'.index = key.index ∧ e.CleansRefilled key committed.index key' := by
  cases hp : e.prepare key committed .primary with
  | error err =>
    rw [signCommitted, hp] at hok
    cases hok
  | ok p =>
    -- an engine that accepts a well-formed key is one that it is made for
    obtain ⟨hcheck, -, -⟩ := e.prepare_eq_ok_iff.mp hp
    have hkey : key.MadeFor e := ⟨(checkKey_eq_ok_iff_matches h).mp hcheck, h⟩
    obtain ⟨signature', filled, -, hout, hrefills, hrange, -⟩ :=
      signCommitted_refills hkey Tree.hereditary_isSized hkey.holds_isSized message hp
    rw [hout] at hok
    obtain ⟨-, rfl⟩ := Prod.mk.inj hok
    refine ⟨rfl, filled, _, ?_, hrefills, e.evict_cleans { key with caches := filled }⟩
    rw [← hkey.treeHeight]
    exact hrange.inPlace

theorem sign_cleans (h : key.WellFormed)
    (hok : e.sign key message .primary = (.ok signature, key')) :
    key'.index = key.index + 1 ∧ e.CleansRefilled key key.index key' := by
  by_cases hmatches : key.Matches e
  · rw [sign_eq ⟨hmatches, h⟩] at hok
    split_ifs at hok with hindex
    · have hnext := h.update hindex h.caches
      exact signCommitted_cleans hnext hok
    · cases hok
  · obtain ⟨part, hcheck⟩ := checkKey_of_not_matches h hmatches
    rw [sign, hcheck] at hok
    cases hok

end Engine

namespace Session

variable {e : Engine} {s s' : Session}

/-- Every operation keeps the key well formed. -/
theorem Step.wellFormed (hstep : Step e s s') (h : s.key.WellFormed) : s'.key.WellFormed := by
  cases hstep with
  | reserve hreserve => exact h.reserve hreserve
  | drop => exact h
  | commit => exact h
  | sign message selector => exact h.sign _ message selector
  | signCommitted c message selector => exact h.signCommitted _ c message selector
  | evict => exact h.evict _
  | reload hkey => exact PrivateKey.wellFormed_of_ofBytes hkey
  | restore _ hkey => exact Backup.wellFormed_of_read hkey

theorem Run.wellFormed {key : PrivateKey} (h : key.WellFormed) (hrun : Run e (start key) s) :
    s.key.WellFormed := by
  -- the induction is on the operations made
  induction hrun with
  | refl => exact h
  | tail _ hstep ih => exact hstep.wellFormed ih

/-- **Caches hold what later signatures need, and no more.** Cleaning is a cleaning pass, whatever
the caches hold. In every session that begins with a well-formed key, evicting under any engine is
such a pass up to the next index, and every signature under the primary digest, at the next index or
at a committed one, ends with such a pass over the caches that it refilled. -/
theorem caches_cleaned :
    (∀ (c : Caches) (policy : CachePolicy) (treeHeight layers next max : Nat),
      c.Pass policy treeHeight layers next max (c.clean policy treeHeight layers next max).1
        (c.clean policy treeHeight layers next max).2) ∧
    ∀ (e : Engine) (key : PrivateKey), key.WellFormed → ∀ s, Run e (start key) s → ∀ e' : Engine,
      (s.key.Matches e' → s.key.caches.InPlace e'.params.treeHeight) ∧
      ((e'.evict s.key).2.index = s.key.index ∧
        e'.Cleans s.key.caches (e'.evict s.key).1 (e'.evict s.key).2) ∧
      (∀ message signature key', e'.sign s.key message .primary = (.ok signature, key') →
        key'.index = s.key.index + 1 ∧ e'.CleansRefilled s.key s.key.index key') ∧
      ∀ committed message signature key',
        e'.signCommitted s.key committed message .primary = (.ok signature, key') →
        key'.index = s.key.index ∧ e'.CleansRefilled s.key committed.index key' := by
  refine ⟨Caches.pass_clean, fun e key hkey s hrun e' => ?_⟩
  have h := hrun.wellFormed hkey
  refine ⟨?_, ⟨rfl, e'.evict_cleans s.key⟩, ?_, ?_⟩
  · intro hmatches
    rw [← PrivateKey.MadeFor.treeHeight ⟨hmatches, h⟩]
    exact h.caches.inPlace
  · intro message signature key' hok
    exact Engine.sign_cleans h hok
  · intro committed message signature key' hok
    exact Engine.signCommitted_cleans h hok

/-- The full policy drops two of three nodes. A fresh key of `Engine.small` that has signed has
nothing left to drop. -/
theorem caches_cleaned_small :
    Caches.Pass .full 2 2 6 16 .twoTrees 2 (Caches.twoTrees.clean .full 2 2 6 16).2 ∧
    ∃ key signature key', Engine.small.generateFromSeeds (Bytes.zeros 32) (Bytes.zeros 32)
        (Bytes.zeros 32) ⟨Array.replicate 2 ⟨0, 0⟩⟩ = .ok (key, key.publicKey) ∧
      key.WellFormed ∧ Run Engine.small (start key) (start key) ∧
      Engine.small.sign key [] .primary = (.ok signature, key') ∧
      key'.index = 1 ∧ Engine.small.evict key' = (0, key') := by
  obtain ⟨hpass, hruns⟩ := caches_cleaned
  refine ⟨hpass .twoTrees .full 2 2 6 16, ?_⟩
  obtain ⟨key, hgen, hindex, -, -, hsound, -⟩ := Engine.generateFromSeeds_eq Engine.seedsFit_small
  have hlt : key.index < key.header.maxSignatures := by
    rw [hindex]
    exact Nat.two_pow_pos _
  obtain ⟨hselector, -⟩ | ⟨-, signature, caches, hout, -⟩ :=
    Engine.signCommitted_outcome_cases (hsound.advance hlt).toMadeFor
      (Engine.checkCommitted_next key) [] .primary
  · cases hselector
  · have hsign : Engine.small.sign key [] .primary = (.ok signature,
        { key with index := key.index + 1, caches }) := by
      rw [Engine.sign_eq hsound.toMadeFor, if_pos hlt]
      exact hout
    have hrun : Run Engine.small (start key) (start key) := Relation.ReflTransGen.refl
    obtain ⟨-, -, hafter, -⟩ := hruns Engine.small key hsound.wellFormed _ hrun Engine.small
    obtain ⟨-, _, _, -, -, -, hagain⟩ := hafter _ _ _ hsign
    refine ⟨key, signature, _, hgen, hsound.wellFormed, hrun, hsign, ?_, hagain⟩
    show key.index + 1 = 1
    rw [hindex]

end Session

end Hypertree
