import Hypertree.Params
import Hypertree.Proofs.OneTime.Digits

/-!
# Valid parameters

`Params.validate_eq_ok_iff` says what parameters satisfy that pass every check: a valid header, a
supported chain length and a cache policy in range. The facts that trees and one-time keys need of a
header follow from `Header.Valid`.

The second half is about indices. In base `2 ^ h'` the leaves that an index uses are its digits and
the trees what is left above them, so the tree of a layer is the leaf number of the next layer
within the tree above (`treeIndex_eq`), and the tree of the top layer is the only one there
(`treeIndex_top`).
-/

namespace Hypertree

/-- What a header satisfies that passes every check. -/
structure Header.Valid (p : Header) : Prop where
  two_le_height : 2 ≤ p.height
  height_le : p.height ≤ 60
  layers_pos : 1 ≤ p.layers
  layers_le : p.layers ≤ 12
  height_mod : p.height % p.layers = 0
  treeHeight_pos : 1 ≤ p.treeHeight
  treeHeight_le : p.treeHeight ≤ 20
  nonceExponent_le : p.nonceExponent ≤ 32
  backup_ne : ∀ d, p.backupDigest = some d → d ≠ p.digest
  backup_size : ∀ d, p.backupDigest = some d → d.size = p.digest.size

/-- An operation of two parts succeeds if the first does and the second does with its result. -/
theorem bind_eq_ok_iff {ε α β : Type} {x : Except ε α} {f : α → Except ε β} {v : β} :
    (x >>= f) = .ok v ↔ ∃ u, x = .ok u ∧ f u = .ok v := by
  cases x with
  | error e => exact iff_of_false (fun h => nomatch h) fun ⟨_, h, _⟩ => nomatch h
  | ok u => exact ⟨fun h => ⟨u, rfl, h⟩, fun ⟨_, hu, h⟩ => Except.ok.inj hu ▸ h⟩

/-- What is left when the error is forgotten. -/
theorem toOption_eq_some_iff {ε α : Type} {x : Except ε α} {v : α} :
    x.toOption = some v ↔ x = .ok v := by
  cases x with
  | error e => exact iff_of_false (fun h => by cases h) fun h => by cases h
  | ok u => exact ⟨fun h => congrArg Except.ok (Option.some.inj h), fun h => h ▸ rfl⟩

/-- An operation whose errors are named anew succeeds with the same results. -/
theorem mapError_eq_ok_iff {ε ε' α : Type} {f : ε → ε'} {x : Except ε α} {v : α} :
    x.mapError f = .ok v ↔ x = .ok v := by
  cases x <;> simp [Except.mapError]

/-- A check that stands before the rest of an operation: the operation succeeds if the check holds
and the rest succeeds. -/
theorem guard_eq_ok_iff {α : Type} {c : Prop} [Decidable c] {err : Error}
    {rest : PUnit → Except Error α} {v : α} :
    (if c then rest () else do let r ← throw err; rest r) = .ok v ↔ c ∧ rest () = .ok v := by
  by_cases h : c
  · rw [if_pos h]
    exact (and_iff_right h).symm
  · rw [if_neg h]
    simp [h, bind, Except.bind, throw, throwThe, MonadExceptOf.throw]

/-- The same for the last check of an operation. -/
theorem guard_pure_eq_ok_iff {c : Prop} [Decidable c] {err : Error} :
    (if c then pure () else throw err : Except Error Unit) = .ok () ↔ c := by
  by_cases h : c <;> simp [h, pure, Except.pure, throw, throwThe, MonadExceptOf.throw]

/-- What is left of the checks after that of the cache policy. -/
theorem backup_guard_iff {p : Header} :
    (match p.backupDigest with
      | none => pure ()
      | some backup => do
        unless backup ≠ p.digest do
          throw (.invalidParameter .backupSameHash)
        unless backup.size = p.digest.size do
          throw (.invalidParameter .backupOutputSize) : Except Error Unit) = .ok () ↔
      ∀ d, p.backupDigest = some d → d ≠ p.digest ∧ d.size = p.digest.size := by
  cases hb : p.backupDigest with
  | none => exact iff_of_true rfl fun d h => nomatch h
  | some d =>
    refine (guard_eq_ok_iff.trans (and_congr_right' guard_pure_eq_ok_iff)).trans ⟨?_, ?_⟩
    · rintro h d' ⟨⟩
      exact h
    · intro h
      exact h d rfl

/-- The check of the cache policy and what comes after it. -/
theorem cache_guard_iff {cache : CachePolicy} {rest : PUnit → Except Error Unit} :
    (match cache with
      | .auto levels =>
        if levels ≤ maxTreeHeight then rest ()
        else do let r ← throw (Error.invalidParameter .cacheLevels); rest r
      | .full => rest ()
      | .disabled => rest ()) = .ok () ↔
      (∀ levels, cache = .auto levels → levels ≤ 20) ∧ rest () = .ok () := by
  cases cache with
  | auto levels =>
    refine guard_eq_ok_iff.trans (and_congr_left' ⟨?_, fun h => h levels rfl⟩)
    rintro h levels' ⟨⟩
    exact h
  | full => exact (and_iff_right fun levels h => nomatch h).symm
  | disabled => exact (and_iff_right fun levels h => nomatch h).symm

theorem Params.validate_eq_ok_iff (p : Params) :
    p.validate = .ok () ↔ p.toHeader.Valid ∧
      (p.winternitz = 4 ∨ p.winternitz = 16 ∨ p.winternitz = 256) ∧
      ∀ levels, p.cache = .auto levels → levels ≤ 20 := by
  unfold validate
  constructor
  · -- the checks one after another, each leaving the rest of the operation
    intro h
    obtain ⟨hheight, h⟩ := guard_eq_ok_iff.mp h
    obtain ⟨hlayers, h⟩ := guard_eq_ok_iff.mp h
    obtain ⟨hmod, h⟩ := guard_eq_ok_iff.mp h
    obtain ⟨htree, h⟩ := guard_eq_ok_iff.mp h
    obtain ⟨hw, h⟩ := guard_eq_ok_iff.mp h
    obtain ⟨hlevels, h⟩ := cache_guard_iff.mp h
    obtain ⟨hnonce, h⟩ := guard_eq_ok_iff.mp h
    have hbackup := backup_guard_iff.mp h
    exact ⟨⟨hheight.1, hheight.2, hlayers.1, hlayers.2, hmod, htree.1, htree.2, hnonce,
      fun d hd => (hbackup d hd).1, fun d hd => (hbackup d hd).2⟩, hw, hlevels⟩
  · rintro ⟨h, hw, hlevels⟩
    refine guard_eq_ok_iff.mpr ⟨⟨h.two_le_height, h.height_le⟩, ?_⟩
    refine guard_eq_ok_iff.mpr ⟨⟨h.layers_pos, h.layers_le⟩, ?_⟩
    refine guard_eq_ok_iff.mpr ⟨h.height_mod, ?_⟩
    refine guard_eq_ok_iff.mpr ⟨⟨h.treeHeight_pos, h.treeHeight_le⟩, ?_⟩
    refine guard_eq_ok_iff.mpr ⟨hw, cache_guard_iff.mpr ⟨hlevels, ?_⟩⟩
    refine guard_eq_ok_iff.mpr ⟨h.nonceExponent_le, ?_⟩
    exact backup_guard_iff.mpr fun d hd => ⟨h.backup_ne d hd, h.backup_size d hd⟩

/-- With everything else at its default, a valid header passes every check. -/
theorem Header.Valid.validate_eq {header : Header} (hv : header.Valid) :
    ({ toHeader := header } : Params).validate = .ok () := by
  rw [Params.validate_eq_ok_iff]
  refine ⟨hv, Or.inr (Or.inl rfl), ?_⟩
  intro levels hlevels
  cases hlevels
  decide

/-- The valid headers are those that pass every check. -/
theorem Header.valid_iff_validate {header : Header} :
    header.Valid ↔ ({ toHeader := header } : Params).validate = .ok () :=
  ⟨Valid.validate_eq, fun h => ((Params.validate_eq_ok_iff _).mp h).1⟩

/-! ### One-time keys -/

/-- The sizes of digests and the supported chain lengths give valid one-time keys. -/
theorem Winternitz.valid_of_size (d : Digest) {w : Nat} (hw : w = 4 ∨ w = 16 ∨ w = 256) :
    Winternitz.Valid ⟨d.size, w⟩ := by
  refine ⟨hw, d.size_pos, ?_⟩
  rcases hw with rfl | rfl | rfl <;> cases d <;> decide

/-- One-time signatures are short. -/
theorem Winternitz.signatureBytes_le (d : Digest) {w : Nat} (hw : w = 4 ∨ w = 16 ∨ w = 256) :
    Winternitz.signatureBytes ⟨d.size, w⟩ ≤ 2 ^ 20 := by
  rcases hw with rfl | rfl | rfl <;> cases d <;> decide

/-! ### Trees and leaves of an index -/

theorem Header.Valid.layers_mul_treeHeight {p : Header} (h : p.Valid) :
    p.layers * p.treeHeight = p.height :=
  Nat.mul_div_cancel' (Nat.dvd_of_mod_eq_zero h.height_mod)

theorem leafIndex_lt (index layer height : Nat) : leafIndex index layer height < 2 ^ height :=
  lt_of_le_of_lt (Nat.mod_le _ _) (Nat.mod_lt _ (Nat.two_pow_pos _))

theorem leafIndex_eq {height : Nat} (hh : height ≤ 32) (index layer : Nat) :
    leafIndex index layer height = index / 2 ^ (layer * height) % 2 ^ height := by
  unfold leafIndex
  rw [Nat.shiftRight_eq_div_pow]
  apply Nat.mod_eq_of_lt
  exact lt_of_lt_of_le (Nat.mod_lt _ (Nat.two_pow_pos _)) (Nat.pow_le_pow_right two_pos hh)

theorem treeIndex_eq_div (index layer height : Nat) :
    treeIndex index layer height = index / 2 ^ ((layer + 1) * height) :=
  Nat.shiftRight_eq_div_pow ..

/-- What a layer sees of an index is a leaf within its tree. -/
theorem div_eq_tree_leaf {height : Nat} (hh : height ≤ 32) (index layer : Nat) :
    index / 2 ^ (layer * height)
      = treeIndex index layer height * 2 ^ height + leafIndex index layer height := by
  rw [leafIndex_eq hh, treeIndex_eq_div, Nat.succ_mul, pow_add, ← Nat.div_div_eq_div_mul,
    Nat.div_add_mod']

/-- A tree is the leaf of the layer above within the tree there. -/
theorem treeIndex_eq {height : Nat} (hh : height ≤ 32) (index layer : Nat) :
    treeIndex index layer height
      = treeIndex index (layer + 1) height * 2 ^ height + leafIndex index (layer + 1) height := by
  rw [← div_eq_tree_leaf hh, treeIndex_eq_div]

/-- An index is the leaf of the bottom layer within its tree. -/
theorem index_eq {height : Nat} (hh : height ≤ 32) (index : Nat) :
    index = treeIndex index 0 height * 2 ^ height + leafIndex index 0 height := by
  rw [← div_eq_tree_leaf hh, zero_mul, pow_zero, Nat.div_one]

theorem treeIndex_lt {index layer height layers : Nat} (hlayer : layer < layers)
    (h : index < 2 ^ (layers * height)) :
    treeIndex index layer height < 2 ^ (layers * height - (layer + 1) * height) := by
  rw [treeIndex_eq_div, Nat.div_lt_iff_lt_mul (Nat.two_pow_pos _), ← pow_add,
    Nat.sub_add_cancel (Nat.mul_le_mul_right _ hlayer)]
  exact h

/-- The top layer has one tree. -/
theorem treeIndex_top {index height layers : Nat} (h : index < 2 ^ (layers * height))
    (hpos : 0 < layers) : treeIndex index (layers - 1) height = 0 := by
  have hlt := treeIndex_lt (Nat.sub_lt hpos one_pos) h
  rw [Nat.sub_add_cancel (show 1 ≤ layers from hpos), Nat.sub_self, pow_zero] at hlt
  exact Nat.lt_one_iff.mp hlt

end Hypertree
