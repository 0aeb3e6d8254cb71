import Hypertree.PairMap
import Mathlib

/-!
# Looking up entries of a map on pairs

A key of a `PairMap` has at most one entry, so looking it up says whether an entry is there
(`get?_eq_some_iff`). What each operation does to the map is then one equation on `get?`, and maps
with the same values are equal (`ext_get?`).

`insertEntry_of_precedes` is for readers that meet the entries in their order: an entry that comes
after all others is added at the end.
-/

namespace Hypertree.PairMap

variable {α β : Type}

/-- The order of entries is that of their keys. -/
theorem ascending_iff_keys {entries : List ((Nat × Nat) × α)} :
    Ascending entries ↔ (entries.map Prod.fst).Pairwise Precedes :=
  List.pairwise_map.symm

/-- Entries in order with one key are one entry. -/
theorem eq_of_mem {entries : List ((Nat × Nat) × α)} (h : Ascending entries)
    {key : Nat × Nat} {v w : α} (hv : (key, v) ∈ entries) (hw : (key, w) ∈ entries) : v = w := by
  induction entries with
  | nil => simp at hv
  | cons e entries ih =>
    obtain ⟨he, hrest⟩ := List.pairwise_cons.mp h
    rw [List.mem_cons] at hv hw
    -- an entry elsewhere in the list has a later key than the first
    rcases hv with rfl | hv <;> rcases hw with hw | hw
    · exact (Prod.mk.inj hw).2.symm
    · exact absurd (he _ hw) (Precedes.irrefl _)
    · rw [← hw] at he
      exact absurd (he _ hv) (Precedes.irrefl _)
    · exact ih hrest hv hw

/-- A key is mapped to a value if the map has an entry of them. -/
theorem get?_eq_some_iff {m : PairMap α} {key : Nat × Nat} {v : α} :
    m.get? key = some v ↔ (key, v) ∈ m.entries := by
  rw [get?, Option.map_eq_some_iff]
  constructor
  · rintro ⟨e, he, rfl⟩
    have hkey : e.1 = key := by simpa using List.find?_some he
    rw [← hkey]
    exact List.mem_of_find?_eq_some he
  · intro h
    obtain ⟨e, he⟩ : ∃ e, m.entries.find? (fun e => e.1 = key) = some e :=
      Option.isSome_iff_exists.mp (List.find?_isSome.mpr ⟨_, h, by simp⟩)
    have hkey : e.1 = key := by simpa using List.find?_some he
    have hmem : (key, e.2) ∈ m.entries := hkey ▸ List.mem_of_find?_eq_some he
    exact ⟨e, he, eq_of_mem m.ascending hmem h⟩

@[simp]
theorem get?_empty (key : Nat × Nat) : (empty : PairMap α).get? key = none := rfl

theorem mem_insertEntry_iff {key : Nat × Nat} {value : α} {entries : List ((Nat × Nat) × α)}
    (h : Ascending entries) {e : (Nat × Nat) × α} :
    e ∈ insertEntry key value entries ↔ e = (key, value) ∨ (e ∈ entries ∧ e.1 ≠ key) := by
  induction entries with
  | nil => simp [insertEntry]
  | cons head tail ih =>
    obtain ⟨hhead, htail⟩ := List.pairwise_cons.mp h
    rw [insertEntry]
    split_ifs with hlt heq
    · -- the new key comes first, so it is no other entry's
      have hne : ∀ e ∈ head :: tail, e.1 ≠ key := by
        rintro e he rfl
        rcases List.mem_cons.mp he with rfl | he
        · exact Precedes.irrefl _ hlt
        · exact Precedes.irrefl _ (hlt.trans (hhead e he))
      rw [List.mem_cons]
      exact or_congr_right ⟨fun he => ⟨he, hne e he⟩, And.left⟩
    · -- the entry of the key is replaced
      have hne : ∀ e ∈ tail, e.1 ≠ key := by
        rintro e he hkey
        exact Precedes.irrefl _ (heq ▸ hkey ▸ hhead e he)
      rw [List.mem_cons, List.mem_cons]
      refine or_congr_right ⟨fun he => ⟨Or.inr he, hne e he⟩, ?_⟩
      rintro ⟨rfl | he, hkey⟩
      · exact absurd heq.symm hkey
      · exact he
    · -- the new key comes later
      rw [List.mem_cons, ih htail, List.mem_cons]
      constructor
      · rintro (rfl | rfl | ⟨he, hkey⟩)
        · exact Or.inr ⟨Or.inl rfl, Ne.symm heq⟩
        · exact Or.inl rfl
        · exact Or.inr ⟨Or.inr he, hkey⟩
      · rintro (rfl | ⟨rfl | he, hkey⟩)
        · exact Or.inr (Or.inl rfl)
        · exact Or.inl rfl
        · exact Or.inr (Or.inr ⟨he, hkey⟩)

theorem get?_insert (m : PairMap α) (key key' : Nat × Nat) (value : α) :
    (m.insert key value).get? key' = if key' = key then some value else m.get? key' := by
  ext v
  rw [get?_eq_some_iff, insert, mem_insertEntry_iff m.ascending]
  split_ifs with h
  · simp [h, eq_comm]
  · simp [h, get?_eq_some_iff]

theorem get?_insertNew (m : PairMap α) (key key' : Nat × Nat) (value : α) :
    (m.insertNew key value).get? key'
      = if key' = key then some ((m.get? key).getD value) else m.get? key' := by
  unfold insertNew
  cases hv : m.get? key with
  | none =>
    rw [Option.isSome_none, if_neg Bool.false_ne_true, get?_insert, Option.getD_none]
  | some v =>
    rw [Option.isSome_some, if_pos rfl, Option.getD_some]
    split_ifs with h
    · rw [h, hv]
    · rfl

theorem get?_filter (m : PairMap α) (keep : Nat × Nat → Bool) (key : Nat × Nat) :
    (m.filter keep).get? key = if keep key then m.get? key else none := by
  ext v
  rw [get?_eq_some_iff, filter, List.mem_filter]
  split_ifs with h <;> simp [h, get?_eq_some_iff]

theorem get?_filterMap (m : PairMap α) (f : Nat × Nat → α → Option β) (key : Nat × Nat) :
    (m.filterMap f).get? key = (m.get? key).bind (f key) := by
  ext v
  rw [get?_eq_some_iff, filterMap, List.mem_filterMap, Option.bind_eq_some_iff]
  constructor
  · rintro ⟨e, he, hf⟩
    obtain ⟨w, hw, heq⟩ := Option.map_eq_some_iff.mp hf
    obtain ⟨rfl, rfl⟩ := Prod.mk.inj heq
    exact ⟨e.2, get?_eq_some_iff.mpr he, hw⟩
  · rintro ⟨u, hu, hf⟩
    exact ⟨(key, u), get?_eq_some_iff.mp hu, by rw [hf]; rfl⟩

theorem size_filter_le (m : PairMap α) (keep : Nat × Nat → Bool) : (m.filter keep).size ≤ m.size :=
  List.length_filter_le _ _

/-- A condition that all keys satisfy drops nothing. -/
theorem filter_eq_self {m : PairMap α} {keep : Nat × Nat → Bool}
    (h : ∀ e ∈ m.entries, keep e.1) : m.filter keep = m :=
  ext_entries (List.filter_eq_self.mpr h)

theorem filterMap_eq_self {m : PairMap α} {f : Nat × Nat → α → Option α}
    (h : ∀ e ∈ m.entries, f e.1 e.2 = some e.2) : m.filterMap f = m := by
  refine ext_entries ((List.filterMap_congr fun e he => ?_).trans List.filterMap_some)
  rw [h e he]
  rfl

/-- An entry that comes after all others is added at the end. -/
theorem insertEntry_of_precedes {key : Nat × Nat} (value : α) {entries : List ((Nat × Nat) × α)}
    (h : ∀ e ∈ entries, Precedes e.1 key) :
    insertEntry key value entries = entries ++ [(key, value)] := by
  induction entries with
  | nil => rfl
  | cons e entries ih =>
    have he : Precedes e.1 key := h e List.mem_cons_self
    have hrest : ∀ e' ∈ entries, Precedes e'.1 key := fun e' he' =>
      h e' (List.mem_cons_of_mem _ he')
    have hlt : ¬ Precedes key e.1 := fun hlt => Precedes.irrefl _ (hlt.trans he)
    have hne : key ≠ e.1 := by
      intro heq
      rw [← heq] at he
      exact Precedes.irrefl key he
    rw [insertEntry, if_neg hlt, if_neg hne, ih hrest, List.cons_append]

theorem nodup_keys (m : PairMap α) : (m.entries.map Prod.fst).Nodup := by
  refine (ascending_iff_keys.mp m.ascending).imp ?_
  rintro a _ hlt rfl
  exact Precedes.irrefl _ hlt

/-- A map has no more entries than there are keys it could have. -/
theorem size_le_card {m : PairMap α} {keys : Finset (Nat × Nat)}
    (h : ∀ e ∈ m.entries, e.1 ∈ keys) : m.size ≤ keys.card := by
  rw [size, ← List.length_map Prod.fst, ← List.toFinset_card_of_nodup m.nodup_keys]
  apply Finset.card_le_card
  intro key hkey
  obtain ⟨e, he, rfl⟩ := List.mem_map.mp (List.mem_toFinset.mp hkey)
  exact h e he

/-- Maps with the same values are equal, as entries have one order. -/
theorem ext_get? {m m' : PairMap α} (h : ∀ key, m.get? key = m'.get? key) : m = m' := by
  have hperm : m.entries.Perm m'.entries := by
    refine (List.perm_ext_iff_of_nodup m.nodup_keys.of_map m'.nodup_keys.of_map).mpr fun e => ?_
    rw [← get?_eq_some_iff, ← get?_eq_some_iff, h]
  refine ext_entries (hperm.eq_of_pairwise (fun a b _ _ hab hba => ?_) m.ascending m'.ascending)
  exact absurd (hab.trans hba) (Precedes.irrefl _)

end Hypertree.PairMap
