import Mathlib

/-!
# Lists of keys and values

Files by their places and pooled objects by their holders are kept in lists of pairs. Looking up a
key after the entries of another were taken out (`lookup_filter_ne`) or changed (`lookup_map_at`)
gives what it gave before.
-/

namespace Hypertree.Association

variable {κ α : Type} [DecidableEq κ]

theorem lookup_filter_ne [BEq κ] [LawfulBEq κ] (entries : List (κ × α)) (key other : κ) :
    (entries.filter fun e => e.1 != key).lookup other
      = if other = key then none else entries.lookup other := by
  induction entries with
  | nil => simp
  | cons e entries ih =>
    obtain ⟨entry, value⟩ := e
    grind

/-- Changing the value of one key changes what is found there and nowhere else. -/
theorem lookup_map_at (entries : List (κ × α)) (key other : κ) (f : α → α) :
    (entries.map fun e => if e.1 = key then (e.1, f e.2) else e).lookup other
      = if other = key then (entries.lookup other).map f else entries.lookup other := by
  induction entries with
  | nil => simp
  | cons e entries ih =>
    obtain ⟨entry, value⟩ := e
    grind

theorem keys_map_at (entries : List (κ × α)) (key : κ) (f : α → α) :
    (entries.map fun e => if e.1 = key then (e.1, f e.2) else e).map Prod.fst
      = entries.map Prod.fst := by
  rw [List.map_map]
  refine List.map_congr_left fun e _ => ?_
  rw [Function.comp_apply]
  split <;> rfl

theorem toFinset_keys_filter_ne (entries : List (κ × α)) (key : κ) :
    ((entries.filter fun e => e.1 != key).map Prod.fst).toFinset
      = (entries.map Prod.fst).toFinset.erase key := by
  ext other
  simp only [List.mem_toFinset, List.mem_map, List.mem_filter, bne_iff_ne, Finset.mem_erase]
  grind

end Hypertree.Association
