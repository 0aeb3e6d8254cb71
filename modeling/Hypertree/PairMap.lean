/-!
# Finite maps on pairs of numbers

Tree nodes are found by height and index, tree caches by layer and tree. Both are maps whose keys
are pairs of numbers, and both are written out in the lexicographic order of their keys. A `PairMap`
is the list of its entries in that order, each key once, so equal maps are equal lists.
-/

namespace Hypertree

/-- The lexicographic order of pairs. -/
def Precedes (p q : Nat × Nat) : Prop :=
  p.1 < q.1 ∨ (p.1 = q.1 ∧ p.2 < q.2)

instance (p q : Nat × Nat) : Decidable (Precedes p q) :=
  inferInstanceAs (Decidable (_ ∨ _))

namespace Precedes

theorem trans {p q r : Nat × Nat} (h : Precedes p q) (h' : Precedes q r) : Precedes p r := by
  unfold Precedes at *
  omega

theorem irrefl (p : Nat × Nat) : ¬ Precedes p p := by
  unfold Precedes
  omega

/-- Two different pairs come one before the other. -/
theorem of_not {p q : Nat × Nat} (h : ¬ Precedes p q) (hne : p ≠ q) : Precedes q p := by
  obtain ⟨p₁, p₂⟩ := p
  obtain ⟨q₁, q₂⟩ := q
  simp only [Precedes, ne_eq, Prod.mk.injEq] at *
  omega

end Precedes

/-- Entries in strictly increasing order of their keys. -/
def Ascending {α : Type} (entries : List ((Nat × Nat) × α)) : Prop :=
  entries.Pairwise fun a b => Precedes a.1 b.1

/-- A finite map from pairs of numbers. -/
structure PairMap (α : Type) where
  /-- The entries in the order of their keys. -/
  entries : List ((Nat × Nat) × α)
  /-- No key occurs twice, and the keys ascend. -/
  ascending : Ascending entries

namespace PairMap

variable {α β : Type}

/-- The map without entries. -/
def empty : PairMap α :=
  ⟨[], List.Pairwise.nil⟩

instance : Inhabited (PairMap α) := ⟨empty⟩

@[ext]
theorem ext_entries {m m' : PairMap α} (h : m.entries = m'.entries) : m = m' := by
  cases m
  cases m'
  cases h
  rfl

/-- The number of entries. -/
def size (m : PairMap α) : Nat :=
  m.entries.length

/-- The value of a key. -/
def get? (m : PairMap α) (key : Nat × Nat) : Option α :=
  (m.entries.find? fun e => e.1 = key).map (·.2)

/-- The entries with a value added at its place, or replaced. -/
def insertEntry (key : Nat × Nat) (value : α) :
    List ((Nat × Nat) × α) → List ((Nat × Nat) × α)
  | [] => [(key, value)]
  | e :: rest =>
    if Precedes key e.1 then (key, value) :: e :: rest
    else if key = e.1 then (key, value) :: rest
    else e :: insertEntry key value rest

theorem mem_insertEntry {key : Nat × Nat} {value : α} {e : (Nat × Nat) × α}
    {entries : List ((Nat × Nat) × α)} (h : e ∈ insertEntry key value entries) :
    e = (key, value) ∨ e ∈ entries := by
  induction entries with
  | nil => simpa [insertEntry] using h
  | cons head tail ih =>
    simp only [insertEntry] at h
    split at h
    · simpa using h
    · split at h
      · simp only [List.mem_cons] at h ⊢
        rcases h with h | h
        · exact .inl h
        · exact .inr (.inr h)
      · simp only [List.mem_cons] at h ⊢
        rcases h with h | h
        · exact .inr (.inl h)
        · rcases ih h with h | h
          · exact .inl h
          · exact .inr (.inr h)

theorem ascending_insertEntry (key : Nat × Nat) (value : α) {entries : List ((Nat × Nat) × α)}
    (h : Ascending entries) : Ascending (insertEntry key value entries) := by
  induction entries with
  | nil => exact List.pairwise_singleton _ _
  | cons head tail ih =>
    obtain ⟨hhead, htail⟩ := List.pairwise_cons.mp h
    simp only [insertEntry]
    split
    -- the new entry goes in front of the head
    next hlt =>
      refine List.Pairwise.cons (fun e he => ?_) h
      rcases List.mem_cons.mp he with rfl | he
      · exact hlt
      · exact hlt.trans (hhead e he)
    next hlt =>
      split
      next heq =>
        subst heq
        exact List.Pairwise.cons (fun e he => hhead e he) htail
      -- it goes behind the head, which precedes all that follows
      next hne =>
        refine List.Pairwise.cons (fun e he => ?_) (ih htail)
        rcases mem_insertEntry he with rfl | he
        · exact Precedes.of_not hlt hne
        · exact hhead e he

/-- The map with a value added, in place of the one its key had. -/
def insert (m : PairMap α) (key : Nat × Nat) (value : α) : PairMap α :=
  ⟨insertEntry key value m.entries, ascending_insertEntry key value m.ascending⟩

/-- The map with a value added, unless its key has one. -/
def insertNew (m : PairMap α) (key : Nat × Nat) (value : α) : PairMap α :=
  if (m.get? key).isSome then m else m.insert key value

/-- The entries for which `f` has a value, with that value. -/
def filterMap (m : PairMap α) (f : Nat × Nat → α → Option β) : PairMap β where
  entries := m.entries.filterMap fun e => (f e.1 e.2).map (e.1, ·)
  ascending := by
    refine List.Pairwise.filterMap _ (fun a b hab c hc d hd => ?_) m.ascending
    obtain ⟨v, _, rfl⟩ := Option.map_eq_some_iff.mp hc
    obtain ⟨w, _, rfl⟩ := Option.map_eq_some_iff.mp hd
    exact hab

/-- The entries with keys that satisfy a condition. -/
def filter (m : PairMap α) (keep : Nat × Nat → Bool) : PairMap α where
  entries := m.entries.filter fun e => keep e.1
  ascending := m.ascending.filter _

/-- The values in the order of their keys. -/
def values (m : PairMap α) : List α :=
  m.entries.map (·.2)

end PairMap

end Hypertree
