import Hypertree.Proofs.Merkle.Eviction
import Hypertree.Proofs.Merkle.Tree

/-!
# Caches that hold a whole tree

A tree that is computed into an empty cache leaves all its nodes there, if the policy keeps
whatever it is offered (`Tree.root_complete`); the full policy does as long as no leaf has been used
(`CachePolicy.keeps_full_zero`). A node that is found is not computed, and neither are those below
it, so this needs more than that every computed node is offered. What carries the induction on the
height is that a cache which holds a node holds its children (`NodeCache.ClosedDown`): children are
offered before their parent.
-/

namespace Hypertree

/-- Before any leaf has been used, the full policy keeps every node. -/
theorem CachePolicy.keeps_full_zero (treeHeight z i : Nat) :
    CachePolicy.full.keeps treeHeight 0 z i = true := by
  simp [keeps, isReachable]

namespace NodeCache

/-- With a node, both its children are held. -/
def ClosedDown (c : NodeCache) : Prop :=
  ∀ z i, (c.get? (z + 1) i).isSome → (c.get? z (2 * i)).isSome ∧ (c.get? z (2 * i + 1)).isSome

/-- Below a root that is held, everything is. -/
theorem ClosedDown.isSome {c : NodeCache} (hc : c.ClosedDown) {height z i : Nat}
    (hroot : (c.get? height 0).isSome) (hz : z ≤ height) (hi : i < 2 ^ (height - z)) :
    (c.get? z i).isSome := by
  -- from the root down, a level at a time
  induction hz using Nat.decreasingInduction generalizing i with
  | self =>
    rw [Nat.sub_self, pow_zero, Nat.lt_one_iff] at hi
    rwa [hi]
  | of_succ z hlt ih =>
    have hpow := Tree.two_pow_sub hlt
    obtain ⟨hleft, hright⟩ := hc z (i / 2) (ih (by omega))
    rcases Nat.even_or_odd' i with ⟨k, rfl | rfl⟩
    · rwa [Nat.mul_div_cancel_left k two_pos] at hleft
    · rwa [Nat.mul_add_div two_pos, Nat.add_zero] at hright

/-- What a computation makes of a cache that keeps whatever it is offered. -/
structure Grows (c c' : NodeCache) : Prop where
  cursor_eq : c'.cursor = c.cursor
  isSome : ∀ z i, (c.get? z i).isSome → (c'.get? z i).isSome
  closedDown : c.ClosedDown → c'.ClosedDown

theorem Grows.refl (c : NodeCache) : c.Grows c :=
  ⟨rfl, fun _ _ h => h, id⟩

theorem Grows.trans {c c' c'' : NodeCache} (h : c.Grows c') (h' : c'.Grows c'') : c.Grows c'' :=
  ⟨h'.cursor_eq.trans h.cursor_eq, fun z i hget => h'.isSome z i (h.isSome z i hget),
    fun hc => h'.closedDown (h.closedDown hc)⟩

/-- What is found after a node was offered and kept. -/
theorem isSome_offer {c : NodeCache} {policy : CachePolicy} {treeHeight z i : Nat}
    (hkeeps : policy.keeps treeHeight c.cursor z i = true) (x : Bytes) (z' i' : Nat) :
    ((c.offer policy treeHeight z i x).2.get? z' i').isSome ↔
      z' = z ∧ i' = i ∨ (c.get? z' i').isSome := by
  rw [get?_offer]
  by_cases hplace : z' = z ∧ i' = i
  · rw [if_pos ⟨hkeeps, hplace⟩]
    exact iff_of_true rfl (Or.inl hplace)
  · rw [if_neg fun h => hplace h.2]
    exact (or_iff_right fun h => hplace ⟨h.1, h.2⟩).symm

/-- A node is offered once its children are there. -/
theorem grows_offer {c : NodeCache} {policy : CachePolicy} {treeHeight z i : Nat}
    (hkeeps : policy.keeps treeHeight c.cursor z i = true) (x : Bytes)
    (hchildren : ∀ below, z = below + 1 →
      (c.get? below (2 * i)).isSome ∧ (c.get? below (2 * i + 1)).isSome) :
    c.Grows (c.offer policy treeHeight z i x).2 where
  cursor_eq := cursor_offer ..
  isSome z' i' hget := (isSome_offer hkeeps x z' i').mpr (Or.inr hget)
  closedDown hc z' i' hget := by
    have hheld : (c.get? z' (2 * i')).isSome ∧ (c.get? z' (2 * i' + 1)).isSome := by
      rcases (isSome_offer hkeeps x _ _).mp hget with ⟨hz, rfl⟩ | hold
      · exact hchildren z' hz.symm
      · exact hc z' i' hold
    exact ⟨(isSome_offer hkeeps x _ _).mpr (Or.inr hheld.1),
      (isSome_offer hkeeps x _ _).mpr (Or.inr hheld.2)⟩

end NodeCache

namespace Tree

variable {t : Tree}

/-- Both children have to succeed for their parent to have a value. -/
theorem of_offer_parent {z i : Nat} {left right : Except Error Bytes} {x : Bytes}
    {cache cache' : Option NodeCache}
    (h : t.offer (z + 1) i (t.parent z i left right) cache = (.ok x, cache')) :
    ∃ l r, left = .ok l ∧ right = .ok r := by
  cases left with
  | error e => cases h
  | ok l =>
    cases right with
    | error e => cases h
    | ok r => exact ⟨l, r, rfl, rfl⟩

section

variable {cursor : Nat} (hpolicy : ∀ z i, t.setting.params.cache.keeps t.height cursor z i = true)

include hpolicy

/-- A computed node that is offered with its children in the cache. -/
theorem offer_grows {c : NodeCache} (hc : c.cursor = cursor) {z i : Nat}
    (hchildren : ∀ below, z = below + 1 →
      (c.get? below (2 * i)).isSome ∧ (c.get? below (2 * i + 1)).isSome)
    {node : Except Error Bytes} {x : Bytes} {cache : Option NodeCache}
    (h : t.offer z i node (some c) = (.ok x, cache)) :
    ∃ c', cache = some c' ∧ c.Grows c' ∧ (c'.get? z i).isSome := by
  cases node with
  | error e => cases h
  | ok y =>
    obtain ⟨-, rfl⟩ := Prod.mk.inj h
    -- the policy keeps every node while the cursor stands where it does
    have hkeeps : t.setting.params.cache.keeps t.height c.cursor z i = true := hc ▸ hpolicy z i
    exact ⟨_, rfl, NodeCache.grows_offer hkeeps y hchildren,
      (NodeCache.isSome_offer hkeeps y z i).mpr (Or.inl ⟨rfl, rfl⟩)⟩

/-- **A node that has been computed is in the cache**, and the cache still holds the children of
every node that it holds. -/
theorem node_grows {z : Nat} : ∀ {i : Nat} {c : NodeCache}, c.cursor = cursor →
    ∀ {x : Bytes} {cache : Option NodeCache}, t.node z i (some c) = (.ok x, cache) →
      ∃ c', cache = some c' ∧ c.Grows c' ∧ (c'.get? z i).isSome := by
  -- the induction is on the height; the cursor, on which the policy depends, stays where it is
  induction z with
  | zero =>
    intro i c hc x cache h
    rw [node, Option.bind_some] at h
    cases hget : c.get? 0 i with
    | some kept =>
      rw [hget] at h
      obtain ⟨-, rfl⟩ := Prod.mk.inj h
      exact ⟨c, rfl, .refl c, by rw [hget]; rfl⟩
    | none =>
      rw [hget] at h
      exact offer_grows hpolicy hc (fun _ hz => absurd hz (by omega)) h
  | succ z ih =>
    intro i c hc x cache h
    rw [node, Option.bind_some] at h
    cases hget : c.get? (z + 1) i with
    | some kept =>
      rw [hget] at h
      obtain ⟨-, rfl⟩ := Prod.mk.inj h
      exact ⟨c, rfl, .refl c, by rw [hget]; rfl⟩
    | none =>
      rw [hget] at h
      obtain ⟨left, cache₁, hleft⟩ : ∃ left cache₁, t.node z (2 * i) (some c) = (left, cache₁) :=
        ⟨_, _, rfl⟩
      obtain ⟨right, cache₂, hright⟩ :
          ∃ right cache₂, t.node z (2 * i + 1) cache₁ = (right, cache₂) := ⟨_, _, rfl⟩
      simp only [hleft, hright] at h
      obtain ⟨l, r, rfl, rfl⟩ := of_offer_parent h
      obtain ⟨c₁, rfl, hgrows₁, hl⟩ := ih hc hleft
      have hc₁ := hgrows₁.cursor_eq.trans hc
      obtain ⟨c₂, rfl, hgrows₂, hr⟩ := ih hc₁ hright
      have hchildren : ∀ below, z + 1 = below + 1 →
          (c₂.get? below (2 * i)).isSome ∧ (c₂.get? below (2 * i + 1)).isSome := by
        rintro below ⟨⟩
        exact ⟨hgrows₂.isSome _ _ hl, hr⟩
      -- the parent is offered when both children are in the cache
      obtain ⟨c₃, rfl, hgrows₃, hx⟩ :=
        offer_grows hpolicy (hgrows₂.cursor_eq.trans hc₁) hchildren h
      exact ⟨c₃, rfl, hgrows₁.trans (hgrows₂.trans hgrows₃), hx⟩

end

/-- **A tree whose root was computed into an empty cache is in the cache**, under the full policy and
before any of its leaves has been used. -/
theorem root_complete (hfull : t.setting.params.cache = .full) {x : Bytes} {c : NodeCache}
    (h : t.root (some (.empty 0)) = (.ok x, some c)) {z i : Nat} (hnode : t.HasNode z i) :
    (c.get? z i).isSome := by
  have hpolicy : ∀ z i, t.setting.params.cache.keeps t.height 0 z i = true := by
    intro z i
    rw [hfull]
    exact CachePolicy.keeps_full_zero ..
  obtain ⟨c', hcache, hgrows, hroot⟩ := node_grows hpolicy rfl h
  obtain rfl := Option.some.inj hcache
  have hempty : (NodeCache.empty 0).ClosedDown := fun z i hget => by cases hget
  exact (hgrows.closedDown hempty).isSome hroot hnode.1 hnode.2

end Tree

end Hypertree
