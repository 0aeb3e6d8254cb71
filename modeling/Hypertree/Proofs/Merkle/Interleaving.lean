import Hypertree.Proofs.Merkle.Agreement
import Hypertree.Proofs.Merkle.Complete
import Hypertree.Proofs.OneTime.Order

/-!
# Trees whose halves are computed at once

The two halves of a subtree may be computed one after the other, in either order, or at once, with
one cache for both. `Tree.Work` is the computation of a node in the course of it and `Tree.Step` one
step of it: looking a node up in the cache and offering one are steps that nothing else comes
between, and so is computing a leaf, its chains in any order. A step is made in either half, so the
runs of `Tree.Moves` are all the ways in which the steps can be interleaved. `Tree.node` is one of
them, that from left to right (`moves_node`).

All runs have one outcome. A step reads and writes at most one place of the cache, in the subtree at
work, and what is offered elsewhere does not change it (`Step.effect`, `Step.frame`). The halves of
a subtree have no place in common (`InSubtree.not_both`), so steps in them can be exchanged, and two
different steps that can be made next lead to one state after one more step each (`Step.diamond`).
Runs are finite, as every step leaves fewer to be made (`Step.stepsLeft_lt`).

`outcome_of_every_schedule` has this together with the orders of the chains.
-/

namespace Hypertree

open Relation

/-! ### Offers -/

namespace Tree

variable (t : Tree) {z i z' i' : Nat} {c c' : Option NodeCache}

/-- The cache once a computed node has been offered to it. -/
def keep (height index : Nat) (node : Bytes) (cache : Option NodeCache) : Option NodeCache :=
  cache.map fun c => (c.offer t.setting.params.cache t.height height index node).2

theorem offer_ok (z i : Nat) (x : Bytes) (c : Option NodeCache) :
    t.offer z i (.ok x) c = (.ok x, t.keep z i x c) := rfl

/-- An offer changes what is found in its own place only. -/
theorem find_keep (hne : ¬ (z' = z ∧ i' = i)) (x : Bytes) (c : Option NodeCache) :
    (t.keep z i x c).bind (·.get? z' i') = c.bind (·.get? z' i') := by
  cases c with
  | none => rfl
  | some c =>
    show (c.offer t.setting.params.cache t.height z i x).2.get? z' i' = c.get? z' i'
    rw [NodeCache.get?_offer, if_neg fun h => hne h.2]

theorem keep_comm (hne : ¬ (z' = z ∧ i' = i)) (x x' : Bytes) (c : Option NodeCache) :
    t.keep z' i' x' (t.keep z i x c) = t.keep z i x (t.keep z' i' x' c) := by
  cases c with
  | none => rfl
  | some c => exact congrArg some (c.offer_comm _ _ hne x x')

/-! ### Subtrees -/

/-- The node `(z', i')` is in the subtree of the node `(z, i)`. -/
def InSubtree (z i z' i' : Nat) : Prop :=
  z' ≤ z ∧ i' / 2 ^ (z - z') = i

theorem inSubtree_self (z i : Nat) : InSubtree z i z i := by
  simp [InSubtree]

theorem ne_of_not_inSubtree (h : ¬ InSubtree z i z' i') : ¬ (z = z' ∧ i = i') := by
  rintro ⟨rfl, rfl⟩
  exact h (inSubtree_self z i)

theorem InSubtree.of_half {j : Nat} (h : InSubtree z j z' i') (hj : j / 2 = i) :
    InSubtree (z + 1) i z' i' := by
  obtain ⟨hz, rfl⟩ := h
  refine ⟨by omega, ?_⟩
  rw [Nat.sub_add_comm hz, pow_succ, ← Nat.div_div_eq_div_mul, hj]

theorem InSubtree.left (h : InSubtree z (2 * i) z' i') : InSubtree (z + 1) i z' i' :=
  h.of_half (by omega)

theorem InSubtree.right (h : InSubtree z (2 * i + 1) z' i') : InSubtree (z + 1) i z' i' :=
  h.of_half (by omega)

/-- The two halves of a subtree have no node in common. -/
theorem InSubtree.not_both (h : InSubtree z (2 * i) z' i') : ¬ InSubtree z (2 * i + 1) z' i' := by
  intro h'
  have hindex := h.2.symm.trans h'.2
  omega

/-! ### Steps -/

/-- `leaf` with the chains of its one-time key computed in a given order. -/
def leafIn (order : List Nat) (leaf : Nat) : Except Error Bytes := do
  let publicKey ← OneTime.publicKeyIn order t.setting t.seeds t.layer t.index leaf
  LTree.compress t.setting publicKey t.seeds.publicSeed (.ltree t.layer t.index leaf)

theorem leafIn_eq {order : List Nat} (horder : order.Perm (List.range t.setting.oneTime.chains))
    (leaf : Nat) : t.leafIn order leaf = t.leaf leaf := by
  rw [leafIn, OneTime.publicKeyIn_eq horder, Tree.leaf]

/-- The computation of a node in the course of it. -/
inductive Work : (height index : Nat) → Type
  /-- The node has not been looked up. -/
  | start {z i : Nat} : Work z i
  /-- It was not in the cache, and both halves of its subtree are at work. -/
  | halves {z i : Nat} (left : Work z (2 * i)) (right : Work z (2 * i + 1)) : Work (z + 1) i
  /-- It has been computed, or that has failed. -/
  | computed {z i : Nat} (node : Except Error Bytes) : Work z i
  /-- It has been found, or offered to the cache. -/
  | done {z i : Nat} (node : Except Error Bytes) : Work z i

/-- One step of a computation, with the cache before and after it. -/
inductive Step (t : Tree) : {z i : Nat} → Work z i → Option NodeCache → Work z i →
    Option NodeCache → Prop
  | found {z i : Nat} {cache : Option NodeCache} {kept : Bytes} :
      cache.bind (·.get? z i) = some kept →
      Step t (.start : Work z i) cache (.done (.ok kept)) cache
  /-- A leaf that is not found is computed, its chains in some order. -/
  | leaf {i : Nat} {cache : Option NodeCache} {order : List Nat} :
      cache.bind (·.get? 0 i) = none → order.Perm (List.range t.setting.oneTime.chains) →
      Step t (.start : Work 0 i) cache (.computed (t.leafIn order i)) cache
  /-- For a node that is not found, both halves of its subtree are begun. -/
  | split {z i : Nat} {cache : Option NodeCache} :
      cache.bind (·.get? (z + 1) i) = none →
      Step t (.start : Work (z + 1) i) cache (.halves .start .start) cache
  | left {z i : Nat} {l l' : Work z (2 * i)} {r : Work z (2 * i + 1)}
      {cache cache' : Option NodeCache} :
      Step t l cache l' cache' → Step t (.halves l r) cache (.halves l' r) cache'
  | right {z i : Nat} {l : Work z (2 * i)} {r r' : Work z (2 * i + 1)}
      {cache cache' : Option NodeCache} :
      Step t r cache r' cache' → Step t (.halves l r) cache (.halves l r') cache'
  /-- Once both halves are done, their nodes are joined. -/
  | join {z i : Nat} {left right : Except Error Bytes} {cache : Option NodeCache} :
      Step t (.halves (.done left) (.done right) : Work (z + 1) i) cache
        (.computed (t.parent z i left right)) cache
  | offer {z i : Nat} {node : Except Error Bytes} {cache : Option NodeCache} :
      Step t (.computed node : Work z i) cache (.done (t.offer z i node cache).1)
        (t.offer z i node cache).2

variable {t} {w w' w₁ w₂ : Work z i} {c₁ c₂ : Option NodeCache}

/-- A step offers at most one node to the cache, of the subtree at work. -/
theorem Step.effect (h : t.Step w c w' c') :
    c' = c ∨ ∃ z' i' x, InSubtree z i z' i' ∧ c' = t.keep z' i' x c := by
  induction h with
  | found | leaf | split | join => exact Or.inl rfl
  | left _ ih =>
    exact ih.imp_right fun ⟨z', i', x, hin, hc⟩ => ⟨z', i', x, hin.left, hc⟩
  | right _ ih =>
    exact ih.imp_right fun ⟨z', i', x, hin, hc⟩ => ⟨z', i', x, hin.right, hc⟩
  | @offer z i node c =>
    cases node with
    | error e => exact Or.inl rfl
    | ok x => exact Or.inr ⟨z, i, x, inSubtree_self z i, rfl⟩

/-- An offer of a node outside of the subtree at work changes no step. -/
theorem Step.frame (h : t.Step w c w' c') (hout : ¬ InSubtree z i z' i') (x : Bytes) :
    t.Step w (t.keep z' i' x c) w' (t.keep z' i' x c') := by
  -- lookups and offers of a subtree are at its own places, which the kept node is not among
  induction h with
  | found hfound => exact .found (by rwa [find_keep t (ne_of_not_inSubtree hout)])
  | leaf hnone horder => exact .leaf (by rwa [find_keep t (ne_of_not_inSubtree hout)]) horder
  | split hnone => exact .split (by rwa [find_keep t (ne_of_not_inSubtree hout)])
  | left _ ih => exact .left (ih fun hin => hout hin.left)
  | right _ ih => exact .right (ih fun hin => hout hin.right)
  | join => exact .join
  | @offer z i node c =>
    cases node with
    | error e => exact .offer
    | ok y =>
      rw [offer_ok, ← keep_comm t (ne_of_not_inSubtree hout)]
      exact .offer

/-- Steps in the two halves of a subtree can be exchanged. -/
theorem Step.exchange {l l' : Work z (2 * i)} {r r' : Work z (2 * i + 1)}
    (hl : t.Step l c l' c₁) (hr : t.Step r c r' c₂) :
    ∃ c₃, t.Step r c₁ r' c₃ ∧ t.Step l c₂ l' c₃ := by
  -- each of them offers a node or none
  rcases hl.effect with rfl | ⟨z₁, i₁, x, hin, rfl⟩
  · rcases hr.effect with rfl | ⟨z₂, i₂, y, hin', rfl⟩
    · exact ⟨_, hr, hl⟩
    · exact ⟨_, hr, hl.frame (fun hin => hin.not_both hin') y⟩
  · have hr' := hr.frame hin.not_both x
    rcases hr.effect with rfl | ⟨z₂, i₂, y, hin', rfl⟩
    · exact ⟨_, hr', hl⟩
    · have hl' := hl.frame (fun hin => hin.not_both hin') y
      have hne : ¬ (z₁ = z₂ ∧ i₁ = i₂) := by
        rintro ⟨rfl, rfl⟩
        exact hin.not_both hin'
      rw [← keep_comm t hne] at hl'
      exact ⟨_, hr', hl'⟩

theorem Step.not_done {node : Except Error Bytes} : ¬ t.Step (.done node : Work z i) c w' c' := by
  intro h
  cases h

/-- Two steps from one state lead to one state, or to states from which one more step each does. -/
theorem Step.diamond (h₁ : t.Step w c w₁ c₁) (h₂ : t.Step w c w₂ c₂) :
    w₁ = w₂ ∧ c₁ = c₂ ∨ ∃ w₃ c₃, t.Step w₁ c₁ w₃ c₃ ∧ t.Step w₂ c₂ w₃ c₃ := by
  induction h₁ generalizing c₂ with
  -- the cache decides whether a node is found, so its first step is always of the same kind
  | found hfound =>
    cases h₂ with
    | found hfound' =>
      rw [hfound] at hfound'
      cases hfound'
      exact Or.inl ⟨rfl, rfl⟩
    | leaf hnone => cases hfound.symm.trans hnone
    | split hnone => cases hfound.symm.trans hnone
  | leaf hnone horder =>
    cases h₂ with
    | found hfound => cases hfound.symm.trans hnone
    | leaf _ horder' => exact Or.inl ⟨by rw [leafIn_eq t horder, leafIn_eq t horder'], rfl⟩
  | split hnone =>
    cases h₂ with
    | found hfound => cases hfound.symm.trans hnone
    | split => exact Or.inl ⟨rfl, rfl⟩
  -- steps of one half meet by induction, steps of different halves exchange
  | left hl ih =>
    cases h₂ with
    | left hl' =>
      rcases ih hl' with ⟨rfl, rfl⟩ | ⟨w₃, c₃, h, h'⟩
      · exact Or.inl ⟨rfl, rfl⟩
      · exact Or.inr ⟨_, c₃, .left h, .left h'⟩
    | right hr =>
      obtain ⟨c₃, hr', hl'⟩ := hl.exchange hr
      exact Or.inr ⟨_, c₃, .right hr', .left hl'⟩
    | join => exact absurd hl Step.not_done
  | right hr ih =>
    cases h₂ with
    | left hl =>
      obtain ⟨c₃, hr', hl'⟩ := hl.exchange hr
      exact Or.inr ⟨_, c₃, .left hl', .right hr'⟩
    | right hr' =>
      rcases ih hr' with ⟨rfl, rfl⟩ | ⟨w₃, c₃, h, h'⟩
      · exact Or.inl ⟨rfl, rfl⟩
      · exact Or.inr ⟨_, c₃, .right h, .right h'⟩
    | join => exact absurd hr Step.not_done
  -- halves that are done take no step
  | join =>
    cases h₂ with
    | left hl => exact absurd hl Step.not_done
    | right hr => exact absurd hr Step.not_done
    | join => exact Or.inl ⟨rfl, rfl⟩
  | offer =>
    cases h₂ with
    | offer => exact Or.inl ⟨rfl, rfl⟩

/-! ### Runs -/

/-- The steps that may be left. -/
def Work.stepsLeft : {z i : Nat} → Work z i → Nat
  | z, _, .start => 5 * 2 ^ z - 3
  | _, _, .halves left right => left.stepsLeft + right.stepsLeft + 2
  | _, _, .computed _ => 1
  | _, _, .done _ => 0

theorem Step.stepsLeft_lt (h : t.Step w c w' c') : w'.stepsLeft < w.stepsLeft := by
  induction h with
  | @found z i c kept =>
    have hpos := Nat.two_pow_pos z
    simp only [Work.stepsLeft]
    omega
  | leaf => simp [Work.stepsLeft]
  | @split z i c =>
    have hpos := Nat.two_pow_pos z
    simp only [Work.stepsLeft, pow_succ]
    omega
  | left _ ih => simp only [Work.stepsLeft]; omega
  | right _ ih => simp only [Work.stepsLeft]; omega
  | join => simp [Work.stepsLeft]
  | offer => simp [Work.stepsLeft]

/-- One step as a relation on states. -/
def Moves (t : Tree) (z i : Nat) (s s' : Work z i × Option NodeCache) : Prop :=
  t.Step s.1 s.2 s'.1 s'.2

theorem moves_left (r : Work z (2 * i + 1)) {s s' : Work z (2 * i) × Option NodeCache}
    (h : ReflTransGen (t.Moves z (2 * i)) s s') :
    ReflTransGen (t.Moves (z + 1) i) (.halves s.1 r, s.2) (.halves s'.1 r, s'.2) :=
  h.lift (fun s => (Work.halves s.1 r, s.2)) fun _ _ => Step.left

theorem moves_right (l : Work z (2 * i)) {s s' : Work z (2 * i + 1) × Option NodeCache}
    (h : ReflTransGen (t.Moves z (2 * i + 1)) s s') :
    ReflTransGen (t.Moves (z + 1) i) (.halves l s.1, s.2) (.halves l s'.1, s'.2) :=
  h.lift (fun s => (Work.halves l s.1, s.2)) fun _ _ => Step.right

/-- The left half first and then the right half: `node` is one of the runs. -/
theorem moves_node (t : Tree) (z : Nat) : ∀ (i : Nat) (cache : Option NodeCache),
    ReflTransGen (t.Moves z i) (.start, cache)
      (.done (t.node z i cache).1, (t.node z i cache).2) := by
  -- the schedule in which the left half is done before the right one starts
  induction z with
  | zero =>
    intro i cache
    rw [node]
    cases hfound : cache.bind (·.get? 0 i) with
    | some kept => exact .single (.found hfound)
    | none =>
      have horder := List.Perm.refl (List.range t.setting.oneTime.chains)
      have hleaf : t.Moves 0 i (.start, cache) (.computed (t.leaf i), cache) := by
        rw [← t.leafIn_eq horder]
        exact .leaf hfound horder
      exact .tail (.single hleaf) .offer
  | succ z ih =>
    intro i cache
    rw [node]
    cases hfound : cache.bind (·.get? (z + 1) i) with
    | some kept => exact .single (.found hfound)
    | none =>
      have hsplit : t.Moves (z + 1) i (.start, cache) (.halves .start .start, cache) :=
        .split hfound
      have hleft := moves_left .start (ih (2 * i) cache)
      generalize t.node z (2 * i) cache = left at hleft ⊢
      obtain ⟨l, cache'⟩ := left
      have hright := moves_right (.done l) (ih (2 * i + 1) cache')
      dsimp only
      generalize t.node z (2 * i + 1) cache' = right at hright ⊢
      obtain ⟨r, cache''⟩ := right
      have hjoin : t.Moves (z + 1) i (.halves (.done l) (.done r), cache'')
          (.computed (t.parent z i l r), cache'') := .join
      exact ((((ReflTransGen.single hsplit).trans hleft).trans hright).tail hjoin).tail .offer

/-- Two runs that begin in one state can go on to one state. -/
theorem moves_join {s s₁ s₂ : Work z i × Option NodeCache} (h₁ : ReflTransGen (t.Moves z i) s s₁)
    (h₂ : ReflTransGen (t.Moves z i) s s₂) : Join (ReflTransGen (t.Moves z i)) s₁ s₂ := by
  refine church_rosser ?_ h₁ h₂
  rintro s ⟨w₁, c₁⟩ ⟨w₂, c₂⟩ h h'
  rcases Step.diamond h h' with ⟨rfl, rfl⟩ | ⟨w₃, c₃, h₃, h₃'⟩
  · exact ⟨_, .refl, .refl⟩
  · exact ⟨(w₃, c₃), .single h₃, .single h₃'⟩

theorem eq_of_moves_done {node : Except Error Bytes} {s : Work z i × Option NodeCache}
    (h : ReflTransGen (t.Moves z i) (.done node, c) s) : s = (.done node, c) := by
  rcases h.cases_head with heq | ⟨_, hstep, -⟩
  · exact heq.symm
  · exact absurd hstep Step.not_done

/-- Every run can be completed, and then has the outcome of `node`. -/
theorem moves_to_node {cache : Option NodeCache} {s : Work z i × Option NodeCache}
    (h : ReflTransGen (t.Moves z i) (.start, cache) s) :
    ReflTransGen (t.Moves z i) s (.done (t.node z i cache).1, (t.node z i cache).2) := by
  obtain ⟨s', hs, hdone⟩ := moves_join h (t.moves_node z i cache)
  -- nothing is left to be done at the end of the sequential run
  obtain rfl := eq_of_moves_done hdone
  exact hs

/-- Runs are finite. -/
theorem wellFounded_moves (t : Tree) (z i : Nat) : WellFounded fun s' s => t.Moves z i s s' :=
  Subrelation.wf (fun h => Step.stepsLeft_lt h)
    (measure fun s : Work z i × Option NodeCache => s.1.stepsLeft).wf

/-- **Results do not depend on scheduling.** In whatever order the chains of a one-time key are
computed, public key, signature and recovered public key are the same, or the error is. And however
the steps of the two halves are interleaved at every node of a tree, whatever the cache holds at
first and whatever its policy keeps: no run goes on forever; what one ends with, as node or error
and as cache, is the outcome of the sequential run; and every run that has not ended can go on to
that outcome. -/
theorem outcome_of_every_schedule :
    (∀ (s : Setting) (order : List Nat), order.Perm (List.range s.oneTime.chains) →
      (∀ seeds layer tree leaf, OneTime.publicKeyIn order s seeds layer tree leaf
        = OneTime.publicKey s seeds layer tree leaf) ∧
      (∀ seeds layer tree leaf message, OneTime.signIn order s seeds layer tree leaf message
        = OneTime.sign s seeds layer tree leaf message) ∧
      ∀ signature message publicSeed layer tree leaf,
        OneTime.recoverIn order s signature message publicSeed layer tree leaf
          = OneTime.recover s signature message publicSeed layer tree leaf) ∧
    ∀ (t : Tree) (z i : Nat), WellFounded (fun s' s => t.Moves z i s s') ∧
      ∀ cache,
        (∀ node cache', ReflTransGen (t.Moves z i) (.start, cache) (.done node, cache') →
          t.node z i cache = (node, cache')) ∧
        ∀ s, ReflTransGen (t.Moves z i) (.start, cache) s →
          ReflTransGen (t.Moves z i) s (.done (t.node z i cache).1, (t.node z i cache).2) := by
  constructor
  · intro s order horder
    exact ⟨OneTime.publicKeyIn_eq horder, OneTime.signIn_eq horder, OneTime.recoverIn_eq horder⟩
  · intro t z i
    refine ⟨t.wellFounded_moves z i, fun cache => ⟨?_, fun s => moves_to_node⟩⟩
    intro node cache' hrun
    -- nothing moves after a run that is done, so it has ended where `node` ends
    obtain ⟨hwork, hcache⟩ := Prod.mk.inj (eq_of_moves_done (moves_to_node hrun))
    exact Prod.ext (Work.done.inj hwork) hcache

/-- The chains from the last to the first; and the right one of two leaves before the left one. -/
theorem outcome_of_every_schedule_small :
    OneTime.publicKeyIn (List.range 67).reverse OneTime.plain (OneTime.zeroSeeds 2) 0 0 1
        = OneTime.publicKey OneTime.plain (OneTime.zeroSeeds 2) 0 0 1 ∧
      ∃ right cache,
        ReflTransGen (small.Moves 1 0) (.start, some (.empty 0))
          (.halves .start (.done right), cache) ∧
        ReflTransGen (small.Moves 1 0) (.halves .start (.done right), cache)
          (.done (small.node 1 0 (some (.empty 0))).1, (small.node 1 0 (some (.empty 0))).2) := by
  obtain ⟨hchains, htrees⟩ := outcome_of_every_schedule
  have hreverse : (List.range 67).reverse.Perm (List.range OneTime.plain.oneTime.chains) :=
    List.reverse_perm _
  refine ⟨(hchains OneTime.plain _ hreverse).1 _ 0 0 1, ?_⟩
  obtain ⟨-, hruns⟩ := htrees small 1 0
  obtain ⟨-, hcomplete⟩ := hruns (some (.empty 0))
  have hsplit : small.Moves 1 0 (.start, some (.empty 0))
      (.halves .start .start, some (.empty 0)) := .split rfl
  have hright := moves_right (i := 0) .start (small.moves_node 0 1 (some (.empty 0)))
  have hrun := (ReflTransGen.single hsplit).trans hright
  exact ⟨_, _, hrun, hcomplete _ hrun⟩

end Tree

end Hypertree
