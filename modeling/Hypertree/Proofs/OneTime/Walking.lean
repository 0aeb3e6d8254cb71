import Hypertree.OneTime.Walking
import Hypertree.Proofs.OneTime.Outcome

/-!
# Chains walked in place

What `Walking.along` leaves behind. A walk that stays in its chain leaves the value that `advanceBy`
describes, and the address of its last step (`run_along_of_le`). Both depend on the positions that
are visited and not on how the walk is divided, so two walks one after the other leave what one walk
over both does. A walk that would pass the end leaves everything as it was (`run_along_of_lt`): its
end is compared before the first step, and a sum of 32-bit numbers that is none counts as too large.

`chain` is the same walk as a function. It says nothing of what a walk leaves that is not taken,
and on all other points they agree (`outcome_run_along`).
-/

namespace Hypertree

/-- The address after some steps from a position on: that of the last of them, if there is one. -/
def Address.afterSteps (a : Address) (start : Nat) : (count : Nat) → Address
  | 0 => a
  | count + 1 => a.setStep (UInt32.ofNat (start + count))

namespace Address

variable (a : Address) (i : UInt32) (start : Nat)

/-- Steps overwrite the step written before them. -/
theorem afterSteps_setStep_succ (count : Nat) :
    (a.setStep i).afterSteps start (count + 1) = a.afterSteps start (count + 1) :=
  setStep_setStep a i _

/-- The step at a position and those after it. -/
theorem afterSteps_succ_start (count : Nat) :
    (a.setStep (UInt32.ofNat start)).afterSteps (start + 1) count
      = a.afterSteps start (count + 1) := by
  cases count with
  | zero => rfl
  | succ count => rw [afterSteps_setStep_succ, afterSteps, afterSteps, Nat.succ_add_eq_add_succ]

/-- Steps and those after them. -/
theorem afterSteps_add (m k : Nat) :
    (a.afterSteps start m).afterSteps (start + m) k = a.afterSteps start (m + k) := by
  cases k with
  | zero => rfl
  | succ k =>
    cases m with
    | zero =>
      rw [Nat.zero_add, Nat.add_zero]
      rfl
    | succ m =>
      -- the later steps overwrite what the earlier ones wrote
      have hposition := Nat.add_assoc start (m + 1) k
      calc (a.afterSteps start (m + 1)).afterSteps (start + (m + 1)) (k + 1)
        _ = a.setStep (UInt32.ofNat (start + (m + 1) + k)) := afterSteps_setStep_succ a _ _ k
        _ = a.setStep (UInt32.ofNat (start + (m + 1 + k))) := by rw [hposition]

end Address

namespace Walking

/-- A walk visits the positions it is told to, also from an address that another walk left. -/
theorem advanceBy_afterSteps {s : Setting} {publicSeed : Bytes} (a : Address)
    (first count steps start : Nat) (x : Bytes) :
    advanceBy s publicSeed (a.afterSteps first count) steps start x
      = advanceBy s publicSeed a steps start x := by
  cases count with
  | zero => rfl
  | succ count => exact advanceBy_setStep a _ steps start x

variable {s : Setting} {publicSeed x : Bytes} {a : Address} {start count : UInt32}

/-! ### Steps -/

/-- A step overwrites the value and the address. -/
theorem run_step (publicSeed : Bytes) (hx : x.length = s.n) (a : Address) (position : UInt32) :
    (step s publicSeed position).run (x, a)
      = .ok () (s.advance publicSeed (a.setStep position) x, a.setStep position) := by
  have hnext := Setting.hashNode_eq hx publicSeed (a.setStep position)
  simp only [step, EStateM.run_bind, EStateM.run_modify, EStateM.run_get, hnext,
    MonadExcept.ofExcept, EStateM.run_pure, EStateM.run_set]

theorem ofNat_add_one (position : Nat) :
    UInt32.ofNat position + 1 = UInt32.ofNat (position + 1) :=
  (UInt32.ofNat_add position 1).symm

/-- **Many steps** leave the value that is so many steps further, and the address of the last. -/
theorem run_steps (publicSeed : Bytes) (count : Nat) :
    ∀ (position : Nat) (x : Bytes) (a : Address), x.length = s.n →
      (steps s publicSeed count (UInt32.ofNat position)).run (x, a)
        = .ok () (advanceBy s publicSeed a count position x, a.afterSteps position count) := by
  induction count with
  | zero => exact fun _ _ _ _ => rfl
  | succ count ih =>
    intro position x a hx
    have hnext := Setting.length_advance (s := s) publicSeed (a.setStep (UInt32.ofNat position)) x
    rw [steps, EStateM.run_bind, run_step publicSeed hx, ofNat_add_one]
    simp only [ih (position + 1) _ _ hnext, advanceBy_setStep, Address.afterSteps_succ_start]
    rfl

/-! ### Walks -/

section

variable (hp : s.oneTime.Valid)

include hp

/-- The ends of chains are 32-bit numbers. -/
theorem toNat_last : (UInt32.ofNat s.oneTime.w - 1).toNat = s.oneTime.w - 1 := by
  have hpos : 1 ≤ s.oneTime.w := le_trans (by decide) hp.two_le_w
  have hlarge : s.oneTime.w - 1 < 2 ^ 32 :=
    lt_of_le_of_lt (Nat.sub_le _ _) (lt_of_le_of_lt hp.w_le (by decide))
  rw [← UInt32.ofNat_one, ← UInt32.ofNat_sub hpos]
  exact UInt32.toNat_ofNat_of_lt' hlarge

/-- Whether a walk is taken depends on its end alone, as a natural number. -/
theorem along_eq (publicSeed : Bytes) (start count : UInt32) :
    along s publicSeed start count
      = if start.toNat + count.toNat ≤ s.oneTime.w - 1
        then do steps s publicSeed count.toNat start; return true
        else return false := by
  have hw := hp.w_le
  unfold along sum?
  by_cases hsum : start.toNat + count.toNat < 2 ^ 32
  · have hstop : (start + count).toNat = start.toNat + count.toNat := by
      rw [UInt32.toNat_add, Nat.mod_eq_of_lt hsum]
    have hcount : start + count - start = count := add_sub_cancel_left start count
    rw [if_pos hsum]
    simp only [UInt32.lt_iff_toNat_lt, toNat_last hp, hstop, hcount]
    by_cases hle : start.toNat + count.toNat ≤ s.oneTime.w - 1
    · rw [if_neg (Nat.not_lt_of_le hle), if_pos hle]
    · rw [if_pos (Nat.lt_of_not_le hle), if_neg hle]
  · -- a sum that is no 32-bit number is past the end of every chain
    rw [if_neg hsum, if_neg (by omega)]

/-- **A walk within its chain.** -/
theorem run_along_of_le (publicSeed : Bytes) (hx : x.length = s.n) (a : Address)
    (start count : UInt32) (hle : start.toNat + count.toNat ≤ s.oneTime.w - 1) :
    (along s publicSeed start count).run (x, a)
      = .ok true (advanceBy s publicSeed a count.toNat start.toNat x,
          a.afterSteps start.toNat count.toNat) := by
  have hsteps := run_steps publicSeed count.toNat start.toNat x a hx
  rw [UInt32.ofNat_toNat] at hsteps
  rw [along_eq hp, if_pos hle, EStateM.run_bind, hsteps]
  rfl

/-- **A walk that would go too far changes nothing.** -/
theorem run_along_of_lt (publicSeed x : Bytes) (a : Address) (start count : UInt32)
    (hlt : s.oneTime.w - 1 < start.toNat + count.toNat) :
    (along s publicSeed start count).run (x, a) = .ok false (x, a) := by
  rw [along_eq hp, if_neg (Nat.not_le_of_lt hlt)]
  rfl

/-- A walk is refused if and only if it would go too far. -/
theorem run_along_eq_false_iff (publicSeed : Bytes) (hx : x.length = s.n) (a : Address)
    (start count : UInt32) (state : Bytes × Address) :
    (along s publicSeed start count).run (x, a) = .ok false state ↔
      s.oneTime.w - 1 < start.toNat + count.toNat ∧ state = (x, a) := by
  by_cases hlt : s.oneTime.w - 1 < start.toNat + count.toNat
  · rw [run_along_of_lt hp publicSeed x a start count hlt, EStateM.Result.ok.injEq]
    exact ⟨fun h => ⟨hlt, h.2.symm⟩, fun h => ⟨rfl, h.2.symm⟩⟩
  · rw [run_along_of_le hp publicSeed hx a start count (Nat.le_of_not_lt hlt)]
    exact iff_of_false nofun fun h => hlt h.1

/-- **Two walks one after the other** leave what one walk over both leaves. -/
theorem run_along_add (publicSeed : Bytes) (hx : x.length = s.n) (a : Address)
    (start m k : UInt32) (hle : start.toNat + m.toNat + k.toNat ≤ s.oneTime.w - 1) :
    ∃ middle last,
      (along s publicSeed start m).run (x, a) = .ok true middle ∧
      (along s publicSeed (start + m) k).run middle = .ok true last ∧
      (along s publicSeed start (m + k)).run (x, a) = .ok true last := by
  have hlarge := hp.w_le
  -- within the chain the sums of positions do not overflow
  have hm : (start + m).toNat = start.toNat + m.toNat := by
    rw [UInt32.toNat_add, Nat.mod_eq_of_lt (by omega)]
  have hmk : (m + k).toNat = m.toNat + k.toNat := by
    rw [UInt32.toNat_add, Nat.mod_eq_of_lt (by omega)]
  have hmiddle : (advanceBy s publicSeed a m.toNat start.toNat x).length = s.n :=
    length_advanceBy hx
  have hfirst := run_along_of_le hp publicSeed hx a start m (by omega)
  have hsecond := run_along_of_le hp publicSeed hmiddle (a.afterSteps start.toNat m.toNat)
    (start + m) k (by omega)
  have hboth := run_along_of_le hp publicSeed hx a start (m + k) (by omega)
  -- steps after steps are steps, of the value and of the address alike
  rw [hm, advanceBy_afterSteps, ← advanceBy_add, Address.afterSteps_add] at hsecond
  rw [hmk] at hboth
  exact ⟨_, _, hfirst, hsecond, hboth⟩

end

/-! ### The walk as a function -/

/-- The outcome of a walk, if what is left is looked at only where the walk was taken. -/
def outcome : EStateM.Result Error (Bytes × Address) Bool →
    Except Error (Option (Bytes × Address))
  | .ok true state => .ok (some state)
  | .ok false _ => .ok none
  | .error e _ => .error e

/-- Steps in place have the outcome of the steps as a function, for a value of any length. -/
theorem outcome_run_steps (publicSeed : Bytes) (count : Nat) :
    ∀ (position : Nat) (x : Bytes) (a : Address),
      outcome ((do steps s publicSeed count (UInt32.ofNat position); return true : Walking Bool).run
          (x, a))
        = (walk s publicSeed count position x a).map some := by
  induction count with
  | zero => exact fun _ _ _ => rfl
  | succ count ih =>
    intro position x a
    have hih := fun x => ih (position + 1) x (a.setStep (UInt32.ofNat position))
    rw [walk]
    rw [← ofNat_add_one] at hih
    -- one step of the walker is one call, with the same position in the address
    cases hnext : s.hashNode x publicSeed (a.setStep (UInt32.ofNat position)) with
    | error e =>
      simp only [steps, step, EStateM.run_bind, EStateM.run_modify, EStateM.run_get, hnext,
        MonadExcept.ofExcept]
      rfl
    | ok next =>
      simp only [EStateM.run_bind] at hih
      simp only [steps, step, EStateM.run_bind, EStateM.run_modify, EStateM.run_get, hnext,
        MonadExcept.ofExcept, EStateM.run_pure, EStateM.run_set]
      exact hih next

/-- **Chains in place are chains.** -/
theorem outcome_run_along (hp : s.oneTime.Valid) (publicSeed x : Bytes) (a : Address)
    (start count : UInt32) :
    outcome ((along s publicSeed start count).run (x, a))
      = chain s x start.toNat count.toNat publicSeed a := by
  have hsteps := outcome_run_steps (s := s) publicSeed count.toNat start.toNat x a
  rw [UInt32.ofNat_toNat] at hsteps
  rw [along_eq hp, chain]
  split_ifs with hle
  · exact hsteps
  · rfl

/-- **Chains compose, and walks past the end do nothing.** For a value of the size of a digest, two
walks one after the other leave the value and the address that one walk over both leaves, if that
stays in the chain. A walk is refused if and only if its end would lie past position `w - 1`, be it a
32-bit number or not, and then value and address are what they were. -/
theorem chains_compose {s : Setting} (hs : s.params.validate = .ok ()) (publicSeed : Bytes)
    {x : Bytes} (hx : x.length = s.n) (a : Address) (start : UInt32) :
    (∀ m k : UInt32, start.toNat + m.toNat + k.toNat ≤ s.oneTime.w - 1 → ∃ middle last,
      (along s publicSeed start m).run (x, a) = .ok true middle ∧
      (along s publicSeed (start + m) k).run middle = .ok true last ∧
      (along s publicSeed start (m + k)).run (x, a) = .ok true last) ∧
    (∀ (count : UInt32) (state : Bytes × Address),
      (along s publicSeed start count).run (x, a) = .ok false state ↔
        s.oneTime.w - 1 < start.toNat + count.toNat ∧ state = (x, a)) ∧
    ∀ count : UInt32, outcome ((along s publicSeed start count).run (x, a))
      = chain s x start.toNat count.toNat publicSeed a := by
  have hp : s.oneTime.Valid := Setting.valid_oneTime hs
  exact ⟨run_along_add hp publicSeed hx a start, run_along_eq_false_iff hp publicSeed hx a start,
    outcome_run_along hp publicSeed x a start⟩

/-- Chains of sixteen values: three steps and seven are ten, six steps from position ten are one too
many, and so are two from the largest position there is, though their sum is one as a 32-bit number. -/
theorem chains_compose_sixteen :
    let s : Setting := ⟨.standard, .sha256, { height := 4 }⟩
    let x := Bytes.zeros 32
    let a := Address.oneTime 0 0 0
    (∃ middle last, (along s [] 0 3).run (x, a) = .ok true middle ∧
      (along s [] 3 7).run middle = .ok true last ∧ (along s [] 0 10).run (x, a) = .ok true last) ∧
    (along s [] 10 6).run (x, a) = .ok false (x, a) ∧
    (along s [] 4294967295 2).run (x, a) = .ok false (x, a) ∧
    outcome ((along s [] 10 6).run (x, a)) = .ok none := by
  have hvalid : Params.validate { height := 4 } = .ok () := rfl
  intro s x a
  have hs : s.params.validate = .ok () := hvalid
  have hx : x.length = s.n := rfl
  obtain ⟨hcompose, -, -⟩ := chains_compose hs [] hx a 0
  obtain ⟨-, hpast, hchain⟩ := chains_compose hs [] hx a 10
  obtain ⟨-, hlarge, -⟩ := chains_compose hs [] hx a 4294967295
  refine ⟨hcompose 3 7 (by decide), (hpast 6 _).mpr ⟨by decide, rfl⟩,
    (hlarge 2 _).mpr ⟨by decide, rfl⟩, ?_⟩
  rw [hchain]
  rfl

end Walking

end Hypertree
