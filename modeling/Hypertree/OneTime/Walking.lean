import Hypertree.Tweak

/-!
# Chains walked in place

Where chains are walked over a buffer, a step overwrites the value with the next one and the address
with that of the step. `Walking.along` takes many steps: it computes their end and compares it with
the end of the chain before the first of them, so a walk that would go too far changes nothing, also
if its end is no 32-bit number.
-/

namespace Hypertree

/-- A computation on a value of a chain and the address of the last step, which it changes in place.
What it has changed stays changed also when it fails. -/
abbrev Walking := EStateM Error (Bytes × Address)

namespace Walking

/-- The sum of two 32-bit numbers, if it is one. -/
def sum? (a b : UInt32) : Option UInt32 :=
  if a.toNat + b.toNat < 2 ^ (32 : Nat) then some (a + b) else none

/-- Takes the step at a position. -/
def step (s : Setting) (publicSeed : Bytes) (position : UInt32) : Walking Unit := do
  modify fun (x, a) => (x, a.setStep position)
  let (x, a) ← get
  let next ← MonadExcept.ofExcept (s.hashNode x publicSeed a)
  set (next, a)

/-- Takes `count` steps from a position on. -/
def steps (s : Setting) (publicSeed : Bytes) : (count : Nat) → (position : UInt32) → Walking Unit
  | 0, _ => return ()
  | count + 1, position => do
    step s publicSeed position
    steps s publicSeed count (position + 1)

/-- Takes `count` steps from position `start` on and answers true, unless the walk would pass
position `w - 1`. -/
def along (s : Setting) (publicSeed : Bytes) (start count : UInt32) : Walking Bool := do
  match sum? start count with
  | none => return false
  | some stop =>
    if UInt32.ofNat s.oneTime.w - 1 < stop then return false
    steps s publicSeed (stop - start).toNat start
    return true

end Walking

end Hypertree
