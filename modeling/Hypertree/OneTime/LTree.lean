import Hypertree.Tweak

/-!
# L-trees

The public key of a leaf is compressed to one node: its chain ends are joined in pairs, level by
level, and an unpaired last node moves up unchanged. `compress` works in one buffer, writing the
parent of the pair `2 * i`, `2 * i + 1` over node `i`; a parent never lands on a node that is still
to be read. `joinLevel` and `reduce` state the same without a buffer.
-/

namespace Hypertree.LTree

/-- Joins the pairs of one level in place: pair `i` and the `pairs` after it. -/
def joinPairs (s : Setting) (publicSeed : Bytes) (a : Address) :
    (pairs i : Nat) → Array Bytes → Except Error (Array Bytes)
  | 0, _, nodes => .ok nodes
  | pairs + 1, i, nodes => do
    let a := a.setIndex (UInt32.ofNat i)
    let parent ← s.hashPair (nodes.getD (2 * i) []) (nodes.getD (2 * i + 1) []) publicSeed a
    joinPairs s publicSeed a pairs (i + 1) (nodes.setIfInBounds i parent)

/-- Joins level after level of the first `count` nodes of the buffer until one is left. -/
def collapse (s : Setting) (publicSeed : Bytes) (a : Address) (count level : Nat)
    (nodes : Array Bytes) : Except Error (Array Bytes) := do
  if count ≤ 1 then
    return nodes
  else
    let a := a.setLevel (UInt32.ofNat level)
    let nodes ← joinPairs s publicSeed a (count / 2) 0 nodes
    -- an unpaired last node moves up
    let nodes :=
      if count % 2 = 1 then nodes.setIfInBounds (count / 2) (nodes.getD (count - 1) []) else nodes
    collapse s publicSeed a ((count + 1) / 2) (level + 1) nodes
termination_by count

/-- The node to which a string of `n`-byte nodes is compressed; empty for no nodes. -/
def compress (s : Setting) (nodes publicSeed : Bytes) (a : Address) : Except Error Bytes := do
  let count := nodes.length / s.n
  let buffer ← collapse s publicSeed a count 0 (Bytes.pieces s.n count nodes).toArray
  return buffer.getD 0 []

/-- One level of nodes joined in pairs; `i` is the number of the first pair. -/
def joinLevel (s : Setting) (publicSeed : Bytes) (a : Address) :
    (i : Nat) → List Bytes → Except Error (List Bytes)
  | i, left :: right :: rest => do
    let parent ← s.hashPair left right publicSeed (a.setIndex (UInt32.ofNat i))
    let parents ← joinLevel s publicSeed a (i + 1) rest
    return parent :: parents
  | _, rest => .ok rest

theorem length_joinLevel {s : Setting} {publicSeed : Bytes} {a : Address} {i : Nat}
    {nodes parents : List Bytes} (h : joinLevel s publicSeed a i nodes = .ok parents) :
    parents.length = (nodes.length + 1) / 2 := by
  fun_induction joinLevel s publicSeed a i nodes generalizing parents with
  | case1 i left right rest ih =>
    cases hp : s.hashPair left right publicSeed (a.setIndex (UInt32.ofNat i)) with
    | error e => simp [hp, bind, Except.bind] at h
    | ok parent =>
      cases hr : joinLevel s publicSeed a (i + 1) rest with
      | error e => simp [hp, hr, bind, Except.bind] at h
      | ok tail =>
        simp only [hp, hr, bind, Except.bind, pure, Except.pure, Except.ok.injEq] at h
        have := ih hr
        subst h
        simp only [List.length_cons]
        omega
  -- at most one node is left, and it moves up
  | case2 i rest hrest =>
    simp only [Except.ok.injEq] at h
    subst h
    match rest, hrest with
    | [], _ => rfl
    | [_], _ => simp
    | left :: right :: rest, hrest => exact absurd rfl (hrest left right rest)

/-- Level after level joined in pairs until at most one node is left. -/
def reduce (s : Setting) (publicSeed : Bytes) (a : Address) (level : Nat)
    (nodes : List Bytes) : Except Error (List Bytes) :=
  if nodes.length ≤ 1 then .ok nodes
  else
    match h : joinLevel s publicSeed (a.setLevel (UInt32.ofNat level)) 0 nodes with
    | .error e => .error e
    | .ok parents => reduce s publicSeed a (level + 1) parents
termination_by nodes.length
decreasing_by
  have := length_joinLevel h
  omega

end Hypertree.LTree
