import Hypertree.Merkle.NodeCache
import Hypertree.OneTime
import Hypertree.OneTime.LTree

/-!
# Hash trees

A `Tree` is one tree of a key: the seeds from which its leaves are derived and its place in the key.
Node `(0, i)` is the compressed one-time public key of leaf `i`; node `(z + 1, i)` joins the nodes
`(z, 2 * i)` and `(z, 2 * i + 1)`. A node is taken from the cache if it is there; a computed one is
offered to the cache. Nodes that were kept before a failure stay kept, so every computation returns
the cache beside its outcome.

`rootFromSignature` climbs from a one-time signature along an authentication path to the root.
-/

namespace Hypertree

/-- One tree of a key. -/
structure Tree where
  setting : Setting
  seeds : Seeds
  layer : Nat
  index : Nat

namespace Tree

variable (t : Tree)

/-- The height of the tree. -/
def height : Nat :=
  t.setting.params.treeHeight

/-- The compressed one-time public key of a leaf. -/
def leaf (leaf : Nat) : Except Error Bytes := do
  let publicKey ← OneTime.publicKey t.setting t.seeds t.layer t.index leaf
  LTree.compress t.setting publicKey t.seeds.publicSeed (.ltree t.layer t.index leaf)

/-- The parent with index `index` of two computed nodes at height `height`. -/
def parent (height index : Nat) (left right : Except Error Bytes) : Except Error Bytes := do
  let left ← left
  let right ← right
  t.setting.hashPair left right t.seeds.publicSeed (.hashTree t.layer t.index height index)

/-- Offers a computed node to the cache. -/
def offer (height index : Nat) (node : Except Error Bytes) (cache : Option NodeCache) :
    Except Error Bytes × Option NodeCache :=
  match node with
  | .error e => (.error e, cache)
  | .ok node =>
    (.ok node, cache.map fun c => (c.offer t.setting.params.cache t.height height index node).2)

/-- The node at a height and index. Both halves of a subtree are computed, the left one first, even
if one of them fails. -/
def node : (height index : Nat) → Option NodeCache → Except Error Bytes × Option NodeCache
  | height, index, cache =>
    match cache.bind (·.get? height index) with
    | some kept => (.ok kept, cache)
    | none =>
      match height with
      | 0 => t.offer 0 index (t.leaf index) cache
      | height + 1 =>
        let (left, cache) := node height (2 * index) cache
        let (right, cache) := node height (2 * index + 1) cache
        t.offer (height + 1) index (t.parent height index left right) cache

/-- The root. -/
def root (cache : Option NodeCache) : Except Error Bytes × Option NodeCache :=
  t.node t.height 0 cache

/-- The siblings on the path of a leaf at `count` heights from `height` on. -/
def siblings (leaf : Nat) : (count height : Nat) → Option NodeCache →
    Except Error (List Bytes) × Option NodeCache
  | 0, _, cache => (.ok [], cache)
  | count + 1, height, cache =>
    match t.node height ((leaf >>> height) ^^^ 1) cache with
    | (.error e, cache) => (.error e, cache)
    | (.ok sibling, cache) =>
      let (rest, cache) := siblings leaf count (height + 1) cache
      (rest.map (sibling :: ·), cache)

/-- The siblings on the path of a leaf, the leaf level first. -/
def authPath (leaf : Nat) (cache : Option NodeCache) : Except Error Bytes × Option NodeCache :=
  let (path, cache) := t.siblings leaf t.height 0 cache
  (path.map List.flatten, cache)

/-- The one-time signature of a digest with the key of a leaf, and the authentication path of the
leaf. -/
def sign (leaf : Nat) (message : Bytes) (cache : Option NodeCache) :
    Except Error (Bytes × Bytes) × Option NodeCache :=
  match OneTime.sign t.setting t.seeds t.layer t.index leaf message with
  | .error e => (.error e, cache)
  | .ok ots =>
    let (path, cache) := t.authPath leaf cache
    (path.map (ots, ·), cache)

end Tree

/-- Climbs from the node on the path of a leaf at height `height` past the given siblings. -/
def climb (s : Setting) (publicSeed : Bytes) (layer tree leaf : Nat) :
    (height : Nat) → (node : Bytes) → List Bytes → Except Error Bytes
  | _, node, [] => .ok node
  | height, node, sibling :: rest => do
    let a := Address.hashTree layer tree height (leaf >>> (height + 1))
    -- the lowest bit of the index says on which side the sibling is
    let parent ←
      if (leaf >>> height) % 2 = 0 then s.hashPair node sibling publicSeed a
      else s.hashPair sibling node publicSeed a
    climb s publicSeed layer tree leaf (height + 1) parent rest

/-- The root of the tree in which a one-time signature and an authentication path are valid for a
digest. There is none if a size does not fit the parameters or the leaf is outside the tree. -/
def rootFromSignature (s : Setting) (publicSeed : Bytes) (layer tree leaf : Nat)
    (ots auth message : Bytes) : Except Error (Option Bytes) := do
  let height := s.params.treeHeight
  if auth.length = height * s.n ∧ leaf < 2 ^ height then
    match ← OneTime.recover s ots message publicSeed layer tree leaf with
    | none => return none
    | some publicKey =>
      let node ← LTree.compress s publicKey publicSeed (.ltree layer tree leaf)
      let root ← climb s publicSeed layer tree leaf 0 node (Bytes.pieces s.n height auth)
      return some root
  else return none

end Hypertree
