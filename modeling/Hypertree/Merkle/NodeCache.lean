import Hypertree.PairMap
import Hypertree.Params

/-!
# Node caches

Each tree of a key may keep computed nodes for later signatures. A cache has a cursor, the next leaf
to sign. A node of a tree of height `h` is *reachable* from a cursor if it is the root, or the
sibling on the path of a leaf at or after the cursor. Nodes are offered when they are computed, and
the policy decides which of the reachable ones are kept; eviction happens only in an explicit pass.

`Caches` holds the caches of a key by layer and tree. `Caches.clean` moves every cache on to the
next index to be signed: trees that are not in use there are dropped, and the one in use in each
layer keeps what its policy needs from the new cursor on.
-/

namespace Hypertree

/-- Whether a node can be on the authentication path of the cursor or a later leaf, or is the
root. -/
def isReachable (treeHeight cursor height index : Nat) : Bool :=
  height == treeHeight || (cursor >>> height) ≤ (index ^^^ 1)

/-- Whether a policy keeps a node at a cursor. -/
def CachePolicy.keeps (policy : CachePolicy) (treeHeight cursor height index : Nat) : Bool :=
  isReachable treeHeight cursor height index &&
    match policy with
    | .disabled => false
    | .full => true
    | .auto levels =>
      -- the upper levels, and the siblings for the cursor and the leaf after it
      treeHeight - height ≤ levels
        || index == (cursor >>> height) ^^^ 1
        || index == ((cursor + 1) >>> height) ^^^ 1

/-- The kept nodes of one tree, by height and index. -/
structure NodeCache where
  nodes : PairMap Bytes
  /-- The next leaf to sign in the tree. -/
  cursor : Nat

namespace NodeCache

/-- A cache without nodes. -/
def empty (cursor : Nat) : NodeCache :=
  ⟨PairMap.empty, cursor⟩

/-- A kept node. -/
def get? (c : NodeCache) (height index : Nat) : Option Bytes :=
  c.nodes.get? (height, index)

/-- The number of nodes. -/
def size (c : NodeCache) : Nat :=
  c.nodes.size

/-- Adds a node whatever the policy. -/
def insert (c : NodeCache) (height index : Nat) (node : Bytes) : NodeCache :=
  { c with nodes := c.nodes.insert (height, index) node }

/-- Offers a computed node: it is kept if the policy wants it, and then the first value stays.
Returns whether the policy wanted it. -/
def offer (c : NodeCache) (policy : CachePolicy) (treeHeight height index : Nat) (node : Bytes) :
    Bool × NodeCache :=
  if policy.keeps treeHeight c.cursor height index then
    (true, { c with nodes := c.nodes.insertNew (height, index) node })
  else (false, c)

/-- Moves the cursor and drops the nodes that the policy no longer keeps. Returns how many. -/
def shake (c : NodeCache) (policy : CachePolicy) (treeHeight cursor : Nat) : Nat × NodeCache :=
  let nodes := c.nodes.filter fun key => policy.keeps treeHeight cursor key.1 key.2
  (c.nodes.size - nodes.size, ⟨nodes, cursor⟩)

end NodeCache

/-- The node caches of a key, by layer and tree. -/
structure Caches where
  trees : PairMap NodeCache

namespace Caches

/-- No caches. -/
def empty : Caches :=
  ⟨PairMap.empty⟩

/-- The cache of a tree. -/
def tree? (c : Caches) (layer tree : Nat) : Option NodeCache :=
  c.trees.get? (layer, tree)

/-- The cache of a tree; one without nodes at the given cursor if there is none. -/
def treeOrEmpty (c : Caches) (layer tree cursor : Nat) : NodeCache :=
  (c.tree? layer tree).getD (.empty cursor)

/-- Sets the cache of a tree. -/
def insertTree (c : Caches) (layer tree : Nat) (cache : NodeCache) : Caches :=
  ⟨c.trees.insert (layer, tree) cache⟩

/-- The number of trees with a cache. -/
def treeCount (c : Caches) : Nat :=
  c.trees.size

/-- The number of nodes in all caches. -/
def nodeCount (c : Caches) : Nat :=
  (c.trees.values.map NodeCache.size).sum

/-- Whether the tree of a layer is the one that an index uses there. -/
def isActive (treeHeight layers index layer tree : Nat) : Bool :=
  layer < layers && tree == treeIndex index layer treeHeight

/-- What becomes of one cache when the next index to be signed is `next`: the number of nodes
dropped, and the cache if its tree is in use. -/
def cleanTree (policy : CachePolicy) (treeHeight layers next : Nat) (key : Nat × Nat)
    (cache : NodeCache) : Nat × Option NodeCache :=
  if isActive treeHeight layers next key.1 key.2 then
    let (evicted, cache) := cache.shake policy treeHeight (leafIndex next key.1 treeHeight)
    (evicted, some cache)
  else (cache.size, none)

/-- Drops every node that no signature from index `next` on can use, as far as the policy goes; all
of them if all `max` indices have been used. Returns how many were dropped. -/
def clean (c : Caches) (policy : CachePolicy) (treeHeight layers next max : Nat) : Nat × Caches :=
  if max ≤ next then (c.nodeCount, empty)
  else
    let evicted := c.trees.entries.map fun e => (cleanTree policy treeHeight layers next e.1 e.2).1
    (evicted.sum, ⟨c.trees.filterMap fun key cache =>
      (cleanTree policy treeHeight layers next key cache).2⟩)

end Caches

end Hypertree
