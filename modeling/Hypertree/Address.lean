import Hypertree.Bytes

/-!
# Addresses

Every keyed hash call names the position it computes: a step of a chain of a one-time key, a pair of
nodes of an L-tree, or a parent node of a tree. An address is written as eight 32-bit words, most
significant byte first:

| word | one-time key | L-tree     | tree   |
|------|--------------|------------|--------|
| 0    | layer        | layer      | layer  |
| 1, 2 | tree         | tree       | tree   |
| 3    | 0            | 1          | 2      |
| 4    | leaf         | leaf       | 0      |
| 5    | chain        | level      | height |
| 6    | step         | pair       | index  |
| 7    | selector     | selector   | selector |

The selector tells apart the key and the masks that are derived at one position.
-/

namespace Hypertree

/-- The kinds of position and their coordinates within a tree. -/
inductive Place where
  /-- A step of a chain of the one-time key of a leaf. -/
  | oneTime (leaf chain step : UInt32)
  /-- A pair of nodes at a level of the L-tree of a leaf. -/
  | ltree (leaf level pair : UInt32)
  /-- The parent with this index of two children at this height. -/
  | hashTree (height index : UInt32)
  deriving DecidableEq, Repr

/-- The position of a hash call. -/
structure Address where
  layer : UInt32
  tree : UInt64
  place : Place
  /-- Zero for the key, one and two for the masks. -/
  selector : UInt32
  deriving DecidableEq, Repr

namespace Address

/-- The first step of the first chain of the one-time key of a leaf. -/
def oneTime (layer tree leaf : Nat) : Address :=
  ⟨UInt32.ofNat layer, UInt64.ofNat tree, .oneTime (UInt32.ofNat leaf) 0 0, 0⟩

/-- The first pair of the lowest level of the L-tree of a leaf. -/
def ltree (layer tree leaf : Nat) : Address :=
  ⟨UInt32.ofNat layer, UInt64.ofNat tree, .ltree (UInt32.ofNat leaf) 0 0, 0⟩

/-- The parent with index `index` of two children at height `height`. -/
def hashTree (layer tree height index : Nat) : Address :=
  ⟨UInt32.ofNat layer, UInt64.ofNat tree, .hashTree (UInt32.ofNat height) (UInt32.ofNat index), 0⟩

/-- The address at the start of another chain; other kinds have no chain and stay as they are. -/
def setChain (a : Address) (value : UInt32) : Address :=
  match a.place with
  | .oneTime leaf _ _ => { a with place := .oneTime leaf value 0 }
  | _ => a

/-- The address at another step of its chain. -/
def setStep (a : Address) (value : UInt32) : Address :=
  match a.place with
  | .oneTime leaf chain _ => { a with place := .oneTime leaf chain value }
  | _ => a

/-- The address at another level of its L-tree or tree. -/
def setLevel (a : Address) (value : UInt32) : Address :=
  match a.place with
  | .ltree leaf _ pair => { a with place := .ltree leaf value pair }
  | .hashTree _ index => { a with place := .hashTree value index }
  | .oneTime .. => a

/-- The address at another index of its level. -/
def setIndex (a : Address) (value : UInt32) : Address :=
  match a.place with
  | .ltree leaf level _ => { a with place := .ltree leaf level value }
  | .hashTree height _ => { a with place := .hashTree height value }
  | .oneTime .. => a

/-- The address with another selector. -/
def withSelector (a : Address) (value : UInt32) : Address :=
  { a with selector := value }

/-- A 32-bit word, most significant byte first. -/
def word (x : UInt32) : Bytes :=
  Bytes.bigEndian 4 x.toNat

/-- The words that depend on the kind of position. -/
def placeBytes : Place → Bytes
  | .oneTime leaf chain step => word 0 ++ (word leaf ++ (word chain ++ word step))
  | .ltree leaf level pair => word 1 ++ (word leaf ++ (word level ++ word pair))
  | .hashTree height index => word 2 ++ (word 0 ++ (word height ++ word index))

/-- The thirty-two bytes of an address. -/
def toBytes (a : Address) : Bytes :=
  word a.layer ++ (Bytes.bigEndian 8 a.tree.toNat ++ (placeBytes a.place ++ word a.selector))

theorem length_toBytes (a : Address) : a.toBytes.length = 32 := by
  cases h : a.place <;> simp [toBytes, placeBytes, word, h]

end Address

end Hypertree
