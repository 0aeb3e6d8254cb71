import Hypertree.Error

/-!
# Independent pieces of work

A buffer is filled piece by piece: each piece is computed from its number and its previous content
alone, so the pieces may be computed in any order or at once. The order is an argument of
`mapPiecesIn`. A failed piece does not stop the others; the failure seen last is reported once all
are done. `mapPieces` goes from the first piece to the last.
-/

namespace Hypertree.Schedule

/-- The pieces of a buffer in the course of the work, and the failure seen last. -/
structure Progress where
  pieces : Array Bytes
  failure : Option Error

/-- Computes one piece. -/
def step (op : Nat → Bytes → Except Error Bytes) (p : Progress) (i : Nat) : Progress :=
  match op i (p.pieces.getD i []) with
  | .ok piece => { p with pieces := p.pieces.setIfInBounds i piece }
  | .error e => { p with failure := some e }

/-- Computes the pieces of `size` bytes of a buffer in a given order. -/
def mapPiecesIn (order : List Nat) (size : Nat) (op : Nat → Bytes → Except Error Bytes)
    (buffer : Bytes) : Except Error Bytes :=
  let count := Bytes.pieceCount size buffer.length
  let start : Progress := ⟨(Bytes.pieces size count buffer).toArray, none⟩
  let done := order.foldl (step op) start
  match done.failure with
  | some e => .error e
  | none => .ok done.pieces.toList.flatten

/-- Computes the pieces of `size` bytes of a buffer from the first to the last. -/
def mapPieces (size : Nat) (op : Nat → Bytes → Except Error Bytes) (buffer : Bytes) :
    Except Error Bytes :=
  mapPiecesIn (List.range (Bytes.pieceCount size buffer.length)) size op buffer

end Hypertree.Schedule
