import Hypertree.Schedule
import Mathlib

/-!
# Work in pieces

`mapPieces_eq`: if a buffer holds `count` whole pieces and the operation has a result for each of
them, the buffer afterwards holds these results one after another. After the first `k` steps the
first `k` pieces are results and the others are as they were, which is what the induction carries.

`mapPiecesIn_eq_mapPieces`: the pieces may be computed in any order, if those that fail fail with one
error. Two steps on different pieces can be exchanged (`step_comm`): each leaves what the other
starts from (`outcome_step`), and of two failures the later one is no other than the earlier one.

The lemmas on `Bytes.pieces` say that cutting a string into pieces and joining pieces of one size
undo each other.
-/

namespace Hypertree

/-! ### Strings as pieces -/

namespace Bytes

theorem length_flatten {size : Nat} {nodes : List Bytes} (h : ∀ x ∈ nodes, x.length = size) :
    nodes.flatten.length = nodes.length * size := by
  induction nodes with
  | nil => simp
  | cons x nodes ih =>
    rw [List.flatten_cons, List.length_append, h x List.mem_cons_self,
      ih fun y hy => h y (List.mem_cons_of_mem _ hy), List.length_cons, Nat.succ_mul, Nat.add_comm]

/-- Cutting joined pieces of one size gives them back. -/
theorem pieces_flatten {size : Nat} {nodes : List Bytes} (h : ∀ x ∈ nodes, x.length = size) :
    pieces size nodes.length nodes.flatten = nodes := by
  induction nodes with
  | nil => rfl
  | cons x nodes ih =>
    have hx : x.length = size := h x List.mem_cons_self
    rw [List.length_cons, pieces, List.flatten_cons, ← hx, List.take_left, List.drop_left, hx,
      ih fun y hy => h y (List.mem_cons_of_mem _ hy)]

theorem length_of_mem_pieces {size count : Nat} {bytes : Bytes} (hlen : bytes.length = count * size)
    {x : Bytes} (hx : x ∈ pieces size count bytes) : x.length = size := by
  induction count generalizing bytes with
  | zero => simp [pieces] at hx
  | succ count ih =>
    rw [Nat.succ_mul] at hlen
    rw [pieces] at hx
    have hrest : (bytes.drop size).length = count * size := by
      rw [List.length_drop]
      omega
    rcases List.mem_cons.mp hx with rfl | hx
    · rw [List.length_take]
      omega
    · exact ih hrest hx

theorem length_getD_pieces {size count : Nat} {bytes : Bytes} (hlen : bytes.length = count * size)
    {i : Nat} (hi : i < count) : ((pieces size count bytes).getD i []).length = size := by
  have hi' : i < (pieces size count bytes).length := by rwa [length_pieces]
  rw [List.getD_eq_getElem _ _ hi']
  exact length_of_mem_pieces hlen (List.getElem_mem hi')

/-- Joining the pieces of a string gives it back. -/
theorem flatten_pieces {size count : Nat} {bytes : Bytes} (hlen : bytes.length = count * size) :
    (pieces size count bytes).flatten = bytes := by
  induction count generalizing bytes with
  | zero =>
    rw [zero_mul] at hlen
    rw [List.length_eq_zero_iff.mp hlen]
    rfl
  | succ count ih =>
    rw [Nat.succ_mul] at hlen
    have hrest : (bytes.drop size).length = count * size := by
      rw [List.length_drop]
      omega
    rw [pieces, List.flatten_cons, ih hrest, List.take_append_drop]

theorem pieceCount_mul {size : Nat} (hsize : 0 < size) (count : Nat) :
    pieceCount size (count * size) = count := by
  unfold pieceCount
  rw [Nat.add_sub_assoc hsize, mul_comm, Nat.mul_add_div hsize, Nat.div_eq_of_lt (by omega),
    add_zero]

end Bytes

/-! ### Filling a buffer -/

namespace Schedule

open Bytes

/-- The pieces after the first `k` steps: `k` results, and the others as they were. -/
theorem foldl_step {op : Nat → Bytes → Except Error Bytes} {g : Nat → Bytes} (start : List Bytes)
    (hop : ∀ i < start.length, op i (start.getD i []) = .ok (g i)) :
    ∀ k ≤ start.length, (List.range k).foldl (step op) ⟨start.toArray, none⟩
      = ⟨((List.range k).map g ++ start.drop k).toArray, none⟩ := by
  intro k
  induction k with
  | zero =>
    intro _
    rfl
  | succ k ih =>
    intro hk
    -- place `k` has not been written yet
    have hpiece : ((List.range k).map g ++ start.drop k).toArray.getD k [] = start.getD k [] := by
      rw [Array.getD_eq_getD_getElem?, List.getElem?_toArray,
        List.getElem?_append_right (by simp), List.length_map,
        List.length_range, Nat.sub_self, List.getElem?_drop, Nat.add_zero,
        ← List.getD_eq_getElem?_getD]
    rw [List.range_succ, List.foldl_append, ih (by omega), List.foldl_cons, List.foldl_nil, step]
    simp only [hpiece, hop k (by omega), List.map_append, List.map_cons,
      List.map_nil, List.setIfInBounds_toArray]
    rw [List.set_append_right _ _ (by simp), List.length_map, List.length_range, Nat.sub_self,
      List.drop_eq_getElem_cons (by omega), List.set_cons_zero, List.append_assoc]
    rfl

/-- **The pieces one after another**, each the result of its operation. -/
theorem mapPieces_eq {size count : Nat} (hsize : 0 < size) {op : Nat → Bytes → Except Error Bytes}
    {g : Nat → Bytes} {buffer : Bytes} (hlen : buffer.length = count * size)
    (hop : ∀ i < count, op i ((pieces size count buffer).getD i []) = .ok (g i)) :
    mapPieces size op buffer = .ok ((List.range count).map g).flatten := by
  have hop' : ∀ i < (pieces size count buffer).length,
      op i ((pieces size count buffer).getD i []) = .ok (g i) := by
    intro i hi
    exact hop i (by simpa using hi)
  have hdone := foldl_step (pieces size count buffer) hop' count (by simp)
  rw [List.drop_eq_nil_of_le (by simp), List.append_nil] at hdone
  simp only [mapPieces, mapPiecesIn, hlen, pieceCount_mul hsize, hdone]

/-- An operation that fails with one error for every piece leaves that error behind. -/
theorem foldl_step_error {op : Nat → Bytes → Except Error Bytes} {e : Error}
    (hop : ∀ i x, op i x = .error e) {order : List Nat} (horder : order ≠ []) (p : Progress) :
    (order.foldl (step op) p).failure = some e := by
  -- the last piece decides
  obtain ⟨rest, last, rfl⟩ :=
    (List.eq_nil_or_concat order).resolve_left horder
  have hstep : ∀ q i, (step op q i).failure = some e := by
    intro q i
    simp only [step, hop]
  rw [List.concat_eq_append, List.foldl_append]
  exact hstep _ last

theorem mapPieces_error {size count : Nat} (hsize : 0 < size) (hcount : 0 < count)
    {op : Nat → Bytes → Except Error Bytes} {e : Error} (hop : ∀ i x, op i x = .error e)
    {buffer : Bytes} (hlen : buffer.length = count * size) :
    mapPieces size op buffer = .error e := by
  have horder : List.range count ≠ [] := by
    simpa using hcount.ne'
  simp only [mapPieces, mapPiecesIn, hlen, pieceCount_mul hsize, foldl_step_error hop horder]

/-! ### Orders -/

section

variable {op : Nat → Bytes → Except Error Bytes} {p : Progress} {i j : Nat}

/-- What the operation gives for a piece as it is. -/
def Progress.outcome (p : Progress) (op : Nat → Bytes → Except Error Bytes) (i : Nat) :
    Except Error Bytes :=
  op i (p.pieces.getD i [])

/-- Computing one piece changes nothing for the others. -/
theorem outcome_step (hne : i ≠ j) : (step op p i).outcome op j = p.outcome op j := by
  unfold step
  split
  · rw [Progress.outcome, Progress.outcome, Array.getD_eq_getD_getElem?,
      Array.getElem?_setIfInBounds_ne hne, ← Array.getD_eq_getD_getElem?]
  · rfl

theorem step_of_ok {piece : Bytes} (h : p.outcome op i = .ok piece) :
    step op p i = { p with pieces := p.pieces.setIfInBounds i piece } := by
  rw [Progress.outcome] at h
  simp only [step, h]

theorem step_of_error {e : Error} (h : p.outcome op i = .error e) :
    step op p i = { p with failure := some e } := by
  rw [Progress.outcome] at h
  simp only [step, h]

/-- Two pieces that fail with one error, if they fail, may be computed in either order. -/
theorem step_comm (hne : i ≠ j)
    (hfailure : ∀ e e', p.outcome op i = .error e → p.outcome op j = .error e' → e = e') :
    step op (step op p i) j = step op (step op p j) i := by
  -- an item's outcome depends on its own piece only, which the other step leaves as it is
  have hj : (step op p i).outcome op j = p.outcome op j := outcome_step hne
  have hi : (step op p j).outcome op i = p.outcome op i := outcome_step hne.symm
  -- two pieces are written at different places, and two errors are the same one
  cases hfirst : p.outcome op i with
  | ok piece =>
    cases hsecond : p.outcome op j with
    | ok piece' =>
      rw [step_of_ok (hj.trans hsecond), step_of_ok (hi.trans hfirst), step_of_ok hfirst,
        step_of_ok hsecond]
      simp only [Array.setIfInBounds_comm _ _ hne]
    | error e' =>
      rw [step_of_error (hj.trans hsecond), step_of_ok (hi.trans hfirst), step_of_ok hfirst,
        step_of_error hsecond]
  | error e =>
    cases hsecond : p.outcome op j with
    | ok piece' =>
      rw [step_of_ok (hj.trans hsecond), step_of_error (hi.trans hfirst), step_of_error hfirst,
        step_of_ok hsecond]
    | error e' =>
      rw [step_of_error (hj.trans hsecond), step_of_error (hi.trans hfirst), step_of_error hfirst,
        step_of_error hsecond, hfailure e e' hfirst hsecond]

/-- The pieces that fail fail with one error. -/
def OneFailure (op : Nat → Bytes → Except Error Bytes) (p : Progress) (order : List Nat) : Prop :=
  ∀ i ∈ order, ∀ j ∈ order, ∀ e e', p.outcome op i = .error e → p.outcome op j = .error e' → e = e'

theorem OneFailure.of_step {order : List Nat} (h : OneFailure op p (i :: order))
    (hi : i ∉ order) : OneFailure op (step op p i) order := by
  intro j hj k hk e e' he he'
  rw [outcome_step (ne_of_mem_of_not_mem hj hi).symm] at he
  rw [outcome_step (ne_of_mem_of_not_mem hk hi).symm] at he'
  exact h j (List.mem_cons_of_mem _ hj) k (List.mem_cons_of_mem _ hk) e e' he he'

/-- **The order of the pieces does not matter** if those that fail fail with one error. -/
theorem foldl_step_perm {order order' : List Nat} (hperm : order.Perm order')
    (hnodup : order.Nodup) (p : Progress) (hfailure : OneFailure op p order) :
    order.foldl (step op) p = order'.foldl (step op) p := by
  -- a permutation is a sequence of swaps of neighbours
  induction hperm generalizing p with
  | nil => rfl
  | cons i _ ih =>
    obtain ⟨hi, hrest⟩ := List.nodup_cons.mp hnodup
    exact ih hrest (step op p i) (hfailure.of_step hi)
  | swap i j order =>
    have hne : j ≠ i := fun h => (List.nodup_cons.mp hnodup).1 (h ▸ List.mem_cons_self)
    have hswap : step op (step op p j) i = step op (step op p i) j :=
      step_comm hne (hfailure j List.mem_cons_self i (List.mem_cons_of_mem _ List.mem_cons_self))
    simp only [List.foldl_cons, hswap]
  | trans hfirst _ ih ih' =>
    rw [ih hnodup p hfailure]
    refine ih' (hfirst.nodup_iff.mp hnodup) p fun i hi j hj => ?_
    exact hfailure i (hfirst.mem_iff.mpr hi) j (hfirst.mem_iff.mpr hj)

/-- **Any order will do.** A buffer of `count` pieces comes out as from the first piece to the last. -/
theorem mapPiecesIn_eq_mapPieces {size count : Nat} (hsize : 0 < size) {buffer : Bytes}
    (hlen : buffer.length = count * size) {order : List Nat} (horder : order.Perm (List.range count))
    (hfailure : ∀ i < count, ∀ j < count, ∀ e e',
      op i ((Bytes.pieces size count buffer).getD i []) = .error e →
      op j ((Bytes.pieces size count buffer).getD j []) = .error e' → e = e') :
    mapPiecesIn order size op buffer = mapPieces size op buffer := by
  have hcount : Bytes.pieceCount size buffer.length = count := by
    rw [hlen, Bytes.pieceCount_mul hsize]
  have hnodup : order.Nodup := horder.nodup_iff.mpr List.nodup_range
  -- at the start every piece is the one of the buffer
  have hone : OneFailure op ⟨(Bytes.pieces size count buffer).toArray, none⟩ order := by
    intro i hi j hj e e' he he'
    rw [horder.mem_iff, List.mem_range] at hi hj
    refine hfailure i hi j hj e e' ?_ ?_
    · simpa [Progress.outcome] using he
    · simpa [Progress.outcome] using he'
  have hfold := foldl_step_perm horder hnodup _ hone
  simp only [mapPieces, mapPiecesIn, hcount, hfold]

end

end Schedule

end Hypertree
