import Hypertree.Proofs.Bytes.Xor

/-!
# Sums written over a buffer

Writing the sum of two byte strings over a buffer goes through the buffer once, from its start
(`run_writeSums`). After `m` bytes it holds `m` bytes of the sum and then its own (`partly`); a word
or a byte more takes it to the next such state (`run_writeSum`). What is still to be read of the
left operand has not been written over, so that may be the buffer itself.

The lengths are compared before anything is written: operands of different lengths are refused and
the buffer is what it was (`run_sumOf`, `run_masked`).
-/

namespace Hypertree.Bytes

/-! ### The byte-wise sum -/

/-- The sum of strings is that of their fronts and that of what is left. -/
theorem xorBytewise_append {a b : Bytes} (h : a.length = b.length) (a' b' : Bytes) :
    xorBytewise (a ++ a') (b ++ b') = xorBytewise a b ++ xorBytewise a' b' :=
  List.zipWith_append h

theorem getElem?_xorBytewise {a b : Bytes} {i : Nat} (ha : i < a.length) (hb : i < b.length) :
    (xorBytewise a b)[i]? = some (a[i] ^^^ b[i]) := by
  rw [xorBytewise, List.getElem?_zipWith, List.getElem?_eq_getElem ha, List.getElem?_eq_getElem hb]

/-- Every byte of a string is the sum of the bytes at its place in two others. -/
def IsSum (a b sum : Bytes) : Prop :=
  sum.length = a.length ∧ ∀ i < a.length, sum.getD i 0 = a.getD i 0 ^^^ b.getD i 0

theorem isSum_xorBytewise {a b : Bytes} (h : a.length = b.length) :
    IsSum a b (xorBytewise a b) := by
  refine ⟨by rw [length_xorBytewise, h, min_self], ?_⟩
  intro i hi
  have hib : i < b.length := h ▸ hi
  rw [List.getD_eq_getElem?_getD, getElem?_xorBytewise hi hib, List.getD_eq_getElem _ _ hi,
    List.getD_eq_getElem _ _ hib, Option.getD_some]

/-- A mask added twice is gone. -/
theorem xorBytewise_cancel {a mask : Bytes} (h : a.length = mask.length) :
    xorBytewise (xorBytewise a mask) mask = a := by
  apply List.ext_getElem (by simp [h])
  intro i _ _
  simp [xorBytewise]

namespace Writing

/-! ### Computations on a buffer -/

section

variable {α : Type} {buffer buffer' : Bytes}

/-- A computation goes on where its first part has left the buffer. -/
theorem run_bind {x : EStateM Error Bytes α} {f : α → Writing} {v : α}
    (h : x.run buffer = .ok v buffer') : (x >>= f).run buffer = (f v).run buffer' := by
  show EStateM.bind x f buffer = _
  unfold EStateM.bind
  rw [show x buffer = _ from h]
  rfl

/-- A computation ends where its first part fails. -/
theorem run_bind_error {x : EStateM Error Bytes α} {f : α → Writing} {e : Error}
    (h : x.run buffer = .error e buffer') : (x >>= f).run buffer = .error e buffer' := by
  show EStateM.bind x f buffer = _
  unfold EStateM.bind
  rw [show x buffer = _ from h]

/-- A comparison of lengths before the rest of a computation writes nothing. -/
theorem run_sameLength_bind (m n : Nat) (rest : Unit → Writing) (buffer : Bytes) :
    (sameLength m n >>= rest).run buffer
      = if m = n then (rest ()).run buffer else .error .unequalOperands buffer := by
  by_cases h : m = n
  · rw [if_pos h]
    exact run_bind (by rw [sameLength, if_pos h]; rfl)
  · rw [if_neg h]
    exact run_bind_error (by rw [sameLength, if_neg h]; rfl)

end

/-- A loop takes the buffer through the states that its steps lead to. -/
theorem run_forM_range (step : Nat → Writing) (state : Nat → Bytes) {count : Nat}
    (h : ∀ k < count, (step k).run (state k) = .ok () (state (k + 1))) :
    ((List.range count).forM step).run (state 0) = .ok () (state count) := by
  induction count with
  | zero => rfl
  | succ count ih =>
    have hfront := ih fun k hk => h k (Nat.lt_succ_of_lt hk)
    have hlast := h count (Nat.lt_succ_self count)
    rw [List.forM_eq_forM] at hfront ⊢
    rw [List.range_succ, List.forM_append, run_bind hfront]
    exact run_bind hlast

/-! ### Writing a sum -/

/-- The buffer after `m` bytes: they are those of the sum, and the others its own. -/
def partly (a b old : Bytes) (m : Nat) : Bytes :=
  xorBytewise (a.take m) (b.take m) ++ old.drop m

section

variable {a b old : Bytes} {m : Nat}

theorem partly_length (h : a.length = b.length) (hold : old.length = a.length) :
    partly a b old old.length = xorBytewise a b := by
  unfold partly
  rw [List.drop_length, List.append_nil, hold, List.take_length, h, List.take_length]

theorem length_front (h : a.length = b.length) (hm : m ≤ a.length) :
    (xorBytewise (a.take m) (b.take m)).length = m := by
  rw [length_xorBytewise, List.length_take, List.length_take]
  omega

/-- What comes after `m` bytes has not been written over. -/
theorem drop_partly (h : a.length = b.length) (hm : m ≤ a.length) :
    (partly a b old m).drop m = old.drop m :=
  List.drop_left' (length_front h hm)

/-- **One write more.** The left operand is looked up after `m` bytes of the sum have been
written. -/
theorem run_writeSum {sum : Bytes → Bytes → Bytes} (hsum : ∀ x y, sum x y = xorBytewise x y)
    {left : Bytes → Bytes} (h : a.length = b.length)
    (hleft : (left (partly a b old m)).drop m = a.drop m) {size : Nat}
    (hm : m + size ≤ a.length) :
    (writeSum sum left b size m).run (partly a b old m) = .ok () (partly a b old (m + size)) := by
  -- what the earlier steps have written stays in front
  have hfront : (partly a b old m).take m = xorBytewise (a.take m) (b.take m) :=
    List.take_left' (length_front h (by omega))
  -- the operands reach to the end of the piece, so all of it is written
  have hpart : (xorBytewise ((a.drop m).take size) ((b.drop m).take size)).length = size := by
    rw [length_xorBytewise, List.length_take, List.length_take, List.length_drop,
      List.length_drop]
    omega
  have hsplit : xorBytewise (a.take (m + size)) (b.take (m + size))
      = xorBytewise (a.take m) (b.take m)
        ++ xorBytewise ((a.drop m).take size) ((b.drop m).take size) := by
    rw [List.take_add, List.take_add]
    exact xorBytewise_append (by rw [List.length_take, List.length_take, h]) _ _
  have hrun : (writeSum sum left b size m).run (partly a b old m)
      = .ok () ((partly a b old m).take m
        ++ (sum (((left (partly a b old m)).drop m).take size) ((b.drop m).take size)
          ++ (partly a b old m).drop (m + (sum (((left (partly a b old m)).drop m).take size)
            ((b.drop m).take size)).length))) := rfl
  rw [hrun, hsum, hleft, hpart, hfront, ← List.drop_drop, drop_partly h (by omega),
    List.drop_drop, partly, hsplit, List.append_assoc]

/-- **All writes**: words as far as they go, and then bytes. -/
theorem run_writeSums (order : ByteOrder) {left : Bytes → Bytes} (h : a.length = b.length)
    (hold : old.length = a.length)
    (hleft : ∀ m ≤ a.length, (left (partly a b old m)).drop m = a.drop m) :
    (writeSums order left b).run old = .ok () (xorBytewise a b) := by
  -- whole words first, then the bytes that are left; either way a longer front is written
  have hwords := run_forM_range (fun word => writeSum (xorWords order) left b 8 (8 * word))
    (fun word => partly a b old (8 * word)) fun word (hword : word < old.length / 8) =>
      run_writeSum (xorWords_eq order) h (hleft _ (by omega)) (by omega)
  have hbytes := run_forM_range
    (fun byte => writeSum xorBytewise left b 1 (8 * (old.length / 8) + byte))
    (fun byte => partly a b old (8 * (old.length / 8) + byte))
    fun byte (hbyte : byte < old.length % 8) =>
      run_writeSum (fun _ _ => rfl) h (hleft _ (by omega)) (by omega)
  rw [Nat.div_add_mod, partly_length h hold] at hbytes
  have hsize : (get : EStateM Error Bytes Bytes).run old = .ok old old := rfl
  exact (run_bind hsize).trans ((run_bind hwords).trans hbytes)

end

/-- **The sum of two strings over the buffer.** -/
theorem run_sumOf (order : ByteOrder) (out a b : Bytes) :
    (sumOf order a b).run out
      = if out.length = a.length ∧ a.length = b.length then .ok () (xorBytewise a b)
        else .error .unequalOperands out := by
  have hsize : (get : EStateM Error Bytes Bytes).run out = .ok out out := rfl
  rw [sumOf, run_bind hsize, run_sameLength_bind, run_sameLength_bind]
  by_cases hout : out.length = a.length <;> by_cases hab : a.length = b.length
  · rw [if_pos hout, if_pos hab, if_pos ⟨hout, hab⟩]
    exact run_writeSums order hab hout fun _ _ => rfl
  · rw [if_pos hout, if_neg hab, if_neg fun h => hab h.2]
  · rw [if_neg hout, if_neg fun h => hout h.1]
  · rw [if_neg hout, if_neg fun h => hout h.1]

/-- **A mask added in place.** -/
theorem run_masked (order : ByteOrder) (buffer mask : Bytes) :
    (masked order mask).run buffer
      = if buffer.length = mask.length then .ok () (xorBytewise buffer mask)
        else .error .unequalOperands buffer := by
  have hsize : (get : EStateM Error Bytes Bytes).run buffer = .ok buffer buffer := rfl
  rw [masked, run_bind hsize, run_sameLength_bind]
  by_cases h : buffer.length = mask.length
  · rw [if_pos h, if_pos h]
    -- what is still to be read is what was there
    exact run_writeSums order h rfl fun m hm => drop_partly h hm
  · rw [if_neg h, if_neg h]

/-- The sum in place is the one that hashing takes. -/
theorem result_masked (order : ByteOrder) (buffer mask : Bytes) :
    (masked order mask).result buffer = xorOn order buffer mask := by
  rw [result, run_masked, xorOn, xorWords_eq]
  split_ifs <;> rfl

/-- **Words are added as bytes are**, in either byte order. The sum of two strings of one length
comes out byte by byte, written over another buffer or over the left string itself, and the same
mask added once more brings the buffer back. The computations fail exactly for strings of different
lengths, with the buffer as it was; what hashing takes is the sum in place. -/
theorem written_sums (order : ByteOrder) (a b : Bytes) :
    (a.length = b.length → ∃ sum, IsSum a b sum ∧
      (∀ out : Bytes, out.length = a.length → (sumOf order a b).run out = .ok () sum) ∧
      (masked order b).run a = .ok () sum ∧
      (do masked order b; masked order b : Writing).run a = .ok () a) ∧
    (∀ out : Bytes, (sumOf order a b).run out = .error .unequalOperands out ↔
      ¬ (out.length = a.length ∧ a.length = b.length)) ∧
    ((masked order b).run a = .error .unequalOperands a ↔ a.length ≠ b.length) ∧
    (masked order b).result a = xorOn order a b := by
  refine ⟨?_, ?_, ?_, result_masked order a b⟩
  · intro h
    -- once gives the sum, which has the length of the operand, so it can be done again
    have honce : (masked order b).run a = .ok () (xorBytewise a b) := by
      rw [run_masked, if_pos h]
    have htwice : (masked order b).run (xorBytewise a b) = .ok () a := by
      have hlen : (xorBytewise a b).length = b.length := by rw [length_xorBytewise, h, min_self]
      rw [run_masked, if_pos hlen, xorBytewise_cancel h]
    refine ⟨xorBytewise a b, isSum_xorBytewise h, ?_, honce, (run_bind honce).trans htwice⟩
    intro out hout
    rw [run_sumOf, if_pos ⟨hout, h⟩]
  · intro out
    rw [run_sumOf]
    split_ifs with h
    · exact iff_of_false (fun heq => by cases heq) fun hne => hne h
    · exact iff_of_true rfl h
  · rw [run_masked]
    split_ifs with h
    · exact iff_of_false (fun heq => by cases heq) fun hne => hne h
    · exact iff_of_true rfl h

/-- A word and a byte after it; and a mask that ends with the word. -/
theorem written_sums_nine :
    (∃ sum, IsSum [3, 5, 5, 5, 5, 5, 5, 5, 5] [1, 0, 0, 0, 0, 0, 0, 2, 4] sum ∧
      sum.getD 7 0 = 7 ∧ sum.getD 8 0 = 1 ∧
      (masked .big [1, 0, 0, 0, 0, 0, 0, 2, 4]).run [3, 5, 5, 5, 5, 5, 5, 5, 5] = .ok () sum) ∧
    (masked .little [1, 0, 0, 0, 0, 0, 0, 2]).run [3, 5, 5, 5, 5, 5, 5, 5, 5]
      = .error .unequalOperands [3, 5, 5, 5, 5, 5, 5, 5, 5] := by
  obtain ⟨hsum, -⟩ :=
    written_sums .big [3, 5, 5, 5, 5, 5, 5, 5, 5] [1, 0, 0, 0, 0, 0, 0, 2, 4]
  obtain ⟨-, -, hfails, -⟩ :=
    written_sums .little [3, 5, 5, 5, 5, 5, 5, 5, 5] [1, 0, 0, 0, 0, 0, 0, 2]
  obtain ⟨sum, hbytes, -, honce, -⟩ := hsum rfl
  have hseven := hbytes.2 7 (by decide)
  have height := hbytes.2 8 (by decide)
  exact ⟨⟨sum, hbytes, hseven, height, honce⟩, hfails.mpr (by decide)⟩

end Writing

end Hypertree.Bytes
