import Hypertree.Proofs.Bytes.Canonical
import Hypertree.Proofs.Checked

/-!
# A checked reader

`Decoder` takes bytes from the front of a list. A program reads from a buffer at a position, and
each read is a difference, a comparison and a slice. `Reader` is that: its `Cursor` holds the
buffer, the position and the number of entries of the input, tree caches, nodes and layers, of which
the first byte has been read. The cursor outlives a failure, so it also says what was read before
the input was refused.

`Follows g d` says that the reader `g` does what the decoder `d` does: at every position within the
buffer it returns the same value or the same error, in particular no breach, and the position stays
within the buffer and at or after the number of entries. It is proved as readers are composed, one
rule for each construct, and for a whole buffer it gives the outcome of the decoder and a bound on
the entries (`Follows.decode`).
-/

namespace Hypertree.Checked

/-- A position in a buffer, and the number of entries read so far. -/
structure Cursor where
  bytes : Bytes
  pos : Nat
  entries : Nat

/-- A computation that reads from a buffer. -/
abbrev Reader := ExceptT Stop (StateM Cursor)

variable {α β : Type}

/-! ### Reading -/

/-- What a reader returns at a cursor, and the cursor after it. -/
def Reader.outcome (g : Reader α) (c : Cursor) : Except Stop α × Cursor :=
  (ExceptT.run g).run c

/-- Fails for a broken rule of the encoding. -/
def fault (fault : EncodingFault) : Reader α :=
  throw (.refusal (.encoding fault))

/-- The number of bytes left. -/
def remaining : Reader Nat := do
  let c ← get
  difference c.bytes.length c.pos

/-- The next `len` bytes. -/
def take (len : Nat) (field : Field) : Reader Bytes := do
  let left ← remaining
  if left < len then
    throw (.refusal (.truncated field))
  let c ← get
  let out ← slice c.bytes c.pos (c.pos + len)
  set { c with pos := c.pos + len }
  return out

/-- The next byte. -/
def byte (field : Field) : Reader UInt8 := do
  let out ← take 1 field
  element out 0

/-- The first byte of an entry. -/
def entry (field : Field) : Reader UInt8 := do
  let b ← byte field
  modify fun c => { c with entries := c.entries + 1 }
  return b

/-- The groups of a variable-length integer from the given shift on; at most `left` of them. -/
def varintGroups (field : Field) : (left : Nat) → (shift value : UInt64) → Reader UInt64
  | 0, _, _ => fault .varintTooLong
  | left + 1, shift, value => do
    let b ← byte field
    let bits := (b &&& 0x7f).toUInt64
    if shift = 63 ∧ 1 < bits then
      fault .varintOverflow
    else
      let group ← shiftLeft64 bits shift.toNat
      let value := value ||| group
      if b &&& 0x80 = 0 then
        if b = 0 ∧ shift ≠ 0 then fault .varintNotMinimal else return value
      else varintGroups field left (shift + 7) value

/-- A variable-length integer. -/
def varint (field : Field) : Reader Nat := do
  let value ← varintGroups field 10 0 0
  return value.toNat

/-- A variable-length integer of at most `max`. -/
def bounded (field : Field) (max : Nat) : Reader Nat := do
  let value ← varint field
  if value ≤ max then return value else fault (.field field)

/-- A string of a given length that is preceded by its length. -/
def prefixed (len : Nat) (field : Field) : Reader Bytes := do
  let actual ← varint field
  if actual = len then take len field else throw (.refusal (.invalidLength field len actual))

/-- `count` values, one after another. -/
def repeated (g : Reader α) : (count : Nat) → Reader (List α)
  | 0 => return []
  | count + 1 => do
    let value ← g
    let rest ← repeated g count
    return value :: rest

/-- Refuses bytes that are left over. -/
def finish : Reader Unit := do
  let left ← remaining
  if left ≠ 0 then
    fault .trailingBytes

/-- Reads a whole buffer. -/
def decode (g : Reader α) (bytes : Bytes) : Except Stop α × Cursor :=
  Reader.outcome (do let v ← g; finish; return v) ⟨bytes, 0, 0⟩

/-! ### Composed readers -/

section

variable (c : Cursor)

theorem outcome_bind (g : Reader α) (f : α → Reader β) :
    Reader.outcome (g >>= f) c
      = match g.outcome c with
        | (.ok v, c') => (f v).outcome c'
        | (.error e, c') => (.error e, c') := by
  have h : Reader.outcome (g >>= f) c
      = (ExceptT.bindCont f (g.outcome c).1).run (g.outcome c).2 := rfl
  rw [h]
  rcases g.outcome c with ⟨_ | v, c'⟩ <;> rfl

theorem outcome_lift (x : Except Stop α) :
    Reader.outcome (liftM x : Reader α) c = (x, c) := rfl

theorem outcome_value {x : Except Breach α} {v : α} (h : x = .ok v) :
    Reader.outcome (liftM x : Reader α) c = (.ok v, c) := by
  subst h
  rfl

end

/-! ### Doing what a decoder does -/

/-- The bytes that are left. -/
def Cursor.left (c : Cursor) : Bytes :=
  c.bytes.drop c.pos

/-- The position is within the buffer, and there are no more entries than bytes before it. -/
structure Cursor.InRange (c : Cursor) : Prop where
  pos_le : c.pos ≤ c.bytes.length
  entries_le : c.entries ≤ c.pos

/-- What a reader does from a cursor on is what a decoder does on the bytes that are left: the value
is the same and so are the bytes left after it, or the error is the same. -/
inductive Agrees (c : Cursor) : Except Stop α × Cursor → Except Error (α × Bytes) → Prop
  | ok {v : α} {c' : Cursor} (hbytes : c'.bytes = c.bytes) (hrange : c'.InRange) :
    Agrees c (.ok v, c') (.ok (v, c'.left))
  | error {e : Error} {c' : Cursor} (hbytes : c'.bytes = c.bytes) (hrange : c'.InRange)
    (he : e ≠ .unequalOperands) : Agrees c (.error (.refusal e), c') (.error e)

/-- A reader does what a decoder does, wherever it starts. -/
def Follows (g : Reader α) (d : Decoder α) : Prop :=
  ∀ c : Cursor, c.InRange → Agrees c (g.outcome c) (d.run c.left)

/-- Some input makes a reader return a value. -/
def Yields {σ : Type} (d : StateT (List σ) (Except Error) α) (v : α) : Prop :=
  ∃ input rest, d.run input = .ok (v, rest)

theorem eq_of_yields_lift {σ : Type} {y : Except Error α} {v : α}
    (h : Yields (liftM y : StateT (List σ) (Except Error) α) v) : y = .ok v := by
  obtain ⟨input, rest, hrun⟩ := h
  exact (run_lift_eq_ok_iff.mp hrun).1

namespace Follows

theorem pure (v : α) : Follows (pure v) (pure v) := by
  intro c hc
  exact .ok rfl hc

/-- Readers one after another do what decoders one after another do. -/
theorem bind {g : Reader α} {d : Decoder α} {f : α → Reader β} {k : α → Decoder β}
    (h : Follows g d) (hf : ∀ v, Yields d v → Follows (f v) (k v)) :
    Follows (g >>= f) (d >>= k) := by
  intro c hc
  have hg := h c hc
  rw [outcome_bind, StateT.run_bind]
  generalize hx : g.outcome c = x at hg
  generalize hy : d.run c.left = y at hg
  cases hg with
  | @ok v c' hbytes hrange =>
    -- the second reader goes on in the same buffer
    have hrest := hf v ⟨c.left, c'.left, hy⟩ c' hrange
    show Agrees c ((f v).outcome c') ((k v).run c'.left)
    generalize hx' : (f v).outcome c' = x' at hrest
    generalize hy' : (k v).run c'.left = y' at hrest
    cases hrest with
    | ok hbytes' hrange' => exact .ok (hbytes'.trans hbytes) hrange'
    | error hbytes' hrange' he => exact .error (hbytes'.trans hbytes) hrange' he
  | error hbytes hrange he => exact .error hbytes hrange he

/-- A computation that reads nothing. -/
theorem lift {x : Except Stop α} {y : Except Error α} (h : Unbreached x y) :
    Follows (liftM x) (liftM y) := by
  intro c hc
  rw [outcome_lift, h.eq]
  cases hy : y with
  | ok v => exact .ok rfl hc
  | error e =>
    refine .error rfl hc ?_
    rintro rfl
    exact h.ne hy

/-- A computation that reads nothing and uses no partial operation. -/
theorem refusal {y : Except Error α} (h : y ≠ .error .unequalOperands) :
    Follows (liftM y) (liftM y) :=
  lift (.of_ne h)

/-- A partial operation within its domain. -/
theorem value {x : Except Breach α} {v : α} (hx : x = .ok v) {f : α → Reader β} {d : Decoder β}
    (hf : Follows (f v) d) : Follows (liftM x >>= f) d := by
  intro c hc
  rw [outcome_bind, outcome_value c hx]
  exact hf c hc

theorem throw {e : Error} (he : e ≠ .unequalOperands) :
    Follows (throw (Stop.refusal e) : Reader α) (throw e) := by
  intro c hc
  exact .error rfl hc he

theorem fault (f : EncodingFault) : Follows (fault f : Reader α) (Decoder.fault f) :=
  Follows.throw nofun

/-- A check that stands before the rest. -/
theorem guard_throw {p : Prop} [Decidable p] {e : Error} (he : e ≠ .unequalOperands)
    {k : PUnit → Reader β} {k' : PUnit → Decoder β} (h : ¬ p → Follows (k ⟨⟩) (k' ⟨⟩)) :
    Follows (if p then throwThe Stop (.refusal e) >>= k else k ⟨⟩)
      (if p then throwThe Error e >>= k' else k' ⟨⟩) := by
  by_cases hp : p
  · rw [if_pos hp, if_pos hp]
    refine (Follows.throw he).bind fun v hv => ?_
    obtain ⟨input, rest, hrun⟩ := hv
    cases hrun
  · rw [if_neg hp, if_neg hp]
    exact h hp

/-- The same for a rule of the encoding. -/
theorem guard {p : Prop} [Decidable p] {f : EncodingFault} {k : PUnit → Reader β}
    {k' : PUnit → Decoder β} (h : ¬ p → Follows (k ⟨⟩) (k' ⟨⟩)) :
    Follows (if p then Checked.fault f >>= k else k ⟨⟩)
      (if p then Decoder.fault f >>= k' else k' ⟨⟩) :=
  guard_throw (show Error.encoding f ≠ .unequalOperands from nofun) h

theorem ite {p : Prop} [Decidable p] {g g' : Reader α} {d d' : Decoder α}
    (h : p → Follows g d) (h' : ¬ p → Follows g' d') :
    Follows (if p then g else g') (if p then d else d') := by
  by_cases hp : p
  · rw [if_pos hp, if_pos hp]
    exact h hp
  · rw [if_neg hp, if_neg hp]
    exact h' hp

end Follows

/-! ### What each reader does -/

theorem Cursor.length_left (c : Cursor) : c.left.length = c.bytes.length - c.pos :=
  List.length_drop ..

theorem outcome_remaining {c : Cursor} (hc : c.InRange) :
    remaining.outcome c = (.ok c.left.length, c) := by
  rw [Cursor.length_left]
  exact outcome_value c (difference_eq hc.pos_le)

theorem follows_remaining : Follows remaining Decoder.remaining := by
  intro c hc
  rw [outcome_remaining hc]
  exact .ok rfl hc

/-- Bytes are taken if there are enough, and the position moves past them. -/
theorem outcome_take {c : Cursor} (hc : c.InRange) (len : Nat) (field : Field) :
    (take len field).outcome c
      = if c.left.length < len then (.error (.refusal (.truncated field)), c)
        else (.ok (c.left.take len), { c with pos := c.pos + len }) := by
  have hlen := c.length_left
  unfold take
  rw [outcome_bind, outcome_remaining hc]
  show Reader.outcome (if c.left.length < len then _ else _) c = _
  by_cases hshort : c.left.length < len
  · rw [if_pos hshort, if_pos hshort]
    rfl
  · -- enough bytes are left, so the slice ends within the input
    have hslice : slice c.bytes c.pos (c.pos + len) = .ok (c.left.take len) := by
      have hpos := hc.pos_le
      rw [slice_eq (by omega) (by omega), Nat.add_sub_cancel_left]
      rfl
    rw [if_neg hshort, if_neg hshort]
    show Reader.outcome (liftM (slice c.bytes c.pos (c.pos + len)) >>= _) c = _
    rw [outcome_bind, outcome_value c hslice]
    rfl

theorem follows_take (len : Nat) (field : Field) :
    Follows (take len field) (Decoder.take len field) := by
  intro c hc
  have hlen := c.length_left
  have hpos := hc.pos_le
  have hentries := hc.entries_le
  have hrun : (Decoder.take len field).run c.left
      = if (c.left.take len).length = len then .ok (c.left.take len, c.left.drop len)
        else .error (.truncated field) := rfl
  rw [outcome_take hc, hrun]
  -- one compares lengths beforehand, the other looks at what it got
  by_cases hshort : c.left.length < len
  · have htake : ¬ (c.left.take len).length = len := by
      rw [List.length_take]
      omega
    rw [if_pos hshort, if_neg htake]
    exact .error rfl hc nofun
  · have htake : (c.left.take len).length = len := by
      rw [List.length_take]
      omega
    have hdrop : c.left.drop len = Cursor.left { c with pos := c.pos + len } := by
      rw [Cursor.left, Cursor.left, List.drop_drop]
    rw [if_neg hshort, if_pos htake, hdrop]
    exact .ok rfl ⟨by show c.pos + len ≤ c.bytes.length; omega,
      by show c.entries ≤ c.pos + len; omega⟩

/-- What a decoder takes has the size that it was asked for. -/
theorem length_of_yields_take {len : Nat} {field : Field} {out : Bytes}
    (h : Yields (Decoder.take len field) out) : out.length = len := by
  obtain ⟨input, rest, hrun⟩ := h
  exact (Decoder.take_run_eq_ok_iff.mp hrun).1

/-- A byte is taken if there is one. -/
theorem outcome_byte {c : Cursor} (hc : c.InRange) (field : Field) :
    (byte field).outcome c
      = match c.left with
        | [] => (.error (.refusal (.truncated field)), c)
        | b :: _ => (.ok b, { c with pos := c.pos + 1 }) := by
  unfold byte
  rw [outcome_bind, outcome_take hc]
  cases c.left with
  | nil => rfl
  | cons b rest =>
    rw [if_neg (by simp)]
    rfl

/-- The bytes that are left after the next one. -/
theorem Cursor.left_of_cons {c : Cursor} {b : UInt8} {rest : Bytes} (h : c.left = b :: rest) :
    c.pos + 1 ≤ c.bytes.length ∧ rest = c.bytes.drop (c.pos + 1) := by
  have hlen := c.length_left
  rw [h, List.length_cons] at hlen
  refine ⟨by omega, ?_⟩
  rw [← List.drop_drop, ← Cursor.left, h]
  rfl

theorem follows_byte (field : Field) : Follows (byte field) (Decoder.byte field) := by
  intro c hc
  rw [outcome_byte hc]
  cases hleft : c.left with
  | nil => exact .error rfl hc nofun
  | cons b rest =>
    obtain ⟨hpos, rfl⟩ := Cursor.left_of_cons hleft
    have hrange : Cursor.InRange { c with pos := c.pos + 1 } :=
      ⟨hpos, Nat.le_succ_of_le hc.entries_le⟩
    exact .ok rfl hrange

/-- The first byte of an entry is read like others, and makes room for the entry to be counted. -/
theorem follows_entry (field : Field) : Follows (entry field) (Decoder.byte field) := by
  intro c hc
  have houtcome : (entry field).outcome c
      = match c.left with
        | [] => (.error (.refusal (.truncated field)), c)
        | b :: _ => (.ok b, { c with pos := c.pos + 1, entries := c.entries + 1 }) := by
    unfold entry
    rw [outcome_bind, outcome_byte hc]
    cases c.left with
    | nil => rfl
    | cons b rest => rfl
  rw [houtcome]
  cases hleft : c.left with
  | nil => exact .error rfl hc nofun
  | cons b rest =>
    obtain ⟨hpos, rfl⟩ := Cursor.left_of_cons hleft
    -- an entry takes a byte, so the entries are no more than the bytes read
    have hrange : Cursor.InRange { c with pos := c.pos + 1, entries := c.entries + 1 } :=
      ⟨hpos, Nat.succ_le_succ hc.entries_le⟩
    exact .ok rfl hrange

/-- While groups are left to be read, the shift of the next one is below the width of the word. -/
theorem follows_varintGroups (field : Field) (left : Nat) :
    ∀ shift value : UInt64, shift.toNat + 7 * left = 70 →
      Follows (varintGroups field left shift value)
        (Decoder.varintGroups field left shift value) := by
  induction left with
  | zero =>
    intro shift value _
    exact Follows.fault _
  | succ left ih =>
    intro shift value hshift
    have hlt : shift.toNat < 64 := by omega
    have hgroup : ∀ bits, shiftLeft64 bits shift.toNat = .ok (bits <<< shift) := by
      intro bits
      rw [shiftLeft64_eq bits hlt, UInt64.ofNat_toNat]
    rw [varintGroups, Decoder.varintGroups]
    refine (follows_byte field).bind fun b _ => ?_
    refine Follows.ite (fun _ => Follows.fault _) fun hover => ?_
    refine Follows.value (hgroup _) ?_
    refine Follows.ite (fun _ => Follows.ite (fun _ => Follows.fault _) fun _ => Follows.pure _)
      fun hnext => ?_
    cases left with
    | zero => exact Follows.fault _
    | succ left =>
      -- there is another group, so this was not the tenth
      have hseven := Decoder.toNat_shift_add_seven (show shift.toNat ≤ 56 by omega)
      exact ih _ _ (by omega)

theorem follows_varint (field : Field) : Follows (varint field) (Decoder.varint field) :=
  (follows_varintGroups field 10 0 0 rfl).bind fun value _ => Follows.pure value.toNat

theorem follows_bounded (field : Field) (max : Nat) :
    Follows (bounded field max) (Decoder.bounded field max) :=
  (follows_varint field).bind fun _ _ =>
    Follows.ite (fun _ => Follows.pure _) fun _ => Follows.fault _

theorem le_of_yields_bounded {field : Field} {max value : Nat}
    (h : Yields (Decoder.bounded field max) value) : value ≤ max := by
  obtain ⟨input, rest, hrun⟩ := h
  exact (Decoder.bounded_run_eq_ok_iff.mp hrun).1

theorem follows_prefixed (len : Nat) (field : Field) :
    Follows (prefixed len field) (Decoder.prefixed len field) :=
  (follows_varint field).bind fun _ _ =>
    Follows.ite (fun _ => follows_take len field) fun _ => Follows.throw nofun

theorem Follows.repeated {g : Reader α} {d : Decoder α} (h : Follows g d) (count : Nat) :
    Follows (repeated g count) (Decoder.repeated d count) := by
  induction count with
  | zero => exact Follows.pure []
  | succ count ih => exact h.bind fun v _ => ih.bind fun rest _ => Follows.pure (v :: rest)

/-! ### Whole buffers -/

/-- **A reader that follows a decoder reads every buffer as the decoder does**, and no more entries
than the buffer has bytes. -/
theorem Follows.decode {g : Reader α} {d : Decoder α} (h : Follows g d) (bytes : Bytes) :
    Unbreached (decode g bytes).1 (d.decode bytes) ∧
      (decode g bytes).2.entries ≤ bytes.length := by
  have hstart : Cursor.InRange ⟨bytes, 0, 0⟩ := ⟨Nat.zero_le _, Nat.zero_le _⟩
  have hg := h ⟨bytes, 0, 0⟩ hstart
  have hleft : Cursor.left ⟨bytes, 0, 0⟩ = bytes := List.drop_zero
  rw [hleft] at hg
  unfold Checked.decode Decoder.decode
  rw [outcome_bind]
  generalize hx : g.outcome ⟨bytes, 0, 0⟩ = x at hg
  generalize hy : d.run bytes = y at hg
  -- entries never outnumber the bytes before the cursor, which stays among the bytes
  cases hg with
  | @ok v c' hbytes hrange =>
    have hentries : c'.entries ≤ bytes.length := by
      have hpos := hrange.pos_le
      rw [hbytes] at hpos
      exact le_trans hrange.entries_le hpos
    -- what is left at the end is trailing
    have hfinish : (Reader.outcome (do finish; return v) c' : Except Stop α × Cursor)
        = (if c'.left.length ≠ 0 then .error (.refusal (.encoding .trailingBytes)) else .ok v,
            c') := by
      unfold finish
      rw [bind_assoc, outcome_bind, outcome_remaining hrange]
      by_cases hrest : c'.left.length ≠ 0
      · simp only [if_pos hrest]
        rfl
      · simp only [if_neg hrest]
        rfl
    show Unbreached (Reader.outcome (do finish; return v) c').1 _ ∧
      (Reader.outcome (do finish; return v) c').2.entries ≤ _
    rw [hfinish]
    refine ⟨?_, hentries⟩
    cases c'.left with
    | nil => exact ⟨rfl, nofun⟩
    | cons b rest => exact ⟨rfl, nofun⟩
  | @error e c' hbytes hrange he =>
    have hpos := hrange.pos_le
    rw [hbytes] at hpos
    refine ⟨⟨rfl, ?_⟩, le_trans hrange.entries_le hpos⟩
    rintro ⟨⟩
    exact he rfl

end Hypertree.Checked
