import Hypertree.Proofs.Bytes.Xor
import Hypertree.Proofs.Params
import Hypertree.Proofs.Schedule

/-!
# Partial operations, checked

On machine words and buffers, some operations have no result for some operands: a difference below
zero, a shift by the width of the word or more, a range outside its buffer. The definitions of the
library are total and say nothing there, so they leave open whether such operands occur. The modules
under `Checked` state the same algorithms over operations that refuse them: a `Breach` is the use of
an operation outside its domain. An algorithm is safe if, with these operations in place of the
total ones, it has the outcomes that it had before; then no breach is among them. Refusals, the
errors of the library, are told apart from breaches by `Stop`.

This module holds the operations and what every algorithm asks of parameters and indices. Each
operation comes with the condition under which it has its result; `unbreached_validate` says that
the checks on parameters are made in a safe order: no parameters lead to a breach, and those that
pass (`Header.Valid`) keep all that is computed from them within 64 bits.
-/

namespace Hypertree.Checked

/-! ### Breaches -/

/-- The uses of partial operations outside their domains. -/
inductive Breach where
  /-- A difference below zero. -/
  | difference
  /-- A sum or a product that its word cannot hold. -/
  | overflow
  /-- A quotient or a remainder by zero. -/
  | division
  /-- A shift by the width of the word or more. -/
  | shift
  /-- A conversion to a narrower word that would change the number. -/
  | narrowing
  /-- An index or a range outside its buffer. -/
  | range
  /-- A copy between buffers of different sizes. -/
  | copy
  /-- Byte strings of different lengths that were to be added. -/
  | operands
  /-- An assertion that does not hold. -/
  | assertion
  deriving DecidableEq, Repr

/-- Why a computation ended without its result. -/
inductive Stop where
  /-- The input was refused. -/
  | refusal (e : Error)
  /-- An operation was used outside its domain. -/
  | breach (b : Breach)
  deriving DecidableEq, Repr

instance : MonadLift (Except Breach) (Except Stop) :=
  ⟨fun x => x.mapError .breach⟩

instance : MonadLift (Except Error) (Except Stop) :=
  ⟨fun x => x.mapError .refusal⟩

@[simp]
theorem ok_bind {ε α β : Type} (v : α) (f : α → Except ε β) : (Except.ok v >>= f) = f v := rfl

@[simp]
theorem pure_eq_ok {ε α : Type} (v : α) : (pure v : Except ε α) = .ok v := rfl

@[simp]
theorem lift_ok {α : Type} (v : α) :
    (liftM (Except.ok v : Except Breach α) : Except Stop α) = .ok v := rfl

/-- A computation over partial operations has the outcome that it has over total ones: it causes no
breach, and the errors with which it refuses an input do not tell of a broken call. -/
structure Unbreached {α : Type} (x : Except Stop α) (y : Except Error α) : Prop where
  eq : x = y.mapError .refusal
  ne : y ≠ .error .unequalOperands

namespace Unbreached

variable {α : Type}

theorem ok (v : α) : Unbreached (.ok v) (.ok v) :=
  ⟨rfl, nofun⟩

/-- A computation that uses no partial operation. -/
theorem of_ne {y : Except Error α} (h : y ≠ .error .unequalOperands) : Unbreached (liftM y) y :=
  ⟨rfl, h⟩

/-- Two computations, one after the other. -/
theorem bind {β : Type} {x : Except Stop α} {y : Except Error α} {f : α → Except Stop β}
    {k : α → Except Error β} (h : Unbreached x y) (hf : ∀ v, y = .ok v → Unbreached (f v) (k v)) :
    Unbreached (x >>= f) (y >>= k) := by
  obtain ⟨rfl, hne⟩ := h
  cases y with
  | ok v => exact hf v rfl
  | error e =>
    refine ⟨rfl, ?_⟩
    rintro ⟨⟩
    exact hne rfl

end Unbreached

theorem bind_ne {α β : Type} {y : Except Error α} (h : y ≠ .error .unequalOperands)
    {k : α → Except Error β} (hk : ∀ v, k v ≠ .error .unequalOperands) :
    y >>= k ≠ .error .unequalOperands := by
  cases y with
  | ok v => exact hk v
  | error e =>
    rintro ⟨⟩
    exact h rfl

theorem map_ne {α β : Type} {y : Except Error α} (h : y ≠ .error .unequalOperands) (f : α → β) :
    y.map f ≠ .error .unequalOperands := by
  cases y with
  | ok v => nofun
  | error e =>
    rintro ⟨⟩
    exact h rfl

/-! ### Numbers -/

/-- A difference of natural numbers. -/
def difference (a b : Nat) : Except Breach Nat :=
  if b ≤ a then .ok (a - b) else .error .difference

/-- A sum in a word of `width` bits. -/
def sum (width a b : Nat) : Except Breach Nat :=
  if a + b < 2 ^ width then .ok (a + b) else .error .overflow

/-- A product in a word of `width` bits. -/
def product (width a b : Nat) : Except Breach Nat :=
  if a * b < 2 ^ width then .ok (a * b) else .error .overflow

/-- A quotient. -/
def quotient (a b : Nat) : Except Breach Nat :=
  if b = 0 then .error .division else .ok (a / b)

/-- A remainder. -/
def remainder (a b : Nat) : Except Breach Nat :=
  if b = 0 then .error .division else .ok (a % b)

/-- A word of 64 bits with one of them set. -/
def bit (k : Nat) : Except Breach Nat :=
  if k < 64 then .ok (2 ^ k) else .error .shift

/-- A word of `width` bits shifted to the right. -/
def shiftRight (width a k : Nat) : Except Breach Nat :=
  if k < width then .ok (a >>> k) else .error .shift

/-- A word of 64 bits shifted to the left; bits that leave it are lost. -/
def shiftLeft64 (a : UInt64) (k : Nat) : Except Breach UInt64 :=
  if k < 64 then .ok (a <<< UInt64.ofNat k) else .error .shift

/-- A word of 64 bits shifted to the right. -/
def shiftRight64 (a : UInt64) (k : Nat) : Except Breach UInt64 :=
  if k < 64 then .ok (a >>> UInt64.ofNat k) else .error .shift

/-- A number as a word of `width` bits. -/
def narrow (width a : Nat) : Except Breach Nat :=
  if a < 2 ^ width then .ok a else .error .narrowing

section

variable {width a b k : Nat}

theorem difference_eq (h : b ≤ a) : difference a b = .ok (a - b) :=
  if_pos h

theorem sum_eq (h : a + b < 2 ^ width) : sum width a b = .ok (a + b) :=
  if_pos h

theorem product_eq (h : a * b < 2 ^ width) : product width a b = .ok (a * b) :=
  if_pos h

theorem quotient_eq (h : b ≠ 0) : quotient a b = .ok (a / b) :=
  if_neg h

theorem remainder_eq (h : b ≠ 0) : remainder a b = .ok (a % b) :=
  if_neg h

theorem bit_eq (h : k < 64) : bit k = .ok (2 ^ k) :=
  if_pos h

theorem shiftRight_eq (h : k < width) : shiftRight width a k = .ok (a >>> k) :=
  if_pos h

theorem shiftLeft64_eq (a : UInt64) (h : k < 64) :
    shiftLeft64 a k = .ok (a <<< UInt64.ofNat k) :=
  if_pos h

theorem shiftRight64_eq (a : UInt64) (h : k < 64) :
    shiftRight64 a k = .ok (a >>> UInt64.ofNat k) :=
  if_pos h

theorem narrow_eq (h : a < 2 ^ width) : narrow width a = .ok a :=
  if_pos h

end

/-! ### Buffers -/

/-- An element of a list. -/
def element {α : Type} (xs : List α) (i : Nat) : Except Breach α :=
  match xs[i]? with
  | some x => .ok x
  | none => .error .range

/-- The bytes from one position to another. -/
def slice (bytes : Bytes) (start stop : Nat) : Except Breach Bytes :=
  if start ≤ stop ∧ stop ≤ bytes.length then .ok ((bytes.drop start).take (stop - start))
  else .error .range

/-- The bytes before a position, and those from it on. -/
def splitAt (bytes : Bytes) (i : Nat) : Except Breach (Bytes × Bytes) :=
  if i ≤ bytes.length then .ok (bytes.take i, bytes.drop i) else .error .range

/-- The content of a buffer of `size` bytes after other bytes have been copied over it. -/
def copy (size : Nat) (source : Bytes) : Except Breach Bytes :=
  if source.length = size then .ok source else .error .copy

/-- A buffer with one byte written anew. -/
def store (bytes : Bytes) (i : Nat) (b : UInt8) : Except Breach Bytes :=
  if i < bytes.length then .ok (bytes.set i b) else .error .range

/-- A buffer with other bytes copied over the range from one position to another. -/
def overwrite (bytes : Bytes) (start stop : Nat) (source : Bytes) : Except Breach Bytes := do
  let old ← slice bytes start stop
  let new ← copy old.length source
  return bytes.take start ++ (new ++ bytes.drop stop)

/-- The sum of two byte strings, written to a buffer of `size` bytes. -/
def xorInto (size : Nat) (a b : Bytes) : Except Breach Bytes :=
  if size = a.length ∧ a.length = b.length then .ok (Bytes.xorWords .little a b)
  else .error .operands

/-- An assertion. -/
def assert (c : Prop) [Decidable c] : Except Breach Unit :=
  if c then .ok () else .error .assertion

/-- The whole parts of `size` bytes of a string. -/
def parts (size : Nat) (bytes : Bytes) : Except Breach (List Bytes) :=
  if size = 0 then .error .range else .ok (Bytes.pieces size (bytes.length / size) bytes)

/-- The parts of `size` bytes that cover a string, the last one possibly short. -/
def chunks (size : Nat) (bytes : Bytes) : Except Breach (List Bytes) :=
  if size = 0 then .error .range
  else .ok (Bytes.pieces size (Bytes.pieceCount size bytes.length) bytes)

theorem element_eq {α : Type} {xs : List α} {i : Nat} (h : i < xs.length) :
    element xs i = .ok xs[i] := by
  unfold element
  rw [List.getElem?_eq_getElem h]

theorem slice_eq {bytes : Bytes} {start stop : Nat} (h : start ≤ stop)
    (hstop : stop ≤ bytes.length) :
    slice bytes start stop = .ok ((bytes.drop start).take (stop - start)) :=
  if_pos ⟨h, hstop⟩

theorem splitAt_eq {bytes : Bytes} {i : Nat} (h : i ≤ bytes.length) :
    splitAt bytes i = .ok (bytes.take i, bytes.drop i) :=
  if_pos h

theorem copy_eq {size : Nat} {source : Bytes} (h : source.length = size) :
    copy size source = .ok source :=
  if_pos h

theorem store_eq {bytes : Bytes} {i : Nat} (h : i < bytes.length) (b : UInt8) :
    store bytes i b = .ok (bytes.set i b) :=
  if_pos h

theorem overwrite_eq {bytes source : Bytes} {start stop : Nat} (h : start ≤ stop)
    (hstop : stop ≤ bytes.length) (hsource : source.length = stop - start) :
    overwrite bytes start stop source = .ok (bytes.take start ++ (source ++ bytes.drop stop)) := by
  have hold : ((bytes.drop start).take (stop - start)).length = stop - start := by
    rw [List.length_take, List.length_drop]
    omega
  rw [overwrite, slice_eq h hstop, ok_bind, hold, copy_eq hsource]
  rfl

theorem xorInto_eq {size : Nat} {a b : Bytes} (ha : size = a.length) (hb : a.length = b.length) :
    xorInto size a b = .ok (Bytes.xorBytewise a b) := by
  unfold xorInto
  rw [Bytes.xorWords_eq]
  exact if_pos ⟨ha, hb⟩

theorem assert_eq {c : Prop} [Decidable c] (h : c) : assert c = .ok () :=
  if_pos h

theorem parts_eq {size count : Nat} {bytes : Bytes} (hsize : 0 < size)
    (hlen : bytes.length = count * size) :
    parts size bytes = .ok (Bytes.pieces size count bytes) := by
  unfold parts
  rw [if_neg hsize.ne', hlen, Nat.mul_div_cancel _ hsize]

theorem chunks_eq {size count : Nat} {bytes : Bytes} (hsize : 0 < size)
    (hlen : bytes.length = count * size) :
    chunks size bytes = .ok (Bytes.pieces size count bytes) := by
  unfold chunks
  rw [if_neg hsize.ne', hlen, Bytes.pieceCount_mul hsize]

/-- A list of which every element has a result. -/
theorem mapM_eq {ε α β : Type} {f : α → Except ε β} {g : α → β} {xs : List α}
    (h : ∀ x ∈ xs, f x = .ok (g x)) : xs.mapM f = .ok (xs.map g) := by
  induction xs with
  | nil => rfl
  | cons x xs ih =>
    rw [List.mapM_cons, h x List.mem_cons_self, ok_bind,
      ih fun y hy => h y (List.mem_cons_of_mem _ hy)]
    rfl

/-! ### Parameters -/

/-- Refuses an input. -/
def refuse {α : Type} (e : Error) : Except Stop α :=
  .error (.refusal e)

/-- The height of one tree. -/
def treeHeight (p : Header) : Except Breach Nat :=
  if p.layers = 0 then .ok 0 else quotient p.height p.layers

/-- The leaves of one tree. -/
def leavesPerTree (p : Header) : Except Breach Nat := do
  let height ← treeHeight p
  bit height

/-- The signatures a key can make. -/
def maxSignatures (p : Header) : Except Breach Nat :=
  bit p.height

/-- Checks every constraint; the first one that fails is reported. -/
def validate (p : Params) : Except Stop Unit := do
  unless 2 ≤ p.height ∧ p.height ≤ maxHeight do
    refuse (.invalidParameter .heightRange)
  unless 1 ≤ p.layers ∧ p.layers ≤ maxLayers do
    refuse (.invalidParameter .layersRange)
  let rest ← remainder p.height p.layers
  unless rest = 0 do
    refuse (.invalidParameter .heightNotDivisible)
  let height ← treeHeight p.toHeader
  unless 1 ≤ height ∧ height ≤ maxTreeHeight do
    refuse (.invalidParameter .treeHeightRange)
  unless p.winternitz = 4 ∨ p.winternitz = 16 ∨ p.winternitz = 256 do
    refuse (.invalidParameter .winternitz)
  match p.cache with
  | .auto levels => unless levels ≤ maxTreeHeight do refuse (.invalidParameter .cacheLevels)
  | .full | .disabled => pure ()
  unless p.nonceExponent ≤ 32 do
    refuse (.invalidParameter .nonceExponent)
  match p.backupDigest with
  | none => pure ()
  | some backup =>
    unless backup ≠ p.digest do
      refuse (.invalidParameter .backupSameHash)
    unless backup.size = p.digest.size do
      refuse (.invalidParameter .backupOutputSize)

theorem treeHeight_eq (p : Header) : treeHeight p = .ok p.treeHeight := by
  unfold treeHeight
  by_cases h : p.layers = 0
  · rw [if_pos h, Header.treeHeight, h, Nat.div_zero]
  · rw [if_neg h, quotient_eq h]
    rfl

/-- A check that stands before the rest of an operation. -/
theorem Unbreached.guard {α : Type} {c : Prop} [Decidable c] {e : Error}
    {k : PUnit → Except Stop α} {k' : PUnit → Except Error α} (he : e ≠ .unequalOperands)
    (h : c → Unbreached (k ⟨⟩) (k' ⟨⟩)) :
    Unbreached (if c then k ⟨⟩ else refuse e >>= k) (if c then k' ⟨⟩ else throw e >>= k') := by
  by_cases hc : c
  · rw [if_pos hc, if_pos hc]
    exact h hc
  · rw [if_neg hc, if_neg hc]
    refine ⟨rfl, ?_⟩
    rintro ⟨⟩
    exact he rfl

/-- The same for the last check of an operation. -/
theorem Unbreached.guard_pure {c : Prop} [Decidable c] {e : Error} (he : e ≠ .unequalOperands) :
    Unbreached (if c then pure () else refuse e) (if c then pure () else throw e) := by
  by_cases hc : c
  · rw [if_pos hc, if_pos hc]
    exact .ok ()
  · rw [if_neg hc, if_neg hc]
    refine ⟨rfl, ?_⟩
    rintro ⟨⟩
    exact he rfl

/-- **The checks on parameters cause no breach**: each stands before what relies on it. -/
theorem unbreached_validate (p : Params) : Unbreached (validate p) p.validate := by
  unfold validate Params.validate
  refine .guard nofun fun _ => .guard nofun fun hlayers => ?_
  -- there are layers to divide by
  have hne : p.layers ≠ 0 := by omega
  rw [remainder_eq hne, treeHeight_eq]
  refine .guard nofun fun _ => .guard nofun fun _ => .guard nofun fun _ => ?_
  rcases p.cache with levels | _ | _
  -- one policy has levels to check
  on_goal 1 => refine .guard nofun fun _ => ?_
  all_goals
    refine .guard nofun fun _ => ?_
    cases p.backupDigest with
    | none => exact .ok ()
    | some backup => exact .guard nofun fun _ => .guard_pure nofun

/-! ### Indices -/

/-- The leaf that a global index uses in its tree of a layer. -/
def leafIndex (index layer treeHeight : Nat) : Except Breach Nat := do
  let shift ← product 32 layer treeHeight
  if 64 ≤ shift then return 0
  let above ← shiftRight 64 index shift
  let leaves ← bit treeHeight
  let mask ← difference leaves 1
  narrow 32 (above &&& mask)

/-- The tree that a global index uses in a layer. -/
def treeIndex (index layer treeHeight : Nat) : Except Breach Nat := do
  let next ← sum 32 layer 1
  let shift ← product 32 next treeHeight
  if 64 ≤ shift then return 0
  shiftRight 64 index shift

/-- Whether the number of a tree is too large for its layer. -/
def treeBeyond (height treeHeight layer tree : Nat) : Except Breach Bool := do
  let next ← sum 32 layer 1
  let below ← product 32 next treeHeight
  let bits ← difference height below
  if bits < 64 then
    let trees ← bit bits
    return decide (trees ≤ tree)
  else return false

/-- The last index at a height of a tree. -/
def lastIndex (treeHeight height : Nat) : Except Breach Nat := do
  let levels ← difference treeHeight height
  let count ← bit levels
  difference count 1

/-- The layers up to this one take up at most 60 bits of an index, so nothing leaves its word. -/
theorem leafIndex_eq_of_le (index : Nat) {layer height : Nat} (hheight : height ≤ 20)
    (hbits : (layer + 1) * height ≤ 60) :
    leafIndex index layer height = .ok (Hypertree.leafIndex index layer height) := by
  rw [Nat.succ_mul] at hbits
  have hmask : ∀ a : Nat, a &&& (2 ^ height - 1) = a % 2 ^ height := fun a =>
    Nat.and_two_pow_sub_one_eq_mod a _
  have hlt : ∀ a : Nat, a % 2 ^ height < 2 ^ 32 := fun a =>
    lt_of_lt_of_le (Nat.mod_lt _ (Nat.two_pow_pos _)) (Nat.pow_le_pow_right two_pos (by omega))
  unfold leafIndex
  rw [product_eq (by omega), ok_bind, if_neg (by omega), shiftRight_eq (by omega), ok_bind,
    bit_eq (by omega), ok_bind, difference_eq Nat.one_le_two_pow, ok_bind, hmask,
    narrow_eq (hlt _), Hypertree.leafIndex, Nat.mod_eq_of_lt (hlt _)]

theorem treeIndex_eq_of_le (index : Nat) {layer height : Nat} (hpos : 1 ≤ height)
    (hbits : (layer + 1) * height ≤ 60) :
    treeIndex index layer height = .ok (Hypertree.treeIndex index layer height) := by
  have hlayer := Nat.le_mul_of_pos_right (layer + 1) hpos
  unfold treeIndex
  rw [sum_eq (by omega), ok_bind, product_eq (by omega), ok_bind, if_neg (by omega),
    shiftRight_eq (by omega)]
  rfl

section

variable {p : Header} (hv : p.Valid)

include hv

theorem leavesPerTree_eq : leavesPerTree p = .ok p.leavesPerTree := by
  have hle := hv.treeHeight_le
  rw [leavesPerTree, treeHeight_eq, ok_bind, bit_eq (by omega)]
  rfl

theorem maxSignatures_eq : maxSignatures p = .ok p.maxSignatures := by
  have hle := hv.height_le
  exact bit_eq (by omega)

/-- The layers up to any one of a key have at most its height. -/
theorem mul_treeHeight_le {layer : Nat} (hlayer : layer < p.layers) :
    (layer + 1) * p.treeHeight ≤ p.height := by
  rw [← hv.layers_mul_treeHeight]
  exact Nat.mul_le_mul_right _ hlayer

theorem leafIndex_eq (index : Nat) {layer : Nat} (hlayer : layer < p.layers) :
    leafIndex index layer p.treeHeight = .ok (Hypertree.leafIndex index layer p.treeHeight) :=
  leafIndex_eq_of_le index hv.treeHeight_le ((mul_treeHeight_le hv hlayer).trans hv.height_le)

theorem treeIndex_eq (index : Nat) {layer : Nat} (hlayer : layer < p.layers) :
    treeIndex index layer p.treeHeight = .ok (Hypertree.treeIndex index layer p.treeHeight) :=
  treeIndex_eq_of_le index hv.treeHeight_pos ((mul_treeHeight_le hv hlayer).trans hv.height_le)

theorem treeBeyond_eq {layer : Nat} (hlayer : layer < p.layers) (tree : Nat) :
    treeBeyond p.height p.treeHeight layer tree
      = .ok (decide (2 ^ (p.height - (layer + 1) * p.treeHeight) ≤ tree)) := by
  have hheight := hv.height_le
  have hlayers := hv.layers_le
  have hmul := mul_treeHeight_le hv hlayer
  unfold treeBeyond
  rw [sum_eq (by omega), ok_bind, product_eq (by omega), ok_bind, difference_eq hmul, ok_bind,
    if_pos (by omega), bit_eq (by omega)]
  rfl

theorem lastIndex_eq {height : Nat} (hle : height ≤ p.treeHeight) :
    lastIndex p.treeHeight height = .ok (2 ^ (p.treeHeight - height) - 1) := by
  have htree := hv.treeHeight_le
  rw [lastIndex, difference_eq hle, ok_bind, bit_eq (by omega), ok_bind,
    difference_eq Nat.one_le_two_pow]

end

end Hypertree.Checked
