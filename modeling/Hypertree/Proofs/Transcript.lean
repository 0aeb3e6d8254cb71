import Hypertree.Proofs.Engine.Verify

/-!
# The hash calls of a verification

`Engine.verifyTraced` is verification with a record of the hash calls that it makes: the digest of
the message, the steps of chains, and the pairs joined in L-trees and trees. The keys and masks that
a step or a pair derives belong to that call. Hash values are only ever taken from `hMsgTraced`,
`advanceTraced` and `joinTraced`, which record what they are called on.

Leaving the record out gives back each function (`value_walkTraced` and so on), so it is the record
of what `verify` does: `verify_eq_value` holds for every signature, message and key.
-/

namespace Hypertree

/-- A call of a hash function under the public seed of a key. -/
inductive HashCall where
  /-- The digest of a message under a randomizer, for the root and at an index of a key. -/
  | message (r root : Bytes) (index : Nat) (message : Bytes)
  /-- A step of a chain. -/
  | step (a : Address) (node : Bytes)
  /-- The parent of two nodes of an L-tree or a tree. -/
  | pair (a : Address) (left right : Bytes)
  deriving DecidableEq, Repr

/-- A value with the hash calls that were made for it, in their order. -/
structure Traced (α : Type) where
  value : α
  calls : List HashCall

namespace Traced

variable {α β : Type}

instance : Monad Traced where
  pure x := ⟨x, []⟩
  bind x f := ⟨(f x.value).value, x.calls ++ (f x.value).calls⟩

@[simp]
theorem value_pure (x : α) : (pure x : Traced α).value = x := rfl

@[simp]
theorem calls_pure (x : α) : (pure x : Traced α).calls = [] := rfl

@[simp]
theorem value_bind (x : Traced α) (f : α → Traced β) : (x >>= f).value = (f x.value).value := rfl

@[simp]
theorem calls_bind (x : Traced α) (f : α → Traced β) :
    (x >>= f).calls = x.calls ++ (f x.value).calls := rfl

/-- One value after another, for the entries of a list. -/
def each (f : α → Traced β) : List α → Traced (List β)
  | [] => return []
  | x :: rest => do
    let y ← f x
    let ys ← each f rest
    return y :: ys

@[simp]
theorem value_each (f : α → Traced β) (l : List α) :
    (each f l).value = l.map fun x => (f x).value := by
  induction l with
  | nil => rfl
  | cons x rest ih => simp [each, ih]

@[simp]
theorem calls_each (f : α → Traced β) (l : List α) :
    (each f l).calls = l.flatMap fun x => (f x).calls := by
  induction l with
  | nil => rfl
  | cons x rest ih => simp [each, ih]

end Traced

/-! ### Recorded calls -/

namespace Setting

variable (s : Setting)

/-- Recorded `hMsg`. -/
def hMsgTraced (r root : Bytes) (index : Nat) (message : Bytes) : Traced Bytes :=
  ⟨s.hMsg r root index message, [.message r root index message]⟩

/-- Recorded `advance`. -/
def advanceTraced (publicSeed : Bytes) (a : Address) (node : Bytes) : Traced Bytes :=
  ⟨s.advance publicSeed a node, [.step a node]⟩

/-- Recorded `join`. -/
def joinTraced (publicSeed : Bytes) (a : Address) (left right : Bytes) : Traced Bytes :=
  ⟨s.join publicSeed a left right, [.pair a left right]⟩

end Setting

/-! ### Chains, L-trees and trees -/

/-- Recorded `advanceBy`. -/
def walkTraced (s : Setting) (publicSeed : Bytes) (a : Address) :
    (steps start : Nat) → (x : Bytes) → Traced Bytes
  | 0, _, x => return x
  | steps + 1, start, x => do
    let x ← s.advanceTraced publicSeed (a.setStep (UInt32.ofNat start)) x
    walkTraced s publicSeed a steps (start + 1) x

namespace OneTime

/-- Recorded `recoveredNodes`. -/
def recoverTraced (s : Setting) (publicSeed : Bytes) (layer tree leaf : Nat) (message : Bytes)
    (nodes : List Bytes) : Traced (List Bytes) :=
  (List.range s.oneTime.chains) |> Traced.each fun i =>
    walkTraced s publicSeed ((Address.oneTime layer tree leaf).setChain (UInt32.ofNat i))
      (s.oneTime.w - 1 - digit s message i) (digit s message i) (nodes.getD i [])

end OneTime

namespace LTree

/-- Recorded `joinNodes`. -/
def levelTraced (s : Setting) (publicSeed : Bytes) (a : Address) :
    (i : Nat) → List Bytes → Traced (List Bytes)
  | i, left :: right :: rest => do
    let parent ← s.joinTraced publicSeed (a.setIndex (UInt32.ofNat i)) left right
    let parents ← levelTraced s publicSeed a (i + 1) rest
    return parent :: parents
  | _, rest => return rest

@[simp]
theorem value_levelTraced (s : Setting) (publicSeed : Bytes) (a : Address) (i : Nat)
    (nodes : List Bytes) :
    (levelTraced s publicSeed a i nodes).value = joinNodes s publicSeed a i nodes := by
  fun_induction joinNodes s publicSeed a i nodes with
  | case1 i left right rest ih => simp [levelTraced, Setting.joinTraced, ih]
  | case2 i rest hrest => rw [levelTraced.eq_2 _ _ _ _ _ hrest, Traced.value_pure]

/-- Recorded `reduceNodes`. -/
def reduceTraced (s : Setting) (publicSeed : Bytes) (a : Address) (level : Nat)
    (nodes : List Bytes) : Traced (List Bytes) :=
  if nodes.length ≤ 1 then return nodes
  else
    let parents := levelTraced s publicSeed (a.setLevel (UInt32.ofNat level)) 0 nodes
    parents >>= fun _ => reduceTraced s publicSeed a (level + 1) parents.value
termination_by nodes.length
decreasing_by
  rw [value_levelTraced, length_joinNodes]
  omega

@[simp]
theorem value_reduceTraced (s : Setting) (publicSeed : Bytes) (a : Address) (level : Nat)
    (nodes : List Bytes) :
    (reduceTraced s publicSeed a level nodes).value = reduceNodes s publicSeed a level nodes := by
  fun_induction reduceNodes s publicSeed a level nodes with
  | case1 level nodes hle => rw [reduceTraced, if_pos hle, Traced.value_pure]
  | case2 level nodes hlt ih =>
    rw [reduceTraced, if_neg hlt, Traced.value_bind, value_levelTraced, ih]

/-- The calls of one level come before those of the levels above it. -/
theorem calls_reduceTraced (s : Setting) (publicSeed : Bytes) (a : Address) (level : Nat)
    {nodes : List Bytes} (h : ¬ nodes.length ≤ 1) :
    (reduceTraced s publicSeed a level nodes).calls
      = (levelTraced s publicSeed (a.setLevel (UInt32.ofNat level)) 0 nodes).calls
        ++ (reduceTraced s publicSeed a (level + 1)
          (joinNodes s publicSeed (a.setLevel (UInt32.ofNat level)) 0 nodes)).calls := by
  rw [reduceTraced, if_neg h, Traced.calls_bind, value_levelTraced]

end LTree

/-- Recorded `climbNodes`. -/
def climbTraced (s : Setting) (publicSeed : Bytes) (layer tree leaf : Nat) :
    (height : Nat) → (node : Bytes) → List Bytes → Traced Bytes
  | _, node, [] => return node
  | height, node, sibling :: rest => do
    let a := Address.hashTree layer tree height (leaf >>> (height + 1))
    let parent ←
      if (leaf >>> height) % 2 = 0 then s.joinTraced publicSeed a node sibling
      else s.joinTraced publicSeed a sibling node
    climbTraced s publicSeed layer tree leaf (height + 1) parent rest

/-- Recorded `signatureRoot`. -/
def rootTraced (s : Setting) (publicSeed : Bytes) (layer tree leaf : Nat)
    (ots auth message : Bytes) : Traced Bytes := do
  let ends ← OneTime.recoverTraced s publicSeed layer tree leaf message (OneTime.nodesOf s ots)
  let compressed ← LTree.reduceTraced s publicSeed (.ltree layer tree leaf) 0 ends
  climbTraced s publicSeed layer tree leaf 0 (compressed.headD [])
    (Bytes.pieces s.n s.params.treeHeight auth)

/-- Recorded `reachedRoot`. -/
def reachedTraced (s : Setting) (publicSeed : Bytes) (index : Nat) (r : Bytes) :
    (layer : Nat) → (message : Bytes) → List TreeSignature → Traced (Option Bytes)
  | _, message, [] => return some message
  | layer, message, signature :: rest =>
    if signature.FitsLayer s index r layer then do
      let root ← rootTraced s publicSeed layer (treeIndex index layer s.params.treeHeight)
        (s.leafAt index layer) signature.ots signature.auth message
      reachedTraced s publicSeed index r (layer + 1) root rest
    else return none

section

variable (s : Setting) (publicSeed : Bytes)

@[simp]
theorem value_walkTraced (a : Address) (steps start : Nat) (x : Bytes) :
    (walkTraced s publicSeed a steps start x).value = advanceBy s publicSeed a steps start x := by
  induction steps generalizing start x with
  | zero => rfl
  | succ steps ih =>
    rw [walkTraced, Traced.value_bind, ih]
    rfl

/-- The calls of a walk go on with those from any value on its way. -/
theorem calls_walkTraced_add (a : Address) (m k start : Nat) (x : Bytes) :
    (walkTraced s publicSeed a (m + k) start x).calls
      = (walkTraced s publicSeed a m start x).calls
        ++ (walkTraced s publicSeed a k (start + m) (advanceBy s publicSeed a m start x)).calls := by
  induction m generalizing start x with
  | zero =>
    rw [Nat.zero_add, Nat.add_zero]
    rfl
  | succ m ih =>
    rw [Nat.succ_add, walkTraced, walkTraced, Traced.calls_bind, Traced.calls_bind, ih]
    rw [List.append_assoc, advanceBy, Nat.add_assoc, Nat.add_comm 1 m]
    rfl

@[simp]
theorem OneTime.value_recoverTraced (layer tree leaf : Nat) (message : Bytes)
    (nodes : List Bytes) :
    (recoverTraced s publicSeed layer tree leaf message nodes).value
      = recoveredNodes s publicSeed layer tree leaf message nodes := by
  simp [recoverTraced, recoveredNodes]

/-- The calls for one chain are among those for all. -/
theorem OneTime.calls_walkTraced_subset (layer tree leaf : Nat) (message : Bytes)
    (nodes : List Bytes) {i : Nat} (hi : i < s.oneTime.chains) :
    (walkTraced s publicSeed ((Address.oneTime layer tree leaf).setChain (UInt32.ofNat i))
        (s.oneTime.w - 1 - digit s message i) (digit s message i) (nodes.getD i [])).calls
      ⊆ (recoverTraced s publicSeed layer tree leaf message nodes).calls := by
  intro call hcall
  unfold recoverTraced
  rw [Traced.calls_each, List.mem_flatMap]
  exact ⟨i, List.mem_range.mpr hi, hcall⟩

@[simp]
theorem value_climbTraced (layer tree leaf height : Nat) (node : Bytes) (siblings : List Bytes) :
    (climbTraced s publicSeed layer tree leaf height node siblings).value
      = climbNodes s publicSeed layer tree leaf height node siblings := by
  induction siblings generalizing height node with
  | nil => rfl
  | cons sibling rest ih =>
    rw [climbTraced, climbNodes]
    split_ifs
    · exact ih _ _
    · exact ih _ _

/-- The call for one parent comes before those for the nodes above it. -/
theorem calls_climbTraced (layer tree leaf height : Nat) (node sibling : Bytes)
    (rest : List Bytes) :
    (climbTraced s publicSeed layer tree leaf height node (sibling :: rest)).calls
      = (if (leaf >>> height) % 2 = 0
          then s.joinTraced publicSeed (.hashTree layer tree height (leaf >>> (height + 1)))
            node sibling
          else s.joinTraced publicSeed (.hashTree layer tree height (leaf >>> (height + 1)))
            sibling node).calls
        ++ (climbTraced s publicSeed layer tree leaf (height + 1)
          (if (leaf >>> height) % 2 = 0
            then s.join publicSeed (.hashTree layer tree height (leaf >>> (height + 1)))
              node sibling
            else s.join publicSeed (.hashTree layer tree height (leaf >>> (height + 1)))
              sibling node) rest).calls := by
  rw [climbTraced]
  split_ifs
  · rfl
  · rfl

@[simp]
theorem value_rootTraced (layer tree leaf : Nat) (ots auth message : Bytes) :
    (rootTraced s publicSeed layer tree leaf ots auth message).value
      = signatureRoot s publicSeed layer tree leaf ots auth message := by
  simp [rootTraced, signatureRoot, recoveredLeaf, LTree.compressNodes]

/-- The calls of a tree: those of the chains, of the L-tree and of the path. -/
theorem calls_rootTraced (layer tree leaf : Nat) (ots auth message : Bytes) :
    (rootTraced s publicSeed layer tree leaf ots auth message).calls
      = (OneTime.recoverTraced s publicSeed layer tree leaf message (OneTime.nodesOf s ots)).calls
        ++ ((LTree.reduceTraced s publicSeed (.ltree layer tree leaf) 0
            (OneTime.recoveredNodes s publicSeed layer tree leaf message
              (OneTime.nodesOf s ots))).calls
          ++ (climbTraced s publicSeed layer tree leaf 0
            (recoveredLeaf s publicSeed layer tree leaf ots message)
            (Bytes.pieces s.n s.params.treeHeight auth)).calls) := by
  unfold rootTraced
  rw [Traced.calls_bind, Traced.calls_bind, OneTime.value_recoverTraced, LTree.value_reduceTraced]
  rfl

@[simp]
theorem value_reachedTraced (index : Nat) (r : Bytes) (layer : Nat) (message : Bytes)
    (layers : List TreeSignature) :
    (reachedTraced s publicSeed index r layer message layers).value
      = reachedRoot s publicSeed index r layer message layers := by
  induction layers generalizing layer message with
  | nil => rfl
  | cons signature rest ih =>
    rw [reachedTraced, reachedRoot]
    split_ifs
    · rw [Traced.value_bind, value_rootTraced, ih]
    · rfl

/-- The calls of a layer come before those of the layers above it. -/
theorem calls_reachedTraced {index : Nat} {r : Bytes} {layer : Nat} {signature : TreeSignature}
    (h : signature.FitsLayer s index r layer) (message : Bytes) (rest : List TreeSignature) :
    (reachedTraced s publicSeed index r layer message (signature :: rest)).calls
      = (rootTraced s publicSeed layer (treeIndex index layer s.params.treeHeight)
          (s.leafAt index layer) signature.ots signature.auth message).calls
        ++ (reachedTraced s publicSeed index r (layer + 1)
          (signatureRoot s publicSeed layer (treeIndex index layer s.params.treeHeight)
            (s.leafAt index layer) signature.ots signature.auth message) rest).calls := by
  rw [reachedTraced, if_pos h, Traced.calls_bind, value_rootTraced]

end

/-! ### Verification -/

namespace Engine

/-- **Verification with a record of its hash calls.** -/
def verifyTraced (e : Engine) (signature : Signature) (message : Bytes) (key : PublicKey) :
    Traced Bool :=
  match e.setting? signature.selector, verificationRoot key signature.selector with
  | some s, some root =>
    if signature.layers.length = e.params.layers ∧ signature.index < e.params.maxSignatures ∧
        signature.r.length = s.n ∧ root.length = s.n ∧ key.publicSeed.length = s.n then do
      let digest ← s.hMsgTraced signature.r root signature.index message
      let reached ← reachedTraced s key.publicSeed signature.index signature.r 0 digest
        signature.layers
      return reached == some root
    else return false
  | _, _ => return false

/-- **The record is that of `verify`**, which always answers. -/
theorem verify_eq_value (e : Engine) (signature : Signature) (message : Bytes) (key : PublicKey) :
    e.verify signature message key = .ok (e.verifyTraced signature message key).value := by
  unfold verifyTraced
  cases hs : e.setting? signature.selector with
  | none => exact verify_of_none (Or.inl hs) message
  | some s =>
    cases hroot : verificationRoot key signature.selector with
    | none => exact verify_of_none (Or.inr hroot) message
    | some root =>
      rw [verify_eq hs hroot]
      simp only
      split_ifs
      · rw [Traced.value_bind, Traced.value_bind, Traced.value_pure, value_reachedTraced,
          Setting.hMsgTraced]
      · rfl

/-- The calls of a verification that accepts: the digest of the message, and those of the layers. -/
theorem Accepts.calls_eq {e : Engine} {signature : Signature} {message : Bytes} {key : PublicKey}
    {s : Setting} {root : Bytes} (h : e.Accepts signature message key s root) :
    (e.verifyTraced signature message key).calls
      = .message signature.r root signature.index message
        :: (reachedTraced s key.publicSeed signature.index signature.r 0
          (s.hMsg signature.r root signature.index message) signature.layers).calls := by
  have hfits : signature.layers.length = e.params.layers ∧
      signature.index < e.params.maxSignatures ∧ signature.r.length = s.n ∧ root.length = s.n ∧
      key.publicSeed.length = s.n :=
    ⟨h.length_layers, h.index_lt, h.length_r, h.length_root, h.length_publicSeed⟩
  unfold verifyTraced
  rw [h.setting_eq, h.root_eq]
  simp only [if_pos hfits, Traced.calls_bind, Traced.calls_pure, List.append_nil]
  rfl

end Engine

end Hypertree
