import Hypertree.Proofs.Transcript

/-!
# What a signature binds

Two accepted signatures of one index under one selector, if they or their messages differ, exhibit a
break of the hash functions (`verify_binds`): the recorded calls of the two verifications contain
two different inputs with one digest, or a chain value of one signature lies further along its chain
in the other (`HashBreak`). The hash functions are arbitrary.

The argument descends from the root. Where two computations reach one value, either the last calls
collide or their inputs are equal: past the siblings of a path, the levels of an L-tree and the ends
of chains, down to what the layer signs. There, different digests have incomparable digits
(`Winternitz.exists_digit_lt`), and some chain is shorter in the first signature. What a layer signs
is the root of the layer below, and the bottom layer signs the digest of the message.
-/

namespace Hypertree

namespace Address

/-- The address of two nodes that are joined, in an L-tree or a tree. -/
def isNode (a : Address) : Bool :=
  match a.place with
  | .oneTime .. => false
  | .ltree .. | .hashTree .. => true

@[simp]
theorem isNode_setChain (a : Address) (i : UInt32) : (a.setChain i).isNode = a.isNode := by
  obtain ⟨layer, tree, place, selector⟩ := a
  cases place <;> rfl

@[simp]
theorem isNode_setStep (a : Address) (i : UInt32) : (a.setStep i).isNode = a.isNode := by
  obtain ⟨layer, tree, place, selector⟩ := a
  cases place <;> rfl

@[simp]
theorem isNode_setLevel (a : Address) (i : UInt32) : (a.setLevel i).isNode = a.isNode := by
  obtain ⟨layer, tree, place, selector⟩ := a
  cases place <;> rfl

@[simp]
theorem isNode_setIndex (a : Address) (i : UInt32) : (a.setIndex i).isNode = a.isNode := by
  obtain ⟨layer, tree, place, selector⟩ := a
  cases place <;> rfl

end Address

namespace TreeSignature

/-- The value of a chain in the one-time signature. -/
def chainValue (t : TreeSignature) (s : Setting) (i : Nat) : Bytes :=
  (OneTime.nodesOf s t.ots).getD i []

/-- The address of a chain of the one-time key that signed, at an index of the key. -/
def chainAddress (t : TreeSignature) (s : Setting) (index i : Nat) : Address :=
  (Address.oneTime t.layer (treeIndex index t.layer s.params.treeHeight) t.leaf).setChain
    (UInt32.ofNat i)

variable {s : Setting} {t t₁ t₂ : TreeSignature}

theorem isNode_chainAddress (t : TreeSignature) (s : Setting) (index i : Nat) :
    (t.chainAddress s index i).isNode = false := by
  unfold chainAddress
  rw [Address.isNode_setChain]
  rfl

theorem length_chainValue (h : t.ots.length = s.oneTime.signatureBytes) {i : Nat}
    (hi : i < s.oneTime.chains) : (t.chainValue s i).length = s.n :=
  Bytes.length_getD_pieces h hi

/-- A one-time signature is made of its chain values. -/
theorem ots_eq_of_chainValue_eq (h₁ : t₁.ots.length = s.oneTime.signatureBytes)
    (h₂ : t₂.ots.length = s.oneTime.signatureBytes)
    (h : ∀ i < s.oneTime.chains, t₁.chainValue s i = t₂.chainValue s i) : t₁.ots = t₂.ots := by
  -- chain by chain the nodes are equal, and the signature is their concatenation
  have hnodes : OneTime.nodesOf s t₁.ots = OneTime.nodesOf s t₂.ots := by
    apply List.ext_getElem
    · simp [OneTime.nodesOf]
    · intro i hi₁ hi₂
      have hi : i < s.oneTime.chains := by simpa [OneTime.nodesOf] using hi₁
      have hvalue := h i hi
      unfold chainValue at hvalue
      rwa [List.getD_eq_getElem _ _ hi₁, List.getD_eq_getElem _ _ hi₂] at hvalue
  rw [← Bytes.flatten_pieces h₁, ← Bytes.flatten_pieces h₂]
  exact congrArg List.flatten hnodes

/-- In place, a tree signature is its one-time signature and its path. -/
theorem FitsLayer.eq_of_parts {index layer : Nat} {r : Bytes} (h₁ : t₁.FitsLayer s index r layer)
    (h₂ : t₂.FitsLayer s index r layer) (hots : t₁.ots = t₂.ots) (hauth : t₁.auth = t₂.auth) :
    t₁ = t₂ := by
  have hlayer : t₁.layer = t₂.layer := h₁.layer_eq.trans h₂.layer_eq.symm
  have hr : t₁.r = t₂.r := h₁.r_eq.trans h₂.r_eq.symm
  have hleaf : t₁.leaf = t₂.leaf := h₁.leaf_eq.trans h₂.leaf_eq.symm
  obtain ⟨layer₁, r₁, leaf₁, ots₁, auth₁⟩ := t₁
  obtain ⟨layer₂, r₂, leaf₂, ots₂, auth₂⟩ := t₂
  rw [TreeSignature.mk.injEq]
  exact ⟨hlayer, hr, hleaf, hots, hauth⟩

end TreeSignature

/-- A compressed node is all that is left of the nodes. -/
theorem LTree.reduceNodes_eq_of_compressNodes_eq {s : Setting} {publicSeed : Bytes} {a : Address}
    {nodes₁ nodes₂ : List Bytes} (hne₁ : nodes₁ ≠ []) (hne₂ : nodes₂ ≠ [])
    (h : compressNodes s publicSeed a nodes₁ = compressNodes s publicSeed a nodes₂) :
    reduceNodes s publicSeed a 0 nodes₁ = reduceNodes s publicSeed a 0 nodes₂ := by
  -- one node is left of each, and compressing is taking it
  obtain ⟨x₁, hx₁⟩ := List.length_eq_one_iff.mp (length_reduceNodes s publicSeed a 0 hne₁)
  obtain ⟨x₂, hx₂⟩ := List.length_eq_one_iff.mp (length_reduceNodes s publicSeed a 0 hne₂)
  unfold compressNodes at h
  rw [hx₁, hx₂] at h
  have hx : x₁ = x₂ := h
  rw [hx₁, hx₂, hx]

/-- **A break of the hash functions**, exhibited by the layers of two signatures and the calls of
their verifications, under a public seed and a root at an index. -/
inductive HashBreak (s : Setting) (publicSeed root : Bytes) (index : Nat)
    (layers₁ layers₂ : List TreeSignature) (calls₁ calls₂ : List HashCall) : Prop where
  /-- Two different messages, or one under two randomizers, have one digest. -/
  | message {r₁ r₂ m₁ m₂ : Bytes} :
      .message r₁ root index m₁ ∈ calls₁ → .message r₂ root index m₂ ∈ calls₂ →
      (r₁, m₁) ≠ (r₂, m₂) → s.hMsg r₁ root index m₁ = s.hMsg r₂ root index m₂ →
      HashBreak s publicSeed root index layers₁ layers₂ calls₁ calls₂
  /-- Two different pairs of nodes have one parent. -/
  | pair {a : Address} {left₁ right₁ left₂ right₂ parent : Bytes} :
      a.isNode = true → .pair a left₁ right₁ ∈ calls₁ → .pair a left₂ right₂ ∈ calls₂ →
      (left₁, right₁) ≠ (left₂, right₂) → left₁.length = s.n → right₁.length = s.n →
      left₂.length = s.n → right₂.length = s.n →
      s.hashPair left₁ right₁ publicSeed a = .ok parent →
      s.hashPair left₂ right₂ publicSeed a = .ok parent →
      HashBreak s publicSeed root index layers₁ layers₂ calls₁ calls₂
  /-- A step of a chain takes two different values to one. -/
  | step {a : Address} {x₁ x₂ y : Bytes} :
      a.isNode = false → .step a x₁ ∈ calls₁ → .step a x₂ ∈ calls₂ → x₁ ≠ x₂ →
      x₁.length = s.n → x₂.length = s.n →
      s.hashNode x₁ publicSeed a = .ok y → s.hashNode x₂ publicSeed a = .ok y →
      HashBreak s publicSeed root index layers₁ layers₂ calls₁ calls₂
  /-- The value of a chain in the second signature is reached from that in the first one, whose
  verification steps on from it. -/
  | chain {t₁ t₂ : TreeSignature} {i start steps : Nat} {a : Address} :
      t₁ ∈ layers₁ → t₂ ∈ layers₂ → t₁.layer = t₂.layer → i < s.oneTime.chains → 0 < steps →
      .step ((t₁.chainAddress s index i).setStep (UInt32.ofNat start)) (t₁.chainValue s i)
        ∈ calls₁ →
      chain s (t₁.chainValue s i) start steps publicSeed (t₁.chainAddress s index i)
        = .ok (some (t₂.chainValue s i, a)) →
      HashBreak s publicSeed root index layers₁ layers₂ calls₁ calls₂

namespace HashBreak

variable {s : Setting} {publicSeed root : Bytes} {index : Nat}
  {layers₁ layers₂ layers₁' layers₂' : List TreeSignature}
  {calls₁ calls₂ calls₁' calls₂' : List HashCall}

/-- More layers and more calls exhibit the same breaks. -/
theorem mono (h : HashBreak s publicSeed root index layers₁ layers₂ calls₁ calls₂)
    (hl₁ : layers₁ ⊆ layers₁') (hl₂ : layers₂ ⊆ layers₂') (hc₁ : calls₁ ⊆ calls₁')
    (hc₂ : calls₂ ⊆ calls₂') :
    HashBreak s publicSeed root index layers₁' layers₂' calls₁' calls₂' := by
  cases h with
  | message h₁ h₂ hne heq => exact .message (hc₁ h₁) (hc₂ h₂) hne heq
  | pair ha h₁ h₂ hne hleft₁ hright₁ hleft₂ hright₂ hparent₁ hparent₂ =>
    exact .pair ha (hc₁ h₁) (hc₂ h₂) hne hleft₁ hright₁ hleft₂ hright₂ hparent₁ hparent₂
  | step ha h₁ h₂ hne hx₁ hx₂ hy₁ hy₂ => exact .step ha (hc₁ h₁) (hc₂ h₂) hne hx₁ hx₂ hy₁ hy₂
  | chain h₁ h₂ hlayer hi hsteps hcall hchain =>
    exact .chain (hl₁ h₁) (hl₂ h₂) hlayer hi hsteps (hc₁ hcall) hchain

/-- More calls exhibit the same breaks. -/
theorem mono_calls (h : HashBreak s publicSeed root index layers₁ layers₂ calls₁ calls₂)
    (hc₁ : calls₁ ⊆ calls₁') (hc₂ : calls₂ ⊆ calls₂') :
    HashBreak s publicSeed root index layers₁ layers₂ calls₁' calls₂' :=
  h.mono (List.Subset.refl _) (List.Subset.refl _) hc₁ hc₂

/-- Calls made before do not matter. -/
theorem after (h : HashBreak s publicSeed root index layers₁ layers₂ calls₁ calls₂) :
    HashBreak s publicSeed root index layers₁ layers₂ (calls₁' ++ calls₁) (calls₂' ++ calls₂) :=
  h.mono_calls (List.subset_append_right ..) (List.subset_append_right ..)

/-- Calls made afterwards do not matter. -/
theorem before (h : HashBreak s publicSeed root index layers₁ layers₂ calls₁ calls₂) :
    HashBreak s publicSeed root index layers₁ layers₂ (calls₁ ++ calls₁') (calls₂ ++ calls₂') :=
  h.mono_calls (List.subset_append_left ..) (List.subset_append_left ..)

/-- Two pairs of nodes with one parent are equal, or a break. -/
theorem of_join_eq {a : Address} (ha : a.isNode = true) {left₁ right₁ left₂ right₂ : Bytes}
    (hleft₁ : left₁.length = s.n) (hright₁ : right₁.length = s.n) (hleft₂ : left₂.length = s.n)
    (hright₂ : right₂.length = s.n)
    (h : s.join publicSeed a left₁ right₁ = s.join publicSeed a left₂ right₂) :
    HashBreak s publicSeed root index layers₁ layers₂ (s.joinTraced publicSeed a left₁ right₁).calls
        (s.joinTraced publicSeed a left₂ right₂).calls ∨ left₁ = left₂ ∧ right₁ = right₂ := by
  have hparent₁ := Setting.hashPair_eq hleft₁ hright₁ publicSeed a
  have hparent₂ := Setting.hashPair_eq hleft₂ hright₂ publicSeed a
  rw [← h] at hparent₂
  -- different inputs with one digest are the collision
  by_cases heq : (left₁, right₁) = (left₂, right₂)
  · exact Or.inr (Prod.mk.inj heq)
  · left
    exact .pair ha (List.mem_singleton_self _) (List.mem_singleton_self _) heq hleft₁ hright₁ hleft₂
      hright₂ hparent₁ hparent₂

/-- Two nodes and their siblings, on one side or the other, with one parent are equal, or there is a
break. -/
theorem of_parent_eq {a : Address} (ha : a.isNode = true) (isLeft : Prop) [Decidable isLeft]
    {node₁ sibling₁ node₂ sibling₂ : Bytes} (hnode₁ : node₁.length = s.n)
    (hsibling₁ : sibling₁.length = s.n) (hnode₂ : node₂.length = s.n)
    (hsibling₂ : sibling₂.length = s.n)
    (h : (if isLeft then s.join publicSeed a node₁ sibling₁ else s.join publicSeed a sibling₁ node₁)
      = if isLeft then s.join publicSeed a node₂ sibling₂ else s.join publicSeed a sibling₂ node₂) :
    HashBreak s publicSeed root index layers₁ layers₂
      (if isLeft then s.joinTraced publicSeed a node₁ sibling₁
        else s.joinTraced publicSeed a sibling₁ node₁).calls
      (if isLeft then s.joinTraced publicSeed a node₂ sibling₂
        else s.joinTraced publicSeed a sibling₂ node₂).calls ∨
      node₁ = node₂ ∧ sibling₁ = sibling₂ := by
  -- the node is the left child or the right one, of both parents alike
  split_ifs at h ⊢
  · exact of_join_eq ha hnode₁ hsibling₁ hnode₂ hsibling₂ h
  · rcases of_join_eq ha hsibling₁ hnode₁ hsibling₂ hnode₂ h with hbreak | ⟨hsibling, hnode⟩
    · exact Or.inl hbreak
    · exact Or.inr ⟨hnode, hsibling⟩

/-- Two values with one next value are equal, or a break. -/
theorem of_advance_eq {a : Address} (ha : a.isNode = false) {x₁ x₂ : Bytes}
    (hx₁ : x₁.length = s.n) (hx₂ : x₂.length = s.n)
    (h : s.advance publicSeed a x₁ = s.advance publicSeed a x₂) :
    HashBreak s publicSeed root index layers₁ layers₂ (s.advanceTraced publicSeed a x₁).calls
        (s.advanceTraced publicSeed a x₂).calls ∨ x₁ = x₂ := by
  have hnext₁ := Setting.hashNode_eq hx₁ publicSeed a
  have hnext₂ := Setting.hashNode_eq hx₂ publicSeed a
  rw [← h] at hnext₂
  by_cases heq : x₁ = x₂
  · exact Or.inr heq
  · left
    exact .step ha (List.mem_singleton_self _) (List.mem_singleton_self _) heq hx₁ hx₂ hnext₁ hnext₂

/-! ### Chains -/

/-- Two values from which the same steps reach one value are equal, or a break. -/
theorem of_advanceBy_eq {a : Address} (ha : a.isNode = false) {steps start : Nat} {x₁ x₂ : Bytes}
    (hx₁ : x₁.length = s.n) (hx₂ : x₂.length = s.n)
    (h : advanceBy s publicSeed a steps start x₁ = advanceBy s publicSeed a steps start x₂) :
    HashBreak s publicSeed root index layers₁ layers₂
      (walkTraced s publicSeed a steps start x₁).calls
        (walkTraced s publicSeed a steps start x₂).calls ∨ x₁ = x₂ := by
  -- from the last step back: either it is a break, or the values before it are equal
  induction steps generalizing start x₁ x₂ with
  | zero => exact Or.inr h
  | succ steps ih =>
    have hstep : (a.setStep (UInt32.ofNat start)).isNode = false := by simpa using ha
    rcases ih (Setting.length_advance ..) (Setting.length_advance ..) h with hbreak | hnext
    · exact Or.inl hbreak.after
    · rcases of_advance_eq hstep hx₁ hx₂ hnext with hbreak | heq
      · exact Or.inl hbreak.before
      · exact Or.inr heq

/-- A chain that the first signature leaves further to walk is a break, if both reach one end. -/
theorem of_digit_lt {t₁ t₂ : TreeSignature} (ht₁ : t₁ ∈ layers₁) (ht₂ : t₂ ∈ layers₂)
    (hlayer : t₁.layer = t₂.layer) {i d₁ d₂ : Nat} (hi : i < s.oneTime.chains) (hlt : d₁ < d₂)
    (hd₂ : d₂ < s.oneTime.w) (hx₁ : (t₁.chainValue s i).length = s.n)
    (hx₂ : (t₂.chainValue s i).length = s.n)
    (h : advanceBy s publicSeed (t₁.chainAddress s index i) (s.oneTime.w - 1 - d₁) d₁
        (t₁.chainValue s i)
      = advanceBy s publicSeed (t₁.chainAddress s index i) (s.oneTime.w - 1 - d₂) d₂
        (t₂.chainValue s i)) :
    HashBreak s publicSeed root index layers₁ layers₂
      (walkTraced s publicSeed (t₁.chainAddress s index i) (s.oneTime.w - 1 - d₁) d₁
        (t₁.chainValue s i)).calls
      (walkTraced s publicSeed (t₁.chainAddress s index i) (s.oneTime.w - 1 - d₂) d₂
        (t₂.chainValue s i)).calls := by
  have hsplit : s.oneTime.w - 1 - d₁ = (d₂ - d₁) + (s.oneTime.w - 1 - d₂) := by omega
  have hd : d₁ + (d₂ - d₁) = d₂ := by omega
  rw [hsplit, advanceBy_add, hd] at h
  rcases of_advanceBy_eq (t₁.isNode_chainAddress s index i) (length_advanceBy hx₁) hx₂ h with
    hbreak | heq
  · -- the walks already part after position `d₂`
    refine hbreak.mono_calls ?_ (List.Subset.refl _)
    rw [hsplit, calls_walkTraced_add, hd]
    exact List.subset_append_right ..
  · -- from `d₁` to `d₂` the first walk reaches the value in the second signature
    have hend : d₁ + (d₂ - d₁) ≤ s.oneTime.w - 1 := by omega
    obtain ⟨a, hchain⟩ := chain_eq publicSeed d₁ (d₂ - d₁) hx₁ hend (t₁.chainAddress s index i)
    rw [heq] at hchain
    obtain ⟨rest, hrest⟩ : ∃ rest, s.oneTime.w - 1 - d₁ = rest + 1 :=
      ⟨s.oneTime.w - 1 - d₁ - 1, by omega⟩
    rw [hrest]
    exact .chain ht₁ ht₂ hlayer hi (Nat.sub_pos_of_lt hlt) List.mem_cons_self hchain

/-- One-time signatures that lead to the same chain ends are equal and sign the same, or a break. -/
theorem of_recoveredNodes_eq (hp : s.oneTime.Valid) {t₁ t₂ : TreeSignature} (ht₁ : t₁ ∈ layers₁)
    (ht₂ : t₂ ∈ layers₂) {r₁ r₂ : Bytes} {layer : Nat} (hfits₁ : t₁.FitsLayer s index r₁ layer)
    (hfits₂ : t₂.FitsLayer s index r₂ layer) {m₁ m₂ : Bytes} (hm₁ : m₁.length = s.n)
    (hm₂ : m₂.length = s.n)
    (h : OneTime.recoveredNodes s publicSeed layer (treeIndex index layer s.params.treeHeight)
        (s.leafAt index layer) m₁ (OneTime.nodesOf s t₁.ots)
      = OneTime.recoveredNodes s publicSeed layer (treeIndex index layer s.params.treeHeight)
        (s.leafAt index layer) m₂ (OneTime.nodesOf s t₂.ots)) :
    HashBreak s publicSeed root index layers₁ layers₂
      (OneTime.recoverTraced s publicSeed layer (treeIndex index layer s.params.treeHeight)
        (s.leafAt index layer) m₁ (OneTime.nodesOf s t₁.ots)).calls
      (OneTime.recoverTraced s publicSeed layer (treeIndex index layer s.params.treeHeight)
        (s.leafAt index layer) m₂ (OneTime.nodesOf s t₂.ots)).calls ∨
      m₁ = m₂ ∧ t₁.ots = t₂.ots := by
  obtain rfl := hfits₁.layer_eq
  rw [← hfits₁.leaf_eq] at h ⊢
  -- each chain is walked to the same end from the values of both signatures
  have hends : ∀ i < s.oneTime.chains,
      advanceBy s publicSeed (t₁.chainAddress s index i) (s.oneTime.w - 1 - OneTime.digit s m₁ i)
          (OneTime.digit s m₁ i) (t₁.chainValue s i)
        = advanceBy s publicSeed (t₁.chainAddress s index i)
          (s.oneTime.w - 1 - OneTime.digit s m₂ i) (OneTime.digit s m₂ i) (t₂.chainValue s i) := by
    intro i hi
    exact List.map_inj_left.mp h i (List.mem_range.mpr hi)
  -- the steps of one chain are among the calls of the recovery
  have hcalls := fun (m : Bytes) (t : TreeSignature) (i : Nat) (hi : i < s.oneTime.chains) =>
    OneTime.calls_walkTraced_subset s publicSeed t₁.layer
      (treeIndex index t₁.layer s.params.treeHeight) t₁.leaf m (OneTime.nodesOf s t.ots) hi
  have hlen₁ : ∀ i < s.oneTime.chains, (t₁.chainValue s i).length = s.n := by
    intro i
    exact TreeSignature.length_chainValue hfits₁.length_ots
  have hlen₂ : ∀ i < s.oneTime.chains, (t₂.chainValue s i).length = s.n := by
    intro i
    exact TreeSignature.length_chainValue hfits₂.length_ots
  by_cases hm : m₁ = m₂
  · subst hm
    by_cases heq : ∀ i < s.oneTime.chains, t₁.chainValue s i = t₂.chainValue s i
    · right
      exact ⟨rfl, TreeSignature.ots_eq_of_chainValue_eq hfits₁.length_ots hfits₂.length_ots heq⟩
    · -- two values of one chain that reach one end by the same steps
      obtain ⟨i, hi, hne⟩ := not_forall₂.mp heq
      have hnode := t₁.isNode_chainAddress s index i
      rcases of_advanceBy_eq hnode (hlen₁ i hi) (hlen₂ i hi) (hends i hi) with hbreak | heq
      · exact Or.inl (hbreak.mono_calls (hcalls m₁ t₁ i hi) (hcalls m₁ t₂ i hi))
      · exact absurd heq hne
  · -- of two different messages, each has a digit below the other's
    obtain ⟨i, hi, hlt⟩ := Winternitz.exists_digit_lt hp hm₁ hm₂ hm
    have hdigit := OneTime.digit_lt hp m₂ i
    left
    refine mono_calls ?_ (hcalls m₁ t₁ i hi) (hcalls m₂ t₂ i hi)
    exact of_digit_lt ht₁ ht₂ hfits₂.layer_eq.symm hi hlt hdigit (hlen₁ i hi) (hlen₂ i hi)
      (hends i hi)

/-! ### L-trees -/

/-- Nodes that are joined to the same level are equal, or a break. -/
theorem of_joinNodes_eq {a : Address} (ha : a.isNode = true) :
    ∀ {i : Nat} {nodes₁ nodes₂ : List Bytes},
    nodes₁.length = nodes₂.length → (∀ x ∈ nodes₁, x.length = s.n) →
    (∀ x ∈ nodes₂, x.length = s.n) →
    LTree.joinNodes s publicSeed a i nodes₁ = LTree.joinNodes s publicSeed a i nodes₂ →
    HashBreak s publicSeed root index layers₁ layers₂
      (LTree.levelTraced s publicSeed a i nodes₁).calls
      (LTree.levelTraced s publicSeed a i nodes₂).calls ∨ nodes₁ = nodes₂
  | _, [], [], _, _, _, _ => Or.inr rfl
  -- a node without a partner moves up unchanged
  | _, [_], [_], _, _, _, h => Or.inr h
  | i, left₁ :: right₁ :: rest₁, left₂ :: right₂ :: rest₂, hlen, hn₁, hn₂, h => by
    simp only [List.forall_mem_cons] at hn₁ hn₂
    obtain ⟨hleft₁, hright₁, hrest₁⟩ := hn₁
    obtain ⟨hleft₂, hright₂, hrest₂⟩ := hn₂
    obtain ⟨hparent, hparents⟩ := List.cons.inj h
    have hlen' : rest₁.length = rest₂.length := by simpa using hlen
    have ha' : (a.setIndex (UInt32.ofNat i)).isNode = true := by simpa using ha
    -- the later parents first, then the pair below the first parent
    rcases of_joinNodes_eq ha hlen' hrest₁ hrest₂ hparents with hbreak | rfl
    · exact Or.inl hbreak.before.after
    · rcases of_join_eq ha' hleft₁ hright₁ hleft₂ hright₂ hparent with hbreak | ⟨rfl, rfl⟩
      · exact Or.inl hbreak.before
      · exact Or.inr rfl

/-- Nodes that are reduced to the same node are equal, or a break. -/
theorem of_reduceNodes_eq {a : Address} (ha : a.isNode = true) {level : Nat}
    {nodes₁ nodes₂ : List Bytes} (hlen : nodes₁.length = nodes₂.length)
    (hn₁ : ∀ x ∈ nodes₁, x.length = s.n) (hn₂ : ∀ x ∈ nodes₂, x.length = s.n)
    (h : LTree.reduceNodes s publicSeed a level nodes₁
      = LTree.reduceNodes s publicSeed a level nodes₂) :
    HashBreak s publicSeed root index layers₁ layers₂
      (LTree.reduceTraced s publicSeed a level nodes₁).calls
      (LTree.reduceTraced s publicSeed a level nodes₂).calls ∨ nodes₁ = nodes₂ := by
  -- both lists have the same length, so they are reduced level by level together
  fun_induction LTree.reduceNodes s publicSeed a level nodes₁ generalizing nodes₂ with
  | case1 level nodes₁ hle =>
    rw [LTree.reduceNodes, if_pos (hlen ▸ hle)] at h
    exact Or.inr h
  | case2 level nodes₁ hlt ih =>
    have hlt₂ : ¬ nodes₂.length ≤ 1 := hlen ▸ hlt
    rw [LTree.reduceNodes.eq_1 _ _ _ _ nodes₂, if_neg hlt₂] at h
    rw [LTree.calls_reduceTraced _ _ _ _ hlt, LTree.calls_reduceTraced _ _ _ _ hlt₂]
    set a' := a.setLevel (UInt32.ofNat level)
    have ha' : a'.isNode = true := by simpa [a'] using ha
    have hparents : (LTree.joinNodes s publicSeed a' 0 nodes₁).length
        = (LTree.joinNodes s publicSeed a' 0 nodes₂).length := by
      rw [LTree.length_joinNodes, LTree.length_joinNodes, hlen]
    -- the levels above agree, so the next level is one list, joined from both
    rcases ih hparents (LTree.length_of_mem_joinNodes hn₁) (LTree.length_of_mem_joinNodes hn₂) h
      with
      hbreak | hlevel
    · exact Or.inl hbreak.after
    · rcases of_joinNodes_eq ha' hlen hn₁ hn₂ hlevel with hbreak | heq
      · exact Or.inl hbreak.before
      · exact Or.inr heq

/-! ### Trees -/

/-- Nodes that lead to the same node past as many siblings are equal, and so are the siblings, or a
break. -/
theorem of_climbNodes_eq {layer tree leaf height : Nat} {node₁ node₂ : Bytes}
    {siblings₁ siblings₂ : List Bytes} (hlen : siblings₁.length = siblings₂.length)
    (hnode₁ : node₁.length = s.n) (hnode₂ : node₂.length = s.n)
    (hn₁ : ∀ x ∈ siblings₁, x.length = s.n) (hn₂ : ∀ x ∈ siblings₂, x.length = s.n)
    (h : climbNodes s publicSeed layer tree leaf height node₁ siblings₁
      = climbNodes s publicSeed layer tree leaf height node₂ siblings₂) :
    HashBreak s publicSeed root index layers₁ layers₂
      (climbTraced s publicSeed layer tree leaf height node₁ siblings₁).calls
      (climbTraced s publicSeed layer tree leaf height node₂ siblings₂).calls ∨
      node₁ = node₂ ∧ siblings₁ = siblings₂ := by
  -- from the root down: the parents agree by the rest of the path, then their children do
  induction siblings₁ generalizing height node₁ node₂ siblings₂ with
  | nil =>
    obtain rfl := List.length_eq_zero_iff.mp hlen.symm
    exact Or.inr ⟨h, rfl⟩
  | cons sibling₁ rest₁ ih =>
    obtain ⟨sibling₂, rest₂, rfl⟩ := List.exists_cons_of_length_eq_add_one hlen.symm
    have hlen' : rest₁.length = rest₂.length := by simpa using hlen
    simp only [List.forall_mem_cons] at hn₁ hn₂
    obtain ⟨hsibling₁, hrest₁⟩ := hn₁
    obtain ⟨hsibling₂, hrest₂⟩ := hn₂
    rw [climbNodes, climbNodes] at h
    rw [calls_climbTraced, calls_climbTraced]
    have hparent : ∀ node sibling, (if (leaf >>> height) % 2 = 0
        then s.join publicSeed (.hashTree layer tree height (leaf >>> (height + 1))) node sibling
        else s.join publicSeed (.hashTree layer tree height (leaf >>> (height + 1))) sibling
          node).length = s.n := by
      intro node sibling
      split_ifs
      · exact Setting.length_join ..
      · exact Setting.length_join ..
    rcases ih hlen' (hparent ..) (hparent ..) hrest₁ hrest₂ h with hbreak | ⟨heq, hrest⟩
    · exact Or.inl hbreak.after
    · rcases of_parent_eq rfl _ hnode₁ hsibling₁ hnode₂ hsibling₂ heq with
        hbreak | ⟨hnode, hsibling⟩
      · exact Or.inl hbreak.before
      · exact Or.inr ⟨hnode, by rw [hsibling, hrest]⟩

/-- Tree signatures of one leaf that lead to the same root are equal and sign the same, or there is a
break. -/
theorem of_signatureRoot_eq (hp : s.oneTime.Valid) {t₁ t₂ : TreeSignature} (ht₁ : t₁ ∈ layers₁)
    (ht₂ : t₂ ∈ layers₂) {r₁ r₂ : Bytes} {layer : Nat} (hfits₁ : t₁.FitsLayer s index r₁ layer)
    (hfits₂ : t₂.FitsLayer s index r₂ layer) {m₁ m₂ : Bytes} (hm₁ : m₁.length = s.n)
    (hm₂ : m₂.length = s.n)
    (h : signatureRoot s publicSeed layer (treeIndex index layer s.params.treeHeight)
        (s.leafAt index layer) t₁.ots t₁.auth m₁
      = signatureRoot s publicSeed layer (treeIndex index layer s.params.treeHeight)
        (s.leafAt index layer) t₂.ots t₂.auth m₂) :
    HashBreak s publicSeed root index layers₁ layers₂
      (rootTraced s publicSeed layer (treeIndex index layer s.params.treeHeight)
        (s.leafAt index layer) t₁.ots t₁.auth m₁).calls
      (rootTraced s publicSeed layer (treeIndex index layer s.params.treeHeight)
        (s.leafAt index layer) t₂.ots t₂.auth m₂).calls ∨
      m₁ = m₂ ∧ t₁.ots = t₂.ots ∧ t₁.auth = t₂.auth := by
  rw [calls_rootTraced, calls_rootTraced]
  -- the path down to the leaf
  have hsiblings₁ : ∀ x ∈ Bytes.pieces s.n s.params.treeHeight t₁.auth, x.length = s.n := by
    intro x
    exact Bytes.length_of_mem_pieces hfits₁.length_auth
  have hsiblings₂ : ∀ x ∈ Bytes.pieces s.n s.params.treeHeight t₂.auth, x.length = s.n := by
    intro x
    exact Bytes.length_of_mem_pieces hfits₂.length_auth
  rcases of_climbNodes_eq (by simp) (length_recoveredLeaf hfits₁.length_ots)
    (length_recoveredLeaf hfits₂.length_ots) hsiblings₁ hsiblings₂ h with hbreak | ⟨hleaf, hpath⟩
  · exact Or.inl hbreak.after.after
  have hauth : t₁.auth = t₂.auth := by
    rw [← Bytes.flatten_pieces hfits₁.length_auth, hpath,
      Bytes.flatten_pieces hfits₂.length_auth]
  -- the L-tree down to the ends of the chains
  have hreduced := LTree.reduceNodes_eq_of_compressNodes_eq (recoveredNodes_ne_nil _ _)
    (recoveredNodes_ne_nil _ _) hleaf
  rcases of_reduceNodes_eq rfl (by rw [length_recoveredNodes, length_recoveredNodes])
    (fun _ => length_of_mem_recoveredNodes hfits₁.length_ots)
    (fun _ => length_of_mem_recoveredNodes hfits₂.length_ots) hreduced with hbreak | hends
  · exact Or.inl hbreak.before.after
  -- the chains down to what is signed
  rcases of_recoveredNodes_eq hp ht₁ ht₂ hfits₁ hfits₂ hm₁ hm₂ hends with hbreak | ⟨hm, hots⟩
  · exact Or.inl hbreak.before
  · exact Or.inr ⟨hm, hots, hauth⟩

/-! ### Layers -/

/-- Layers of one index that lead to the same root sign the same and are equal, up to randomizers,
or a break. -/
theorem of_reachedRoot_eq (hp : s.oneTime.Valid) {r₁ r₂ reached : Bytes} {layer : Nat}
    {m₁ m₂ : Bytes} {layers₁ layers₂ : List TreeSignature} (hlen : layers₁.length = layers₂.length)
    (hm₁ : m₁.length = s.n) (hm₂ : m₂.length = s.n)
    (h₁ : reachedRoot s publicSeed index r₁ layer m₁ layers₁ = some reached)
    (h₂ : reachedRoot s publicSeed index r₂ layer m₂ layers₂ = some reached) :
    HashBreak s publicSeed root index layers₁ layers₂
      (reachedTraced s publicSeed index r₁ layer m₁ layers₁).calls
      (reachedTraced s publicSeed index r₂ layer m₂ layers₂).calls ∨
      m₁ = m₂ ∧ (r₁ = r₂ → layers₁ = layers₂) := by
  -- from the top layer down: once the layers above agree, so do the roots that they sign
  induction layers₁ generalizing layer m₁ m₂ layers₂ with
  | nil =>
    obtain rfl := List.length_eq_zero_iff.mp hlen.symm
    exact Or.inr ⟨(Option.some.inj h₁).trans (Option.some.inj h₂).symm, fun _ => rfl⟩
  | cons t₁ rest₁ ih =>
    obtain ⟨t₂, rest₂, rfl⟩ := List.exists_cons_of_length_eq_add_one hlen.symm
    have hlen' : rest₁.length = rest₂.length := by simpa using hlen
    rw [reachedRoot] at h₁ h₂
    split_ifs at h₁ h₂ with hfits₁ hfits₂
    rw [calls_reachedTraced _ _ hfits₁, calls_reachedTraced _ _ hfits₂]
    rcases ih hlen' (length_signatureRoot hfits₁.length_ots)
      (length_signatureRoot hfits₂.length_ots) h₁ h₂ with hbreak | ⟨hroot, hrest⟩
    · -- the break lies in a layer above this one
      have habove := hbreak.mono (List.subset_cons_self t₁ rest₁) (List.subset_cons_self t₂ rest₂)
        (List.Subset.refl _) (List.Subset.refl _)
      exact Or.inl habove.after
    · -- the layers above sign one root, which the two trees of this layer have in common
      rcases of_signatureRoot_eq hp List.mem_cons_self List.mem_cons_self hfits₁ hfits₂ hm₁ hm₂
          hroot
        with hbreak | ⟨hm, hots, hauth⟩
      · exact Or.inl hbreak.before
      · right
        refine ⟨hm, ?_⟩
        intro hr
        subst hr
        rw [hfits₁.eq_of_parts hfits₂ hots hauth, hrest rfl]

end HashBreak

namespace Engine

/-- **An accepted signature binds its message and itself.** Two accepted signatures of one index
under one selector that differ, or whose messages differ, exhibit a break of the hash functions in
the recorded calls of their verifications. -/
theorem verify_binds (e : Engine) {key : PublicKey} {sig₁ sig₂ : Signature} {m₁ m₂ : Bytes}
    (h₁ : e.verify sig₁ m₁ key = .ok true) (h₂ : e.verify sig₂ m₂ key = .ok true)
    (hselector : sig₁.selector = sig₂.selector) (hindex : sig₁.index = sig₂.index)
    (hne : (m₁, sig₁) ≠ (m₂, sig₂)) :
    ∃ s root, e.setting? sig₁.selector = some s ∧
      verificationRoot key sig₁.selector = some root ∧
      HashBreak s key.publicSeed root sig₁.index sig₁.layers sig₂.layers
        (e.verifyTraced sig₁ m₁ key).calls (e.verifyTraced sig₂ m₂ key).calls := by
  obtain ⟨s, root, h₁⟩ := verify_eq_ok_true_iff.mp h₁
  obtain ⟨s', root', h₂⟩ := verify_eq_ok_true_iff.mp h₂
  refine ⟨s, root, h₁.setting_eq, h₁.root_eq, ?_⟩
  -- one selector and one public key: the setting and the root are the same for both
  obtain rfl : s = s' := Option.some.inj (h₁.setting_eq.symm.trans (hselector ▸ h₂.setting_eq))
  obtain rfl : root = root' := Option.some.inj (h₁.root_eq.symm.trans (hselector ▸ h₂.root_eq))
  have hp : s.oneTime.Valid := (e.setting_spec h₁.setting_eq).2.2
  have hlen : sig₁.layers.length = sig₂.layers.length :=
    h₁.length_layers.trans h₂.length_layers.symm
  have hreached₂ := h₂.reached
  rw [h₁.calls_eq, h₂.calls_eq]
  rw [← hindex] at hreached₂ ⊢
  rcases HashBreak.of_reachedRoot_eq hp hlen (s.length_hMsg ..) (s.length_hMsg ..) h₁.reached
    hreached₂ with hbreak | ⟨hdigest, hlayers⟩
  · exact hbreak.mono_calls (List.subset_cons_self ..) (List.subset_cons_self ..)
  · -- all layers agree, so the digests do; the randomizers or the messages must differ
    refine .message List.mem_cons_self List.mem_cons_self ?_ hdigest
    intro heq
    apply hne
    obtain ⟨hr, hm⟩ := Prod.mk.inj heq
    have hsig : sig₁ = sig₂ := by
      obtain ⟨selector₁, index₁, r₁, layers₁⟩ := sig₁
      obtain ⟨selector₂, index₂, r₂, layers₂⟩ := sig₂
      rw [Signature.mk.injEq]
      exact ⟨hselector, hindex, hr, hlayers hr⟩
    rw [hm, hsig]

/-- Two messages signed at the first index of a key of `Engine.small`, as by two copies of the key,
exhibit a break. -/
theorem verify_binds_small :
    ∃ key sig₁ sig₂, small.verify sig₁ [0] key = .ok true ∧ small.verify sig₂ [1] key = .ok true ∧
      sig₁.index = 0 ∧ sig₂.index = 0 ∧
      ∃ root, HashBreak small.primary key.publicSeed root 0 sig₁.layers sig₂.layers
        (small.verifyTraced sig₁ [0] key).calls (small.verifyTraced sig₂ [1] key).calls := by
  obtain ⟨key, -, -, -, -, hkey, hrooted⟩ := generateFromSeeds_eq seedsFit_small
  have hroot := hrooted .primary
  have hprimary : small.setting? .primary = some small.primary := rfl
  have hsign := small.reference?_eq hprimary hroot 0
  have hindex : 0 < key.header.maxSignatures := Nat.two_pow_pos _
  have h₁ := verify_of_reference? hkey hrooted hindex (hsign [0]) rfl rfl
  have h₂ := verify_of_reference? hkey hrooted hindex (hsign [1]) rfl rfl
  obtain ⟨s, root, hs, -, hbreak⟩ := small.verify_binds h₁ h₂ rfl rfl (by simp)
  obtain rfl := Option.some.inj hs
  exact ⟨key.publicKey, _, _, h₁, h₂, rfl, rfl, root, hbreak⟩

end Engine

end Hypertree
