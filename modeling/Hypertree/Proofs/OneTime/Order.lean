import Hypertree.Proofs.OneTime.Outcome

/-!
# One-time operations in any order

The chains of a one-time key may be computed in any order, or at once. `publicKeyIn`, `signIn` and
`recoverIn` are the operations with the order as an argument. From the first chain to the last they
are `publicKey`, `sign` and `recover`, which is how these are defined; `publicKeyIn_eq`, `signIn_eq`
and `recoverIn_eq` say that they are in every other order, errors included.

Of several failures the last one is reported, so errors need a reason of their own: the chains of one
operation that fail, fail with one error (`eq_of_chainFromSecret_error`). Without a nonce for the
leaf that is its absence, for all of them; with one, it is that there are too many steps. Finishing
the chains of a signature does not fail (`exists_finishChain_eq`).
-/

namespace Hypertree

namespace OneTime

/-- `publicKey` with the chains computed in a given order. -/
def publicKeyIn (order : List Nat) (s : Setting) (seeds : Seeds) (layer tree leaf : Nat) :
    Except Error Bytes := do
  checkSeeds s seeds
  let p := s.oneTime
  let base := Address.oneTime layer tree leaf
  Schedule.mapPiecesIn order p.n (fun i _ => chainFromSecret s seeds base leaf i (p.w - 1))
    (Bytes.zeros p.signatureBytes)

/-- `sign` with the chains computed in a given order. -/
def signIn (order : List Nat) (s : Setting) (seeds : Seeds) (layer tree leaf : Nat)
    (message : Bytes) : Except Error Bytes := do
  checkSeeds s seeds
  let p := s.oneTime
  unless message.length = p.n do
    throw (.invalidLength .messageDigest p.n message.length)
  let digits := (p.digits message).toArray
  let base := Address.oneTime layer tree leaf
  Schedule.mapPiecesIn order p.n
    (fun i _ => chainFromSecret s seeds base leaf i (digits.getD i 0)) (Bytes.zeros p.signatureBytes)

/-- `recover` with the chains computed in a given order. -/
def recoverIn (order : List Nat) (s : Setting) (signature message publicSeed : Bytes)
    (layer tree leaf : Nat) : Except Error (Option Bytes) :=
  let p := s.oneTime
  if signature.length = p.signatureBytes ∧ message.length = p.n then
    let digits := (p.digits message).toArray
    let base := Address.oneTime layer tree leaf
    (Schedule.mapPiecesIn order p.n
      (fun i x => finishChain s publicSeed base i (digits.getD i 0) x) signature).map some
  else .ok none

variable {s : Setting} {seeds : Seeds} {order : List Nat}

/-! ### How chains fail -/

/-- What stops a chain of a leaf from being computed: no nonce, or too many steps. -/
theorem chainFromSecret_error_eq {base : Address} {leaf i steps : Nat} {e : Error}
    (h : chainFromSecret s seeds base leaf i steps = .error e) :
    e = if leaf < seeds.nonces.size then .invalidParameter .chainStep
      else .missingKeyMaterial .leafNonce := by
  split_ifs with hleaf
  · by_cases hsteps : steps ≤ s.oneTime.w - 1
    · rw [chainFromSecret_eq hleaf base i hsteps] at h
      cases h
    · -- past the end of the chain; the nonce is there, so this is the first fault
      have hrefused : ¬ 0 + steps ≤ s.oneTime.w - 1 := by omega
      have hnonce : seeds.nonces.get? leaf = some seeds.nonces.entries[leaf] :=
        Array.getElem?_eq_getElem hleaf
      simp only [chainFromSecret, hnonce, chain, if_neg hrefused, bind, Except.bind] at h
      exact (Except.error.inj h).symm
  · rw [chainFromSecret_error (Nat.le_of_not_lt hleaf)] at h
    exact (Except.error.inj h).symm

theorem eq_of_chainFromSecret_error {base : Address} {leaf i j steps steps' : Nat} {e e' : Error}
    (h : chainFromSecret s seeds base leaf i steps = .error e)
    (h' : chainFromSecret s seeds base leaf j steps' = .error e') : e = e' :=
  (chainFromSecret_error_eq h).trans (chainFromSecret_error_eq h').symm

/-- Every chain of a signature can be finished. -/
theorem exists_finishChain_eq (publicSeed : Bytes) (base : Address) (i digit : Nat) {x : Bytes}
    (hx : x.length = s.n) : ∃ y, finishChain s publicSeed base i digit x = .ok y := by
  by_cases hdigit : digit + (s.oneTime.w - 1 - digit) ≤ s.oneTime.w - 1
  · obtain ⟨a, hchain⟩ := chain_eq publicSeed digit (s.oneTime.w - 1 - digit) hx hdigit
      (base.setChain (UInt32.ofNat i))
    simp only [finishChain, hchain, bind, Except.bind]
    exact ⟨_, rfl⟩
  · simp only [finishChain, chain, if_neg hdigit, bind, Except.bind]
    exact ⟨x, rfl⟩

/-! ### Orders -/

/-- Chains from the secret seed may be computed in any order. -/
theorem mapPiecesIn_chainFromSecret (horder : order.Perm (List.range s.oneTime.chains))
    (seeds : Seeds) (base : Address) (leaf : Nat) (steps : Nat → Nat) :
    Schedule.mapPiecesIn order s.oneTime.n
        (fun i _ => chainFromSecret s seeds base leaf i (steps i))
        (Bytes.zeros s.oneTime.signatureBytes)
      = Schedule.mapPieces s.oneTime.n
        (fun i _ => chainFromSecret s seeds base leaf i (steps i))
        (Bytes.zeros s.oneTime.signatureBytes) :=
  Schedule.mapPiecesIn_eq_mapPieces s.n_pos (length_zeros_signatureBytes s) horder
    fun _ _ _ _ _ _ => eq_of_chainFromSecret_error

/-- The chains of a signature may be finished in any order. -/
theorem mapPiecesIn_finishChain (horder : order.Perm (List.range s.oneTime.chains))
    (publicSeed : Bytes) (base : Address) (digits : Nat → Nat) {signature : Bytes}
    (hlen : signature.length = s.oneTime.signatureBytes) :
    Schedule.mapPiecesIn order s.oneTime.n
        (fun i x => finishChain s publicSeed base i (digits i) x) signature
      = Schedule.mapPieces s.oneTime.n
        (fun i x => finishChain s publicSeed base i (digits i) x) signature := by
  have hsize : signature.length = s.oneTime.chains * s.n := hlen
  refine Schedule.mapPiecesIn_eq_mapPieces s.n_pos hsize horder fun i hi _ _ e _ he => ?_
  obtain ⟨y, hy⟩ := exists_finishChain_eq publicSeed base i (digits i)
    (Bytes.length_getD_pieces hsize hi)
  cases hy.symm.trans he

/-- **A public key** does not depend on the order of its chains, and neither does the error if there
is none. -/
theorem publicKeyIn_eq (horder : order.Perm (List.range s.oneTime.chains)) (seeds : Seeds)
    (layer tree leaf : Nat) :
    publicKeyIn order s seeds layer tree leaf = publicKey s seeds layer tree leaf := by
  have hpieces := mapPiecesIn_chainFromSecret horder seeds (.oneTime layer tree leaf) leaf
    fun _ => s.oneTime.w - 1
  simp only [publicKeyIn, publicKey, hpieces]

/-- **A signature** does not depend on the order of its chains, and neither does the error if there
is none. -/
theorem signIn_eq (horder : order.Perm (List.range s.oneTime.chains)) (seeds : Seeds)
    (layer tree leaf : Nat) (message : Bytes) :
    signIn order s seeds layer tree leaf message = sign s seeds layer tree leaf message := by
  have hpieces := mapPiecesIn_chainFromSecret horder seeds (.oneTime layer tree leaf) leaf
    fun i => (s.oneTime.digits message).toArray.getD i 0
  simp only [signIn, sign, hpieces]

/-- **Recovery** does not depend on the order in which the chains are finished. -/
theorem recoverIn_eq (horder : order.Perm (List.range s.oneTime.chains))
    (signature message publicSeed : Bytes) (layer tree leaf : Nat) :
    recoverIn order s signature message publicSeed layer tree leaf
      = recover s signature message publicSeed layer tree leaf := by
  unfold recoverIn recover
  refine ite_congr rfl (fun hsizes => ?_) fun _ => rfl
  exact congrArg (Except.map some) (mapPiecesIn_finishChain horder publicSeed
    (.oneTime layer tree leaf) (fun i => (s.oneTime.digits message).toArray.getD i 0) hsizes.1)

end OneTime

end Hypertree
