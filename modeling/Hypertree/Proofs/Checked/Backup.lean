import Hypertree.Proofs.Checked.Signature
import Hypertree.Proofs.Key.Backup

/-!
# Reading text backups, checked

Of a text backup, lines, fields and digits are read by operations that have a result for every text.
Partial are only the operations on parameters: the checks of the header, and the numbers of
signatures and leaves, which are powers of the heights in it. `LineReader` reads lines and may use
them; `total` is a reader of the library that uses none.

`FollowsLines g d` says that a line reader has the outcome of a reader of the library on all lines,
and `unbreached_backup` that text backups are read without a breach.
-/

namespace Hypertree.Checked

/-- A reader of the lines of a body. -/
abbrev LineReader := StateT (List Text) (Except Stop)

/-- A reader that uses no partial operation. -/
def total {α : Type} (d : Backup.Reader α) : LineReader α := fun lines =>
  (d.run lines).mapError .refusal

/-- The header and the checks on it. -/
def readHeader : LineReader Header := do
  let height ← total (Backup.number .height (2 ^ (32 : Nat)))
  let layers ← total (Backup.number .layers (2 ^ (32 : Nat)))
  let nonceExponent ← total (Backup.number .nonceExponentLine (2 ^ (32 : Nat)))
  let name ← total (Backup.value .hashLine)
  let digest ← total (Digest.ofName (String.ofList name))
  let backupName ← total (Backup.value .backupHashLine)
  let backupDigest ←
    if backupName = Backup.absent then pure none
    else total ((Digest.ofName (String.ofList backupName)).map some)
  let header : Header := ⟨digest, backupDigest, height, layers, nonceExponent⟩
  validate { toHeader := header }
  return header

/-- The lines of a body. -/
def readBody : LineReader PrivateKey := do
  total Backup.readVersion
  let header ← readHeader
  let index ← total (Backup.number .index (2 ^ (64 : Nat)))
  let max ← maxSignatures header
  if max < index then
    throw (.refusal (.encoding .indexBeyondLast))
  let publicSeed ← total (Backup.hexBytes .publicSeedLine header.n)
  let secretSeed ← total (Backup.hexBytes .secretSeedLine header.n)
  let secretPrf ← total (Backup.hexBytes .secretPrfLine header.n)
  let root ← total (Backup.hexBytes .root header.n)
  let backupRoot ← total (Backup.optionalHexBytes .backupRootLine header.n)
  if backupRoot.isSome != header.backupDigest.isSome then
    throw (.refusal (.encoding (.field .backupRootLine)))
  let count ← total (Backup.number .noncesLine (2 ^ (64 : Nat)))
  let leaves ← leavesPerTree header
  if count ≠ leaves then
    throw (.refusal (.encoding .nonceCountMismatch))
  let nonces ← total (Backup.nonceLines count)
  return { header, index, publicSeed, secretSeed, secretPrf, root, backupRoot
           nonces := ⟨nonces.toArray⟩, caches := .empty }

/-- The private key of a text backup; its node caches are empty. -/
def backup (suite : Suite) (text : Text) : Except Stop PrivateKey := do
  let (body, checksumLine) ← Backup.withoutArmour (Backup.significantLines text)
  let expected ← Backup.checksumOfLine checksumLine
  unless Backup.checksum suite body = expected do
    refuse .checksumMismatch
  let (key, rest) ← readBody.run body
  unless rest.isEmpty do
    refuse (.encoding .lineAfterNonces)
  return key

/-! ### Readers without partial operations -/

/-- A reader of the library tells of no broken call. -/
def Harmless {α : Type} (d : Backup.Reader α) : Prop :=
  ∀ lines, d.run lines ≠ .error .unequalOperands

namespace Harmless

variable {α β : Type}

theorem pure (v : α) : Harmless (pure v) :=
  fun _ => nofun

theorem lift {y : Except Error α} (h : y ≠ .error .unequalOperands) : Harmless (liftM y) := by
  intro lines
  cases y with
  | ok v => nofun
  | error e =>
    rintro ⟨⟩
    exact h rfl

theorem bind {d : Backup.Reader α} {k : α → Backup.Reader β} (h : Harmless d)
    (hk : ∀ v, Harmless (k v)) : Harmless (d >>= k) := by
  intro lines
  rw [StateT.run_bind]
  have hd := h lines
  cases hrun : d.run lines with
  | ok p => exact hk p.1 p.2
  | error e =>
    rintro ⟨⟩
    exact hd hrun

end Harmless

section

variable (field : Field) (n : Nat) (text : Text)

theorem harmless_nextLine : Harmless (Backup.nextLine field)
  | [] => nofun
  | _ :: _ => nofun

theorem fieldValue_ne : Backup.fieldValue field text ≠ .error .unequalOperands := by
  unfold Backup.fieldValue
  split
  · split_ifs <;> nofun
  · nofun

theorem decimalValue_ne : Backup.decimalValue field n text ≠ .error .unequalOperands := by
  unfold Backup.decimalValue
  split <;> nofun

theorem hexValue_ne : Backup.hexValue field n text ≠ .error .unequalOperands := by
  unfold Backup.hexValue
  split_ifs
  · nofun
  · nofun
  · split <;> nofun

theorem noncePart_ne : Backup.noncePart text ≠ .error .unequalOperands := by
  unfold Backup.noncePart
  split_ifs
  · nofun
  · split <;> nofun

theorem harmless_value : Harmless (Backup.value field) :=
  (harmless_nextLine field).bind fun line => .lift (fieldValue_ne field line)

theorem harmless_number : Harmless (Backup.number field n) :=
  (harmless_value field).bind fun text => .lift (decimalValue_ne field n text)

theorem harmless_hexBytes : Harmless (Backup.hexBytes field n) :=
  (harmless_value field).bind fun text => .lift (hexValue_ne field n text)

theorem harmless_optionalHexBytes : Harmless (Backup.optionalHexBytes field n) := by
  refine (harmless_value field).bind fun text => ?_
  split_ifs
  · exact .pure none
  · exact (Harmless.lift (hexValue_ne field n text)).bind fun bytes => .pure (some bytes)

theorem nonceOfLine_ne : Backup.nonceOfLine text ≠ .error .unequalOperands := by
  unfold Backup.nonceOfLine
  split
  · nofun
  next first second _ =>
    exact bind_ne (noncePart_ne first) fun _ => bind_ne (noncePart_ne second) fun _ => nofun

theorem harmless_nonceLines (count : Nat) : Harmless (Backup.nonceLines count) := by
  induction count with
  | zero => exact .pure []
  | succ count ih =>
    exact (harmless_nextLine .nonceEntry).bind fun line =>
      (Harmless.lift (nonceOfLine_ne line)).bind fun nonce => ih.bind fun rest =>
        .pure (nonce :: rest)

theorem harmless_readVersion : Harmless Backup.readVersion := by
  refine (harmless_value .version).bind fun text => ?_
  split
  · exact .lift nofun
  next major minor _ =>
    exact (Harmless.lift (decimalValue_ne .version 256 major)).bind fun major =>
      (Harmless.lift (decimalValue_ne .version 256 minor)).bind fun minor =>
        .lift (checkVersion_ne major minor)

theorem ofName_ne (name : String) : Digest.ofName name ≠ .error .unequalOperands := by
  unfold Digest.ofName
  split <;> nofun

end

/-! ### Line readers with partial operations -/

/-- A line reader has the outcome of a reader of the library on all lines. -/
def FollowsLines {α : Type} (g : LineReader α) (d : Backup.Reader α) : Prop :=
  ∀ lines, Unbreached (g.run lines) (d.run lines)

namespace FollowsLines

variable {α β : Type}

theorem pure (v : α) : FollowsLines (pure v) (pure v) :=
  fun lines => .ok (v, lines)

theorem total {d : Backup.Reader α} (h : Harmless d) : FollowsLines (total d) d :=
  fun lines => ⟨rfl, h lines⟩

theorem bind {g : LineReader α} {d : Backup.Reader α} {f : α → LineReader β}
    {k : α → Backup.Reader β} (h : FollowsLines g d)
    (hf : ∀ v, Yields d v → FollowsLines (f v) (k v)) : FollowsLines (g >>= f) (d >>= k) := by
  intro lines
  rw [StateT.run_bind, StateT.run_bind]
  refine (h lines).bind fun p hp => ?_
  exact hf p.1 ⟨lines, p.2, hp⟩ p.2

theorem lift {x : Except Stop α} {y : Except Error α} (h : Unbreached x y) :
    FollowsLines (liftM x) (liftM y) := by
  intro lines
  exact h.bind fun v _ => .ok (v, lines)

/-- A partial operation within its domain. -/
theorem value {x : Except Breach α} {v : α} (hx : x = .ok v) {f : α → LineReader β}
    {d : Backup.Reader β} (hf : FollowsLines (f v) d) : FollowsLines (liftM x >>= f) d := by
  subst hx
  exact hf

/-- A check that stands before the rest. -/
theorem guard {p : Prop} [Decidable p] {e : EncodingFault} {k : PUnit → LineReader β}
    {k' : PUnit → Backup.Reader β} (h : ¬ p → FollowsLines (k ⟨⟩) (k' ⟨⟩)) :
    FollowsLines (if p then throw (.refusal (.encoding e)) >>= k else k ⟨⟩)
      (if p then throw (.encoding e) >>= k' else k' ⟨⟩) := by
  by_cases hp : p
  · rw [if_pos hp, if_pos hp]
    exact fun lines => ⟨rfl, nofun⟩
  · rw [if_neg hp, if_neg hp]
    exact h hp

theorem ite {p : Prop} [Decidable p] {g g' : LineReader α} {d d' : Backup.Reader α}
    (h : p → FollowsLines g d) (h' : ¬ p → FollowsLines g' d') :
    FollowsLines (if p then g else g') (if p then d else d') := by
  by_cases hp : p
  · rw [if_pos hp, if_pos hp]
    exact h hp
  · rw [if_neg hp, if_neg hp]
    exact h' hp

end FollowsLines

theorem followsLines_validated (header : Header) :
    FollowsLines (do validate { toHeader := header }; return header)
      (do ({ toHeader := header } : Params).validate; return header) :=
  (FollowsLines.lift (unbreached_validate _)).bind fun _ _ => .pure header

theorem followsLines_readHeader : FollowsLines readHeader Backup.readHeader := by
  unfold readHeader Backup.readHeader
  refine (FollowsLines.total (harmless_number _ _)).bind fun height _ => ?_
  refine (FollowsLines.total (harmless_number _ _)).bind fun layers _ => ?_
  refine (FollowsLines.total (harmless_number _ _)).bind fun nonceExponent _ => ?_
  refine (FollowsLines.total (harmless_value _)).bind fun name _ => ?_
  refine (FollowsLines.total (.lift (ofName_ne _))).bind fun digest _ => ?_
  refine (FollowsLines.total (harmless_value _)).bind fun backupName _ => ?_
  refine FollowsLines.ite (fun _ => ?_) fun _ => ?_
  · exact (FollowsLines.pure none).bind fun backupDigest _ => followsLines_validated _
  · exact (FollowsLines.total (.lift (map_ne (ofName_ne _) some))).bind fun backupDigest _ =>
      followsLines_validated _

/-- **The lines of a body are read as they are without checks.** -/
theorem followsLines_readBody : FollowsLines readBody Backup.readBody := by
  unfold readBody Backup.readBody
  refine (FollowsLines.total harmless_readVersion).bind fun _ _ => ?_
  refine followsLines_readHeader.bind fun header hheader => ?_
  -- from here on the header is valid
  obtain ⟨input, rest, hrun⟩ := hheader
  have hv : header.Valid := Backup.valid_of_readHeader_run hrun
  refine (FollowsLines.total (harmless_number _ _)).bind fun index _ => ?_
  refine FollowsLines.value (maxSignatures_eq hv) (FollowsLines.guard fun _ => ?_)
  refine (FollowsLines.total (harmless_hexBytes _ _)).bind fun publicSeed _ => ?_
  refine (FollowsLines.total (harmless_hexBytes _ _)).bind fun secretSeed _ => ?_
  refine (FollowsLines.total (harmless_hexBytes _ _)).bind fun secretPrf _ => ?_
  refine (FollowsLines.total (harmless_hexBytes _ _)).bind fun root _ => ?_
  refine (FollowsLines.total (harmless_optionalHexBytes _ _)).bind fun backupRoot _ => ?_
  refine FollowsLines.guard fun _ => ?_
  refine (FollowsLines.total (harmless_number _ _)).bind fun count _ => ?_
  refine FollowsLines.value (leavesPerTree_eq hv) (FollowsLines.guard fun _ => ?_)
  refine (FollowsLines.total (harmless_nonceLines count)).bind fun nonces _ => ?_
  exact FollowsLines.pure _

/-! ### Whole texts -/

theorem withoutArmour_ne (lines : List Text) :
    Backup.withoutArmour lines ≠ .error .unequalOperands := by
  unfold Backup.withoutArmour
  split
  · nofun
  · split
    · nofun
    · split_ifs
      · split <;> nofun
      · nofun

theorem checksumOfLine_ne (line : Text) :
    Backup.checksumOfLine line ≠ .error .unequalOperands := by
  unfold Backup.checksumOfLine
  dsimp only
  split_ifs
  · exact hexValue_ne _ _ _
  · nofun

/-- **Text backups are read without a breach.** -/
theorem unbreached_backup (suite : Suite) (text : Text) :
    Unbreached (backup suite text) (Backup.read suite text) := by
  unfold backup Backup.read
  refine (Unbreached.of_ne (withoutArmour_ne _)).bind fun parts _ => ?_
  refine (Unbreached.of_ne (checksumOfLine_ne _)).bind fun expected _ => ?_
  refine Unbreached.guard nofun fun _ => ?_
  refine (followsLines_readBody parts.1).bind fun out _ => ?_
  exact Unbreached.guard nofun fun _ => .ok out.1

/-! ### All readers -/

/-- **Reading is safe and bounded on every input.** Whatever the bytes or the text, each reader ends
with the value or the error that the library has for it, and no operation was used outside its
domain on the way. Of a private key no more tree caches and nodes are read, and of a signature no
more layers, than the input has bytes, whatever the counts in it say. -/
theorem reading_safe (suite : Suite) {p : Params} (hp : p.validate = .ok ()) :
    (∀ bytes : Bytes, Unbreached (privateKey bytes).1 (PrivateKey.ofBytes bytes) ∧
      (privateKey bytes).2.entries ≤ bytes.length) ∧
    (∀ (bytes : Bytes) (digest : Digest),
      Unbreached (publicKey bytes digest) (PublicKey.ofBytes bytes digest)) ∧
    (∀ bytes : Bytes,
      Unbreached (signature bytes p.n p.treeHeight).1 (Signature.ofBytes bytes p.n p.treeHeight) ∧
        (signature bytes p.n p.treeHeight).2.entries ≤ bytes.length) ∧
    ∀ text : Text, Unbreached (backup suite text) (Backup.read suite text) := by
  have hv : p.toHeader.Valid := ((Params.validate_eq_ok_iff p).mp hp).1
  exact ⟨unbreached_privateKey, unbreached_publicKey, unbreached_signature hv,
    unbreached_backup suite⟩

/-- The beginning of a private key that declares `2 ^ 64 - 1` tree caches with as many nodes each,
and holds one node. -/
def endlessKey : Bytes :=
  let endless : Bytes := List.replicate 9 0xff ++ [1]
  [1, 0, 0, 2, 1, 4, 1, 0, 0] ++ Bytes.zeros 32 ++ (32 :: Bytes.zeros 32) ++
    (32 :: Bytes.zeros 32) ++ Bytes.zeros 64 ++ endless ++ ([0, 0] ++ endless) ++
    ([0, 3] ++ Bytes.zeros 32)

/-- A signature that declares 255 layers and holds the beginning of one. -/
def endlessSignature : Bytes :=
  [0, 1, 0] ++ Bytes.zeros 32 ++ [255, 0, 0]

theorem reading_safe_endless :
    Params.validate { height := 2 } = .ok () ∧
    Unbreached (privateKey endlessKey).1 (PrivateKey.ofBytes endlessKey) ∧
    (privateKey endlessKey).2.entries = 2 ∧
    (privateKey endlessKey).2.entries ≤ endlessKey.length ∧
    Unbreached (signature endlessSignature 32 2).1 (Signature.ofBytes endlessSignature 32 2) ∧
    (signature endlessSignature 32 2).2.entries = 1 ∧
    (signature endlessSignature 32 2).2.entries ≤ endlessSignature.length := by
  have hp : Params.validate { height := 2 } = .ok () := rfl
  obtain ⟨hkey, -, hsignature, -⟩ := reading_safe .standard hp
  exact ⟨hp, (hkey endlessKey).1, by decide +kernel, (hkey endlessKey).2,
    (hsignature endlessSignature).1, by decide +kernel, (hsignature endlessSignature).2⟩

end Hypertree.Checked
