import Hypertree.Proofs.Command.Scheme
import Hypertree.Proofs.Key.Codec

/-!
# Which parameters a key overrides

For a command that uses a private key, the header comes from the key, and the chain length, the
cache policy and the workers from the options, else the file, else the defaults
(`forKey_eq_ok_iff`). But the parameters are checked once before the header of the key takes the
place of theirs. So options and file have to make up a valid header too, of which nothing is used: a
command that names no more than the number of layers that its key has is refused if the default
height cannot be divided by it (`layers_of_key_refused`). `forKey_overrides` says when the header of
the key decides alone.
-/

namespace Hypertree

namespace Params

/-- The chain length and the cache policy are supported. Neither depends on a header. -/
def Settled (p : Params) : Prop :=
  (p.winternitz = 4 ∨ p.winternitz = 16 ∨ p.winternitz = 256) ∧
    ∀ levels, p.cache = .auto levels → levels ≤ 20

/-- The checks on what a header leaves open. -/
def checkSettings (p : Params) : Except Error Unit := do
  unless p.winternitz = 4 ∨ p.winternitz = 16 ∨ p.winternitz = 256 do
    throw (.invalidParameter .winternitz)
  match p.cache with
  | .auto levels => unless levels ≤ maxTreeHeight do throw (.invalidParameter .cacheLevels)
  | .full | .disabled => pure ()

/-- Under a valid header, no other checks can fail. -/
theorem validate_eq_checkSettings {p : Params} (h : p.toHeader.Valid) :
    p.validate = p.checkSettings := by
  have hbackup := backup_guard_iff.mpr fun d hd => ⟨h.backup_ne d hd, h.backup_size d hd⟩
  -- the checks of the header pass, so those of the settings are what is left
  unfold validate checkSettings
  rw [if_pos ⟨h.two_le_height, h.height_le⟩, if_pos ⟨h.layers_pos, h.layers_le⟩,
    if_pos h.height_mod, if_pos ⟨h.treeHeight_pos, h.treeHeight_le⟩]
  by_cases hw : p.winternitz = 4 ∨ p.winternitz = 16 ∨ p.winternitz = 256
  · rw [if_pos hw, if_pos hw]
    cases hcache : p.cache with
    | auto levels =>
      by_cases hlevels : levels ≤ maxTreeHeight
      · exact ((if_pos hlevels).trans ((if_pos h.nonceExponent_le).trans hbackup)).trans
          (if_pos hlevels).symm
      · exact (if_neg hlevels).trans (if_neg hlevels).symm
    | full => exact (if_pos h.nonceExponent_le).trans hbackup
    | disabled => exact (if_pos h.nonceExponent_le).trans hbackup
  · rw [if_neg hw, if_neg hw]
    rfl

end Params

namespace Command.SchemeOptions

/-- Two sets of options that differ at most in height, layers, digests and nonce exponent. -/
structure AgreeBesidesHeader (o o' : SchemeOptions) : Prop where
  parameterFile : o.parameterFile = o'.parameterFile
  winternitz : o.winternitz = o'.winternitz
  workers : o.workers = o'.workers
  cache : o.cache = o'.cache
  cacheLevels : o.cacheLevels = o'.cacheLevels

/-- The outcome that a key's header leads to when it overrides everything: the parameters with that
header, unless the rest of them is not supported. -/
def HeaderDecides (p : Params) (header : Header) (outcome : Except Failure Params) : Prop :=
  outcome = .ok { p with toHeader := header } ∨ (¬ p.Settled ∧ ∃ e, outcome = .error e)

section

variable {source : Source} {o o' : SchemeOptions} {p q : Params} {key : PrivateKey}

/-- Where the parameter file can be read, the parameters are checked twice, with their own header
and with that of the key. -/
theorem forKey_of_base (hbase : o.base source = .ok p) :
    o.forKey source key = (do
      let q ← checked .invalidParameters (o.override p)
      checked .invalidHeader { q with toHeader := key.header }) := by
  rw [forKey, resolve, hbase]
  rfl

/-- **The parameters for a key**: its header, and the rest of the options, else the file, else the
defaults. -/
theorem forKey_eq_ok_iff (hbase : o.base source = .ok p) (hkey : key.header.Valid) :
    o.forKey source key = .ok q ↔
      ((o.override p).toHeader.Valid ∧ (o.override p).Settled) ∧
        q = { o.override p with toHeader := key.header } := by
  rw [forKey_of_base hbase, bind_eq_ok_iff]
  constructor
  · rintro ⟨merged, hmerged, hq⟩
    obtain ⟨hvalid, rfl⟩ := checked_eq_ok_iff.mp hmerged
    exact ⟨(Params.validate_eq_ok_iff _).mp hvalid, (checked_eq_ok_iff.mp hq).2.symm⟩
  · rintro ⟨hvalid, rfl⟩
    refine ⟨_, checked_eq_ok_iff.mpr ⟨(Params.validate_eq_ok_iff _).mpr hvalid, rfl⟩, ?_⟩
    exact checked_eq_ok_iff.mpr ⟨(Params.validate_eq_ok_iff _).mpr ⟨hkey, hvalid.2⟩, rfl⟩

/-- The header of the key decides if that of options and file is valid, or if the rest of them is
not supported anyway. -/
theorem headerDecides_iff (hbase : o.base source = .ok p) (hkey : key.header.Valid) :
    HeaderDecides (o.override p) key.header (o.forKey source key) ↔
      ((o.override p).Settled → (o.override p).toHeader.Valid) := by
  unfold HeaderDecides
  rw [forKey_eq_ok_iff hbase hkey]
  constructor
  · rintro (⟨⟨hvalid, -⟩, -⟩ | ⟨hsettled, -⟩) hs
    · exact hvalid
    · exact absurd hs hsettled
  · intro h
    -- settings that are refused are refused with every header
    by_cases hs : (o.override p).Settled
    · exact Or.inl ⟨⟨h hs, hs⟩, rfl⟩
    · refine Or.inr ⟨hs, ?_⟩
      cases houtcome : o.forKey source key with
      | error e => exact ⟨e, rfl⟩
      | ok q => exact absurd ((forKey_eq_ok_iff hbase hkey).mp houtcome).1.2 hs

/-- Under a valid header of options and file, only the checks on the rest can fail. -/
theorem forKey_of_valid (hbase : o.base source = .ok p) (hkey : key.header.Valid)
    (hvalid : (o.override p).toHeader.Valid) :
    o.forKey source key =
      ((o.override p).checkSettings.mapError .invalidParameters).map
        fun _ => { o.override p with toHeader := key.header } := by
  have hmerged := Params.validate_eq_checkSettings hvalid
  cases hcheck : (o.override p).checkSettings with
  | error e =>
    rw [forKey_of_base hbase, checked, hmerged, hcheck]
    rfl
  | ok =>
    rw [hcheck] at hmerged
    exact (forKey_eq_ok_iff hbase hkey).mpr
      ⟨(Params.validate_eq_ok_iff _).mp hmerged, rfl⟩

theorem AgreeBesidesHeader.base_eq (h : AgreeBesidesHeader o o') :
    o.base source = o'.base source := by
  unfold base
  rw [h.parameterFile]

/-- Under one header, the parameters are the same. -/
theorem AgreeBesidesHeader.override_eq (h : AgreeBesidesHeader o o') (header : Header) :
    ({ o.override p with toHeader := header } : Params)
      = { o'.override p with toHeader := header } := by
  have hpolicy : o.cachePolicy = o'.cachePolicy := by
    unfold cachePolicy
    rw [h.cache, h.cacheLevels]
  unfold override
  rw [h.winternitz, h.workers, hpolicy]

/-- **Options that describe a header make no difference** between headers that are valid. -/
theorem AgreeBesidesHeader.forKey_eq (h : AgreeBesidesHeader o o')
    (hbase : o.base source = .ok p) (hkey : key.header.Valid)
    (hvalid : (o.override p).toHeader.Valid) (hvalid' : (o'.override p).toHeader.Valid) :
    o.forKey source key = o'.forKey source key := by
  have hbase' : o'.base source = .ok p := h.base_eq.symm.trans hbase
  have hcheck : (o.override p).checkSettings = (o'.override p).checkSettings :=
    (congrArg Params.checkSettings (h.override_eq (p := p) {}) :)
  rw [forKey_of_valid hbase hkey hvalid, forKey_of_valid hbase' hkey hvalid', hcheck,
    h.override_eq]

/-- **When the header of a key overrides options and file.** The parameters for a key that decodes,
where there are any, have its header, and chain length, cache policy and workers of the options,
else the file, else the defaults. There are some exactly if options and file have made up a valid
header as well; with such headers, the options that describe them make no difference. -/
theorem forKey_overrides {bytes : Bytes} (hkey : PrivateKey.ofBytes bytes = .ok key)
    (hbase : o.base source = .ok p) :
    (∀ q, o.forKey source key = .ok q → q.toHeader = key.header ∧
      q.winternitz = o.winternitz.getD p.winternitz ∧ q.cache = o.cachePolicy.getD p.cache ∧
      q.workers = o.workers.getD p.workers) ∧
    ((∃ q, o.forKey source key = .ok q) ↔
      (o.override p).toHeader.Valid ∧ (o.override p).Settled) ∧
    (HeaderDecides (o.override p) key.header (o.forKey source key) ↔
      ((o.override p).Settled → (o.override p).toHeader.Valid)) ∧
    ∀ o', AgreeBesidesHeader o o' → (o.override p).toHeader.Valid →
      (o'.override p).toHeader.Valid → o.forKey source key = o'.forKey source key := by
  have hheader := (PrivateKey.wellFormed_of_ofBytes hkey).header
  refine ⟨?_, ?_, headerDecides_iff hbase hheader, ?_⟩
  · intro q hq
    obtain ⟨-, rfl⟩ := (forKey_eq_ok_iff hbase hheader).mp hq
    exact ⟨rfl, rfl, rfl, rfl⟩
  · constructor
    · rintro ⟨q, hq⟩
      exact ((forKey_eq_ok_iff hbase hheader).mp hq).1
    · exact fun h => ⟨_, (forKey_eq_ok_iff hbase hheader).mpr ⟨h, rfl⟩⟩
  · exact fun o' h hvalid hvalid' => h.forKey_eq hbase hheader hvalid hvalid'

end

/-- A key of three layers with one-level trees. -/
def threeLayerKey : PrivateKey where
  header := { height := 3, layers := 3 }
  index := 0
  publicSeed := Bytes.zeros 32
  secretSeed := Bytes.zeros 32
  secretPrf := Bytes.zeros 32
  root := Bytes.zeros 32
  backupRoot := none
  nonces := ⟨#[⟨1, 2⟩, ⟨3, 4⟩]⟩
  caches := .empty

theorem ofBytes_threeLayerKey :
    PrivateKey.ofBytes threeLayerKey.toBytes = .ok threeLayerKey :=
  PrivateKey.ofBytes_toBytes {
    header := Header.valid_iff_validate.mpr rfl
    index_le := by decide
    publicSeed := rfl
    secretSeed := rfl
    secretPrf := rfl
    root := rfl
    backupRoot := fun root hroot => nomatch hroot
    backup_isSome := rfl
    nonces := rfl
    caches := Caches.all_empty }

/-- A header of six levels in two layers, given where no header is used. -/
theorem forKey_overrides_threeLayers :
    PrivateKey.ofBytes threeLayerKey.toBytes = .ok threeLayerKey ∧
    base (fun _ => none) { height := some 6, layers := some 2, winternitz := some 4 } = .ok {} ∧
    (∃ q, forKey (fun _ => none) { height := some 6, layers := some 2, winternitz := some 4 }
        threeLayerKey = .ok q ∧ q.toHeader = threeLayerKey.header ∧ q.winternitz = 4) ∧
    forKey (fun _ => none) { height := some 6, layers := some 2, winternitz := some 4 }
        threeLayerKey = forKey (fun _ => none) { winternitz := some 4 } threeLayerKey := by
  have hbase : base (fun _ => none) { height := some 6, layers := some 2, winternitz := some 4 }
      = .ok {} := rfl
  obtain ⟨hvalue, hexists, -, hcongr⟩ := forKey_overrides ofBytes_threeLayerKey hbase
  have hvalid : (override { height := some 6, layers := some 2, winternitz := some 4 }
      {}).toHeader.Valid := Header.valid_iff_validate.mpr rfl
  obtain ⟨q, hq⟩ := hexists.mpr ⟨hvalid, Or.inl rfl, fun _ h => by cases h; decide⟩
  obtain ⟨hheader, hwinternitz, -⟩ := hvalue q hq
  exact ⟨ofBytes_threeLayerKey, hbase, ⟨q, hq, hheader, hwinternitz⟩,
    hcongr { winternitz := some 4 } ⟨rfl, rfl, rfl, rfl, rfl⟩ hvalid
      (Header.valid_iff_validate.mpr rfl)⟩

/-- The number of layers that the key has is refused, as the default height cannot be divided by
it. Without it the key can be used. -/
theorem layers_of_key_refused :
    PrivateKey.ofBytes threeLayerKey.toBytes = .ok threeLayerKey ∧
    base (fun _ => none) { layers := some 3 } = .ok {} ∧
    (override { layers := some 3 } {}).Settled ∧
    AgreeBesidesHeader { layers := some 3 } {} ∧
    forKey (fun _ => none) { layers := some 3 } threeLayerKey
      = .error (.invalidParameters (.invalidParameter .heightNotDivisible)) ∧
    forKey (fun _ => none) {} threeLayerKey = .ok { toHeader := threeLayerKey.header } ∧
    ¬ HeaderDecides (override { layers := some 3 } {}) threeLayerKey.header
      (forKey (fun _ => none) { layers := some 3 } threeLayerKey) := by
  have hsettled : (override { layers := some 3 } {}).Settled :=
    ⟨Or.inr (Or.inl rfl), fun _ h => by cases h; decide⟩
  refine ⟨ofBytes_threeLayerKey, rfl, hsettled, ⟨rfl, rfl, rfl, rfl, rfl⟩, rfl, rfl, ?_⟩
  rintro (h | ⟨h, -⟩)
  · cases h
  · exact h hsettled

end Command.SchemeOptions

end Hypertree
