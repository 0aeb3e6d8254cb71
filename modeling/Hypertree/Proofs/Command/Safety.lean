import Hypertree.Command.Request
import Hypertree.Proofs.Command.KeyFile
import Hypertree.Proofs.Command.Scheme
import Hypertree.Proofs.Engine.Outcome

/-!
# Plans that may be cut off anywhere

A run of a request may end before its plan does, after any effect or in the midst of one.
`Plan.Safe` says of a plan that its order makes this harmless:

* the key file changes only when a temporary file takes its place that holds a key with the same
  index or a later one;
* a signature is made only with an index that no earlier one has and that lies below the index in
  the key file by then;
* what is written to the output of a signing request is a signature that it made.

Each part of a plan has its lemma (`Plan.safe_write`, `Plan.safe_replaceKey`), and all requests for
work on a key file have safe plans (`Request.WorksOn.plan_safe`), with any options: those of another
key cost an index but do no harm.
-/

namespace Hypertree.Command

/-! ### Requests for work on a key file -/

/-- What a signing request gives out: the content of its output file, and its text form. -/
structure Output where
  format : Format
  content : Bytes
  deriving DecidableEq, Repr

/-- The output is a text form of a signature. -/
def Output.Holds (output : Output) (signature : Signature) : Prop :=
  output.content = Text.utf8 (Format.encode signature.toBytes output.format .signature)

namespace Request

/-- What an effect of a request gives out. -/
def output? : Request → Effect → Option Output
  | .sign _ _ output format _, .write path content =>
    if path = output then some ⟨format, content⟩ else none
  | _, _ => none

@[simp]
theorem output?_create (request : Request) (path : String) :
    request.output? (.create path) = none := by
  cases request <;> rfl

@[simp]
theorem output?_rename (request : Request) (source target : String) :
    request.output? (.rename source target) = none := by
  cases request <;> rfl

/-- A request for work on the key file at a path, which it may name by another path. What it gives
out goes neither to the key file nor, if it replaces that, to the temporary file. -/
inductive WorksOn (files : Files) (path : String) : Request → Prop where
  | sign {key input output : String} {format : Format} {scheme : SchemeOptions} :
      files.place? key = files.place? path → files.Apart output key →
      files.Apart output (temporaryPath key) →
      WorksOn files path (.sign key input output format scheme)
  | backup {key output : String} :
      files.place? key = files.place? path → files.Apart output key →
      WorksOn files path (.backup key output)
  | info {key : String} :
      files.place? key = files.place? path → WorksOn files path (.info (some key))
  | evict {key : String} {scheme : SchemeOptions} :
      files.place? key = files.place? path → WorksOn files path (.evict key scheme)

end Request

/-! ### Safe plans -/

namespace Plan

variable {request : Request} {path target keyPath : String} {files : Files}
  {key key' : PrivateKey} {bound : Nat} {held held' out : List Signature} {step : Step}
  {next : Plan}

/-- A plan that may be carried out on files, and cut off anywhere, while the key file at a path
holds `key`, all signatures made have indices below `bound`, and those in `held` are not given
out. -/
def Safe (request : Request) (path : String) :
    Plan → Files → PrivateKey → (bound : Nat) → (held : List Signature) → Prop
  | .finish _, _, _, _, _ => True
  | .change step next, files, key, bound, held =>
    (∀ files', step.effect.Torn files files' → readPrivateKey files'.read? path = .ok key) ∧
    ∀ files', step.effect.apply? files = some files' →
      ∃ key' held' out, readPrivateKey files'.read? path = .ok key' ∧ key.index ≤ key'.index ∧
        held = held' ++ out ∧ List.Forall₂ Output.Holds (request.output? step.effect).toList out ∧
        next.Safe request path files' key' bound held'
  | .sign signing next, files, key, bound, _ =>
    (∀ signature, signing.perform.1 = .ok signature →
      bound ≤ signature.index ∧ signature.index < key.index) ∧
    (next signing.perform).Safe request path files key key.index
      signing.perform.1.toOption.toList

/-- A file apart from the key file may be written. -/
theorem safe_write {content : Bytes} (hwritten : step.effect.written? = some (target, content))
    (hread : readPrivateKey files.read? path = .ok key) (hapart : files.Apart target path)
    (hheld : held = held' ++ out)
    (hout : (files.place? target).isSome →
      List.Forall₂ Output.Holds (request.output? step.effect).toList out)
    (hnext : ∀ files', files.Writes files' target content →
      readPrivateKey files'.read? path = .ok key → next.Safe request path files' key bound held') :
    (change step next).Safe request path files key bound held := by
  have hkeep : ∀ {files' content},
      (files.place? target).isSome ∧ files.Writes files' target content →
      readPrivateKey files'.read? path = .ok key := by
    rintro files' content ⟨hplace, hwrites⟩
    exact (readPrivateKey_congr (hwrites.read?_of_apart hapart hplace)).mpr hread
  constructor
  · -- a torn write leaves a front of the content, but in the place of the target
    intro files' htorn
    obtain ⟨front, hfront⟩ := Effect.writes_of_torn hwritten htorn
    exact hkeep hfront
  · intro files' happly
    have hwrites := Effect.writes_of_apply hwritten happly
    exact ⟨key, held', out, hkeep hwrites, le_rfl, hheld, hout hwrites.1,
      hnext files' hwrites.2 (hkeep hwrites)⟩

/-- **A key file may be replaced** by one with the same index or a later one. -/
theorem safe_replaceKey {failure₁ failure₂ failure₃ : Failure}
    (hread : readPrivateKey files.read? path = .ok key)
    (hplace : files.place? keyPath = files.place? path) (hkey' : key'.WellFormed)
    (hindex : key.index ≤ key'.index)
    (hsilent : ∀ content, (files.place? (temporaryPath keyPath)).isSome →
      request.output? (.write (temporaryPath keyPath) content) = none)
    (hnext : ∀ files' stored, files.SameDirectories files' →
      readPrivateKey files'.read? path = .ok stored → stored.index = key'.index →
      next.Safe request path files' stored bound held) :
    (changes [⟨.create (temporaryPath keyPath), failure₁⟩,
        ⟨.write (temporaryPath keyPath) (keyFileContent key'), failure₂⟩,
        ⟨.rename (temporaryPath keyPath) keyPath, failure₃⟩] next).Safe
      request path files key bound held := by
  have hapart : files.Apart (temporaryPath keyPath) path := by
    intro place htemporary hpath
    exact (Files.place?_temporaryPath (hplace.trans hpath) htemporary).1 rfl
  refine safe_write rfl hread hapart (List.append_nil held).symm ?_ fun files₁ hcreate hread₁ => ?_
  · simp
  have hplaces₁ := hcreate.directories.place?_eq
  refine safe_write rfl hread₁ (hapart.congr hcreate.directories) (List.append_nil held).symm ?_
    fun files₂ hwrite hread₂ => ?_
  · rw [hplaces₁]
    intro htemporary
    simp [hsilent _ htemporary]
  refine ⟨fun _ htorn => (nomatch htorn), fun files₃ hrename => ?_⟩
  -- the temporary file holds the whole key by now
  obtain ⟨hdirectories, hmoved⟩ := Effect.read?_of_replace hwrite hrename
  rw [hplaces₁] at hmoved
  have hread₃ := readPrivateKey_keyFileContent hkey' (hmoved path hplace.symm)
  refine ⟨_, held, [], hread₃, hindex, (List.append_nil held).symm, ?_, ?_⟩
  · simp
  · exact hnext files₃ _ (hcreate.directories.trans hdirectories) hread₃ rfl

/-- A plan that fails before anything else changes nothing. -/
theorem safe_ofExcept {α : Type} {value : Except Failure α} {plan : α → Plan}
    (h : ∀ v, value = .ok v → (plan v).Safe request path files key bound held) :
    (ofExcept value plan).Safe request path files key bound held := by
  cases value with
  | error failure => trivial
  | ok v => exact h v rfl

theorem changes_append (steps steps' : List Step) (next : Plan) :
    changes (steps ++ steps') next = changes steps (changes steps' next) :=
  List.foldr_append

end Plan

/-! ### Plans of requests -/

/-- A signing request is ready once it has read its files: a private key that has an index left,
parameters and a message. It then knows the engine for the key, and the key with the index taken. -/
structure Ready (suite : Suite) (source : Source) (keyPath input : String) (scheme : SchemeOptions)
    (key : PrivateKey) (s : Signing) : Prop where
  read : readPrivateKey source keyPath = .ok key
  engine : ∃ p valid, scheme.resolve source = .ok p ∧
    s.engine = ⟨suite, { p with toHeader := key.header }, valid⟩
  message : source input = some s.message
  reserve : key.reserve = .ok (s.reservation, s.key)

section

variable {suite : Suite} {source : Source} {keyPath input : String} {scheme : SchemeOptions}
  {key : PrivateKey} {s : Signing}

/-- A key is made for the engine that a signing request uses with it. -/
theorem Ready.madeFor (h : Ready suite source keyPath input scheme key s) :
    key.MadeFor s.engine := by
  obtain ⟨p, valid, -, hengine⟩ := h.engine
  rw [hengine]
  exact { wellFormed := wellFormed_of_readPrivateKey h.read, height := rfl, layers := rfl,
          digest := rfl, backupDigest := rfl }

/-- Nothing but the private key, the parameters, the message and the index can be missing. -/
theorem prepareSigning_eq_ok_iff :
    prepareSigning suite source keyPath input scheme = .ok s ↔
      ∃ key, Ready suite source keyPath input scheme key s := by
  constructor
  · intro h
    -- each step that succeeds gives one of the conditions
    obtain ⟨key, hread, h⟩ := bind_eq_ok_iff.mp h
    obtain ⟨q, hforKey, h⟩ := bind_eq_ok_iff.mp h
    obtain ⟨p, hresolve, hchecked⟩ := bind_eq_ok_iff.mp hforKey
    obtain ⟨hvalid, rfl⟩ := SchemeOptions.checked_eq_ok_iff.mp hchecked
    obtain ⟨e, hengine, h⟩ := bind_eq_ok_iff.mp h
    rw [engine_eq hvalid] at hengine
    obtain rfl := Except.ok.inj hengine
    obtain ⟨_, -, h⟩ := bind_eq_ok_iff.mp h
    obtain ⟨message, hmessage, h⟩ := bind_eq_ok_iff.mp h
    obtain ⟨⟨reservation, advanced⟩, hreserve, h⟩ := bind_eq_ok_iff.mp h
    obtain rfl := Except.ok.inj h
    exact ⟨key, hread, ⟨p, hvalid, hresolve, rfl⟩, readBytes_eq_ok_iff.mp hmessage,
      mapError_eq_ok_iff.mp hreserve⟩
  · rintro ⟨key, h⟩
    obtain ⟨e, message, reservation, advanced⟩ := s
    obtain ⟨p, valid, hresolve, rfl⟩ := h.engine
    obtain ⟨-, hforKey⟩ := SchemeOptions.forKey_eq hresolve h.madeFor.wellFormed.header
    refine bind_eq_ok_iff.mpr ⟨key, h.read, ?_⟩
    refine bind_eq_ok_iff.mpr ⟨_, hforKey, ?_⟩
    refine bind_eq_ok_iff.mpr ⟨_, engine_eq valid, ?_⟩
    refine bind_eq_ok_iff.mpr ⟨(), mapError_eq_ok_iff.mpr h.madeFor.checkKey, ?_⟩
    refine bind_eq_ok_iff.mpr ⟨message, readBytes_eq_ok_iff.mpr h.message, ?_⟩
    exact bind_eq_ok_iff.mpr ⟨_, mapError_eq_ok_iff.mpr h.reserve, rfl⟩

/-- A signing request that is ready makes a signature at the next index of the key. -/
theorem Ready.perform_eq (h : Ready suite source keyPath input scheme key s) :
    ∃ signature caches, s.perform = (.ok signature, { key with index := key.index + 1, caches }) ∧
      caches.InRange key.header ∧ signature.index = key.index := by
  obtain ⟨hindex, hreservation, hkey⟩ := PrivateKey.reserve_eq_ok_iff.mp h.reserve
  obtain ⟨hbackup, -⟩ | ⟨-, signature, caches, hout, hrange, hshapes⟩ :=
    Engine.signCommitted_outcome_cases (h.madeFor.advance hindex) (Engine.checkCommitted_next key)
      s.message .primary
  · cases hbackup
  refine ⟨signature, caches, ?_, hrange, hshapes.2.1⟩
  rw [Signing.perform, hkey, hreservation]
  exact hout

/-- A signing request whose files can be read makes a signature, if an index is left. -/
theorem exists_prepareSigning (suite : Suite) {p : Params} {message : Bytes}
    (hread : readPrivateKey source keyPath = .ok key) (hresolve : scheme.resolve source = .ok p)
    (hinput : source input = some message) (hindex : key.index < key.header.maxSignatures) :
    ∃ s signature, prepareSigning suite source keyPath input scheme = .ok s ∧
      s.perform.1 = .ok signature ∧ signature.index = key.index := by
  obtain ⟨hvalid, -⟩ :=
    SchemeOptions.forKey_eq hresolve (wellFormed_of_readPrivateKey hread).header
  have hready : Ready suite source keyPath input scheme key
      ⟨⟨suite, { p with toHeader := key.header }, hvalid⟩, message, ⟨key.index, key.tag⟩,
        { key with index := key.index + 1 }⟩ :=
    ⟨hread, ⟨p, hvalid, hresolve, rfl⟩, hinput,
      PrivateKey.reserve_eq_ok_iff.mpr ⟨hindex, rfl, rfl⟩⟩
  obtain ⟨signature, caches, hperform, -, hsignature⟩ := hready.perform_eq
  exact ⟨_, signature, prepareSigning_eq_ok_iff.mpr ⟨key, hready⟩, congrArg Prod.fst hperform,
    hsignature⟩

end

section

variable {suite : Suite} {files : Files} {path keyPath input output : String} {format : Format}
  {scheme : SchemeOptions} {key : PrivateKey} {bound : Nat}

/-- A key file read by another path to it. -/
theorem readPrivateKey_of_place? (hplace : files.place? keyPath = files.place? path) :
    readPrivateKey files.read? keyPath = .ok key ↔ readPrivateKey files.read? path = .ok key :=
  readPrivateKey_congr (by rw [Files.read?, Files.read?, hplace])

/-- A temporary file is not what a signing request gives out. -/
theorem output?_temporary (h : files.Apart output (temporaryPath keyPath)) (content : Bytes)
    (hsome : (files.place? (temporaryPath keyPath)).isSome) :
    (Request.sign keyPath input output format scheme).output?
      (.write (temporaryPath keyPath) content) = none := by
  obtain ⟨place, hplace⟩ := Option.isSome_iff_exists.mp hsome
  refine if_neg fun heq => ?_
  exact h place (heq ▸ hplace) hplace

/-- The signature that was made may be given out once the key after it is stored. -/
theorem deliver_safe (s : Signing) (outcome : Except Error Signature × PrivateKey)
    (hread : readPrivateKey files.read? path = .ok key)
    (hplace : files.place? keyPath = files.place? path) (hkey : files.Apart output keyPath)
    (htemporary : files.Apart output (temporaryPath keyPath)) (houtcome : outcome.2.WellFormed)
    (hindex : key.index ≤ outcome.2.index) :
    (deliver s keyPath output format outcome).Safe (.sign keyPath input output format scheme) path
      files key bound outcome.1.toOption.toList := by
  obtain ⟨result, key'⟩ := outcome
  cases result with
  | error err => trivial
  | ok signature =>
    rw [deliver]
    split
    · trivial
    · trivial
    · -- the signature is written when the key file is already past its index
      rw [Plan.changes_append]
      refine Plan.safe_replaceKey hread hplace houtcome hindex (output?_temporary htemporary) ?_
      intro files₁ stored hdirectories hstored _
      have hapart : files₁.Apart output path := (hkey.of_place?_eq hplace).congr hdirectories
      refine Plan.safe_write rfl hstored hapart (List.append_nil _).symm (by simp) ?_
      intro files₂ hcreate hread₂
      have hheld : [signature] = [] ++ [signature] := rfl
      refine Plan.safe_write rfl hread₂ (hapart.congr hcreate.directories) hheld ?_
        fun _ _ _ => trivial
      intro _
      rw [Request.output?, if_pos rfl]
      exact List.Forall₂.cons rfl List.Forall₂.nil

theorem signPlan_safe (hread : readPrivateKey files.read? path = .ok key)
    (hplace : files.place? keyPath = files.place? path) (hkey : files.Apart output keyPath)
    (htemporary : files.Apart output (temporaryPath keyPath)) :
    (signPlan suite files.read? keyPath input output format scheme).Safe
      (.sign keyPath input output format scheme) path files key key.index [] := by
  refine Plan.safe_ofExcept fun s hprepare => ?_
  obtain ⟨key', hready⟩ := prepareSigning_eq_ok_iff.mp hprepare
  have hread' := hready.read
  rw [readPrivateKey_of_place? hplace, hread] at hread'
  obtain rfl := Except.ok.inj hread'
  have hadvanced := hready.madeFor.wellFormed.reserve hready.reserve
  obtain ⟨-, hreservation, hnext⟩ := PrivateKey.reserve_eq_ok_iff.mp hready.reserve
  have hindex : s.key.index = key.index + 1 := by rw [hnext]
  have hreserved : s.reservation.index = key.index := by rw [hreservation]
  refine Plan.safe_replaceKey hread hplace hadvanced (by omega) (output?_temporary htemporary) ?_
  intro files₁ stored hdirectories hstored hstoredIndex
  obtain ⟨hkept, hmade⟩ := s.engine.signCommitted_index s.key s.reservation.commit s.message
    .primary
  constructor
  · -- the key file is one ahead of the index by now
    intro signature hsignature
    have heq : signature.index = s.reservation.index := hmade signature hsignature
    omega
  · have hplace₁ : files₁.place? keyPath = files₁.place? path := by
      rw [hdirectories.place?_eq]
      exact hplace
    exact deliver_safe s s.perform hstored hplace₁ (hkey.congr hdirectories)
      (htemporary.congr hdirectories) (hadvanced.signCommitted s.engine _ _ _)
      (hstoredIndex.trans hkept.symm).le

theorem evictPlan_safe (hread : readPrivateKey files.read? path = .ok key)
    (hplace : files.place? keyPath = files.place? path) :
    (evictPlan suite files.read? keyPath scheme).Safe (.evict keyPath scheme) path files key
      key.index [] := by
  refine Plan.safe_ofExcept fun p hp => ?_
  obtain ⟨key', hread', hp⟩ := bind_eq_ok_iff.mp hp
  obtain ⟨_, -, hp⟩ := bind_eq_ok_iff.mp hp
  obtain ⟨e, -, hp⟩ := bind_eq_ok_iff.mp hp
  obtain rfl := Except.ok.inj hp
  rw [readPrivateKey_of_place? hplace, hread] at hread'
  obtain rfl := Except.ok.inj hread'
  have hevicted := (wellFormed_of_readPrivateKey hread).evict e
  exact Plan.safe_replaceKey hread hplace hevicted le_rfl (fun _ _ => rfl)
    fun _ _ _ _ _ => trivial

theorem backupPlan_safe (hread : readPrivateKey files.read? path = .ok key)
    (hplace : files.place? keyPath = files.place? path) (hkey : files.Apart output keyPath) :
    (backupPlan suite files.read? keyPath output).Safe (.backup keyPath output) path files key
      key.index [] := by
  have hapart : files.Apart output path := hkey.of_place?_eq hplace
  refine Plan.safe_ofExcept fun key' _ => ?_
  refine Plan.safe_write rfl hread hapart (List.append_nil []).symm (by simp) ?_
  intro files₁ hcreate hread₁
  exact Plan.safe_write rfl hread₁ (hapart.congr hcreate.directories) (List.append_nil []).symm
    (fun _ => List.Forall₂.nil) fun _ _ _ => trivial

/-- **Every request for work on a key file has a safe plan.** -/
theorem Request.WorksOn.plan_safe {request : Request} (h : request.WorksOn files path)
    (hread : readPrivateKey files.read? path = .ok key) (suite : Suite) (entropy : Entropy) :
    (request.plan suite files.read? entropy).Safe request path files key key.index [] := by
  cases h with
  | sign hplace hkey htemporary => exact signPlan_safe hread hplace hkey htemporary
  | backup hplace hkey => exact backupPlan_safe hread hplace hkey
  | info => exact Plan.safe_ofExcept fun _ _ => trivial
  | evict hplace => exact evictPlan_safe hread hplace

end

end Hypertree.Command
