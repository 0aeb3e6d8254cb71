import Hypertree.Proofs.Command.Safety
import Hypertree.Proofs.Session

/-!
# What a signing run gives out

A signing request that is not ready changes no file. One that is ready replaces the key file with
the key whose next index is taken, before anything else, and what follows depends on the signature
alone. The parameters of the request may not be those of the key, and the key may hold wrong nodes,
so the signature may be worthless; then nothing is given out, and the key file stays as it is after
the first replacement, with the nodes it had before the run. A signature that is valid for the key
is written to the output, after the key that it leaves has replaced the other one
(`signature_given_out_verifies`).

What replacing a key file does to the files is `Files.Replaces`, and what writing an output does is
`Files.Writes`. Both are carried out if there are places for the files.
-/

namespace Hypertree

/-! ### Keys with the same nodes -/

namespace Caches

/-- The same trees are kept, with the same nodes. -/
def SameNodes (c c' : Caches) : Prop :=
  ∀ layer tree, (c'.tree? layer tree).map (·.nodes) = (c.tree? layer tree).map (·.nodes)

theorem sameNodes_atIndex (c : Caches) (treeHeight index : Nat) :
    c.SameNodes (c.atIndex treeHeight index) := by
  intro layer tree
  rw [tree?_atIndex, Option.map_map]
  rfl

end Caches

namespace Command

/-! ### Carrying out changes -/

namespace Files

variable {files files' : Files} {keyPath output : String} {key : PrivateKey}

/-- A path apart from one that has a place leads elsewhere. -/
theorem Apart.place?_ne {a b : String} (h : files.Apart a b) (hb : (files.place? b).isSome) :
    files.place? a ≠ files.place? b := by
  obtain ⟨place, hplace⟩ := Option.isSome_iff_exists.mp hb
  intro heq
  exact h place (heq.trans hplace) hplace

/-- A key file holds another key, and only the temporary file has changed besides. -/
structure Replaces (files files' : Files) (keyPath : String) (key : PrivateKey) : Prop where
  directories : files.SameDirectories files'
  read?_key : files'.read? keyPath = some (keyFileContent key)
  read?_of_apart : ∀ other, files.Apart other keyPath → files.Apart other (temporaryPath keyPath) →
    files'.read? other = files.read? other

/-- The key file is read as the key that it was replaced by. -/
theorem Replaces.readPrivateKey_eq (h : files.Replaces files' keyPath key) (hkey : key.WellFormed) :
    readPrivateKey files'.read? keyPath
      = .ok { key with caches := key.caches.atIndex key.header.treeHeight key.index } :=
  readPrivateKey_keyFileContent hkey h.read?_key

end Files

namespace Plan

variable {files : Files} {keyPath output : String}

/-- A plan goes on after a key file was replaced. -/
theorem exists_replaces (hkey : (files.place? keyPath).isSome)
    (htemporary : (files.place? (temporaryPath keyPath)).isSome) (key : PrivateKey)
    (failure₁ failure₂ failure₃ : Failure) (next : Plan) :
    ∃ files', files.Replaces files' keyPath key ∧
      (changes [⟨.create (temporaryPath keyPath), failure₁⟩,
        ⟨.write (temporaryPath keyPath) (keyFileContent key), failure₂⟩,
        ⟨.rename (temporaryPath keyPath) keyPath, failure₃⟩] next).run files
      = next.run files' := by
  obtain ⟨files₁, files₂, files₃, hcreate, hwrite, hrename⟩ :=
    Effect.exists_replace hkey htemporary (keyFileContent key)
  obtain ⟨-, hempty⟩ := Effect.writes_of_apply rfl hcreate
  obtain ⟨-, hfull⟩ := Effect.writes_of_apply rfl hwrite
  obtain ⟨hdirectories, hmoved⟩ := Effect.read?_of_replace hfull hrename
  refine ⟨files₃, ⟨hempty.directories.trans hdirectories, hmoved _ rfl, ?_⟩, ?_⟩
  · -- none of the three effects is about another place
    intro other hother hapart
    obtain ⟨_, -, -, hreads⟩ := Effect.moves_of_apply hrename
    have hplaces : files₂.place? = files.place? :=
      hfull.directories.place?_eq.trans hempty.directories.place?_eq
    rw [hreads, hplaces, if_neg (hother.place?_ne hkey), if_neg (hapart.place?_ne htemporary),
      hfull.read?_eq, hempty.directories.place?_eq, if_neg (hapart.place?_ne htemporary),
      hempty.read?_eq, if_neg (hapart.place?_ne htemporary)]
  · simp only [changes, List.foldr, run, hcreate, hwrite, hrename]

/-- A plan goes on after a file was written. -/
theorem exists_writes (houtput : (files.place? output).isSome) (content : Text)
    (failure : Failure) (next : Plan) :
    ∃ files', files.Writes files' output (Text.utf8 content) ∧
      (changes (writeFile output content failure) next).run files = next.run files' := by
  obtain ⟨place, hplace⟩ := Option.isSome_iff_exists.mp houtput
  have hempty := Files.writes_put hplace []
  set files₁ := files.put place []
  -- creating the file moves no directory, so the path still leads to its place
  have hplace₁ : files₁.place? output = some place := by
    rw [hempty.directories.place?_eq, hplace]
  have hfull := Files.writes_put hplace₁ (Text.utf8 content)
  refine ⟨files₁.put place (Text.utf8 content),
    ⟨hempty.directories.trans hfull.directories, fun other => ?_⟩, ?_⟩
  · rw [hfull.read?_eq, hempty.directories.place?_eq, hempty.read?_eq]
    split_ifs <;> rfl
  · simp only [changes, writeFile, List.foldr, run, Effect.apply?, hplace, hplace₁,
      Option.map_some, files₁]

end Plan

/-! ### The three ends of a signing run -/

/-- A signing request makes a signature that is valid for a key, under its own parameters. -/
def Signing.Verifies (s : Signing) (key : PrivateKey) (signature : Signature) : Prop :=
  s.perform.1 = .ok signature ∧
    s.engine.verify signature s.message key.publicKey = .ok true

/-- How a signing request ends that has read `key` and leaves `stored`: the output it found, the
output it leaves, and the outcome. -/
inductive Signing.Ends (s : Signing) (key stored : PrivateKey) (format : Format)
    (found left : Option Bytes) : Except Failure String → Prop where
  /-- The signature is not valid for the key. It is not given out, and the key keeps its nodes. -/
  | withheld {failure : Failure} : (∀ signature, ¬ s.Verifies key signature) → left = found →
      key.caches.SameNodes stored.caches → Ends s key stored format found left (.error failure)
  /-- The signature is valid for the key, at its index, and is given out. -/
  | givenOut {signature : Signature} {report : String} : s.Verifies key signature →
      signature.index = key.index →
      left = some (Text.utf8 (Format.encode signature.toBytes format .signature)) →
      Ends s key stored format found left (.ok report)

section

variable {suite : Suite} {files : Files} {keyPath input output : String} {scheme : SchemeOptions}
  {key : PrivateKey} {s : Signing} {signature : Signature}

/-- A signature that is not valid is not given out, and nothing is changed any more. -/
theorem exists_run_withheld (files : Files) (keyPath output : String) (format : Format)
    (h : s.engine.verify signature s.message key.publicKey ≠ .ok true) :
    ∃ failure, (deliver s keyPath output format (.ok signature, key)).run files
      = (files, .error failure) := by
  rw [deliver]
  split
  · exact ⟨_, rfl⟩
  · exact ⟨_, rfl⟩
  · contradiction

theorem deliver_of_verify (keyPath output : String) (format : Format)
    (h : s.engine.verify signature s.message key.publicKey = .ok true) :
    deliver s keyPath output format (.ok signature, key)
      = .changes (replaceKey keyPath key)
          (.changes (writeFile output (Format.encode signature.toBytes format .signature)
            .writeSignature) (.print ["Signature written to: " ++ output])) := by
  simp only [deliver, h, Plan.changes_append]

/-- A run that is ready goes on after the index has been taken in the key file. -/
theorem Ready.exists_run (h : Ready suite files.read? keyPath input scheme key s)
    (htemporary : (files.place? (temporaryPath keyPath)).isSome) (output : String)
    (format : Format) :
    ∃ files₁, files.Replaces files₁ keyPath { key with index := key.index + 1 } ∧
      (signPlan suite files.read? keyPath input output format scheme).run files
        = (deliver s keyPath output format s.perform).run files₁ := by
  obtain ⟨-, -, hadvanced⟩ := PrivateKey.reserve_eq_ok_iff.mp h.reserve
  obtain ⟨files₁, hspent, hrun⟩ := Plan.exists_replaces (place?_isSome_of_readPrivateKey h.read)
    htemporary s.key .persistKey .persistKey .persistKey
    (.sign s (deliver s keyPath output format))
  rw [hadvanced] at hspent
  refine ⟨files₁, hspent, ?_⟩
  rw [signPlan, prepareSigning_eq_ok_iff.mpr ⟨key, h⟩]
  exact hrun

/-- What a run leaves that has given out a signature: the key that it left, and the signature. -/
theorem exists_run_delivered (hapart : files.Apart output keyPath)
    (houtput : (files.place? output).isSome) (hkey : (files.place? keyPath).isSome)
    (htemporary : (files.place? (temporaryPath keyPath)).isSome) (hwell : key.WellFormed)
    (format : Format) (h : s.engine.verify signature s.message key.publicKey = .ok true) :
    ∃ files' report, (deliver s keyPath output format (.ok signature, key)).run files
        = (files', .ok report) ∧
      readPrivateKey files'.read? keyPath
        = .ok { key with caches := key.caches.atIndex key.header.treeHeight key.index } ∧
      files'.read? output
        = some (Text.utf8 (Format.encode signature.toBytes format .signature)) ∧
      ∀ other, files.Apart other keyPath → files.Apart other (temporaryPath keyPath) →
        files.Apart other output → files'.read? other = files.read? other := by
  rw [deliver_of_verify keyPath output format h]
  -- the key file is replaced before the signature is written
  obtain ⟨files₁, hreplaced, hrun₁⟩ := Plan.exists_replaces hkey htemporary key
    (.createFile (temporaryPath keyPath)) .writePrivateKey (.replaceFile keyPath)
    (.changes (writeFile output (Format.encode signature.toBytes format .signature)
      .writeSignature) (.print ["Signature written to: " ++ output]))
  have hplaces := hreplaced.directories.place?_eq
  have houtput₁ : (files₁.place? output).isSome := by rwa [hplaces]
  obtain ⟨files₂, hwritten, hrun₂⟩ := Plan.exists_writes houtput₁
    (Format.encode signature.toBytes format .signature) .writeSignature
    (.print ["Signature written to: " ++ output])
  refine ⟨files₂, _, hrun₁.trans hrun₂, ?_, ?_, ?_⟩
  · have hkept := hwritten.read?_of_apart (hapart.congr hreplaced.directories) houtput₁
    exact (readPrivateKey_congr hkept).mpr (hreplaced.readPrivateKey_eq hwell)
  · rw [hwritten.read?_eq, if_pos rfl]
  · intro other hother htemp hout
    rw [hwritten.read?_eq, hplaces, if_neg (hout.place?_ne houtput)]
    exact hreplaced.read?_of_apart other hother htemp

/-- A run that is ready takes an index, and then withholds a signature that is not valid or gives
out one that is. -/
theorem Ready.run_cases (h : Ready suite files.read? keyPath input scheme key s)
    (hapart : files.Apart output keyPath) (hapart' : files.Apart output (temporaryPath keyPath))
    (houtput : (files.place? output).isSome)
    (htemporary : (files.place? (temporaryPath keyPath)).isSome) (format : Format) :
    ∃ files' outcome stored,
      (signPlan suite files.read? keyPath input output format scheme).run files
        = (files', outcome) ∧
      (∀ other, files.Apart other keyPath → files.Apart other (temporaryPath keyPath) →
        files.Apart other output → files'.read? other = files.read? other) ∧
      readPrivateKey files'.read? keyPath = .ok stored ∧ key.Evolves stored ∧
      stored.index = key.index + 1 ∧
      s.Ends key stored format (files.read? output) (files'.read? output) outcome := by
  have hkey := place?_isSome_of_readPrivateKey h.read
  have hwell := h.madeFor.wellFormed
  obtain ⟨hindex, -, -⟩ := PrivateKey.reserve_eq_ok_iff.mp h.reserve
  obtain ⟨files₁, hspent, hrun₁⟩ := h.exists_run htemporary output format
  obtain ⟨signature, caches, hperform, hrange, hsignature⟩ := h.perform_eq
  have hresult : s.perform.1 = .ok signature := by rw [hperform]
  rw [hrun₁, hperform]
  by_cases hverify : s.engine.verify signature s.message key.publicKey = .ok true
  · have hdirectories := hspent.directories
    have hplaces := hdirectories.place?_eq
    have hkey₁ : (files₁.place? keyPath).isSome := by rwa [hplaces]
    have htemporary₁ : (files₁.place? (temporaryPath keyPath)).isSome := by rwa [hplaces]
    have houtput₁ : (files₁.place? output).isSome := by rwa [hplaces]
    obtain ⟨files₂, report, hrun₂, hread, hwritten, hother⟩ :=
      exists_run_delivered (hapart.congr hdirectories) houtput₁ hkey₁ htemporary₁
        (hwell.update hindex hrange) format hverify
    refine ⟨files₂, .ok report, _, hrun₂, ?_, hread, key.evolves_update _ _, rfl, ?_⟩
    · intro other hotherKey hotherTemporary hotherOutput
      rw [hother other (hotherKey.congr hdirectories) (hotherTemporary.congr hdirectories)
        (hotherOutput.congr hdirectories)]
      exact hspent.read?_of_apart other hotherKey hotherTemporary
    · exact .givenOut ⟨hresult, hverify⟩ hsignature hwritten
  · -- signing changes neither the root nor the public seed
    have hpublic : s.engine.verify signature s.message
        (PrivateKey.publicKey { key with index := key.index + 1, caches }) ≠ .ok true := hverify
    have hread := hspent.readPrivateKey_eq (hwell.update hindex hwell.caches)
    obtain ⟨failure, hrun₂⟩ := exists_run_withheld files₁ keyPath output format hpublic
    refine ⟨files₁, .error failure, _, hrun₂, ?_, hread, key.evolves_update _ _, rfl, ?_⟩
    · exact fun other hotherKey hotherTemporary _ =>
        hspent.read?_of_apart other hotherKey hotherTemporary
    · refine .withheld ?_ (hspent.read?_of_apart output hapart hapart')
        (key.caches.sameNodes_atIndex _ _)
      rintro signature' ⟨hresult', hverify'⟩
      obtain rfl := Except.ok.inj (hresult.symm.trans hresult')
      exact hverify hverify'

/-- **Only signatures that verify are given out, and a run that fails keeps the key clean.** A
signing request whose output is apart from the key file and its temporary file, with places for
these files, comes to one of three ends:

* it is not ready, it fails, and no file has changed;
* its signature is not valid for the key, it fails, the output is as it was, and the key file holds
  the key as it was read, with the same cached nodes, but for the index, which is one further;
* its signature, at the index of the key that was read, is valid for that key; the output is the
  text of the signature, and the key file holds the key with an index one further.

No other file changes. -/
theorem signature_given_out_verifies (hapart : files.Apart output keyPath)
    (hapart' : files.Apart output (temporaryPath keyPath)) (houtput : (files.place? output).isSome)
    (htemporary : (files.place? (temporaryPath keyPath)).isSome) (suite : Suite)
    (entropy : Entropy) (input : String) (format : Format) (scheme : SchemeOptions) :
    ∃ files' outcome, ((Request.sign keyPath input output format scheme).plan suite files.read?
        entropy).run files = (files', outcome) ∧
      (∀ other, files.Apart other keyPath → files.Apart other (temporaryPath keyPath) →
        files.Apart other output → files'.read? other = files.read? other) ∧
      (((∀ key s, ¬ Ready suite files.read? keyPath input scheme key s) ∧ files' = files ∧
          ∃ failure, outcome = .error failure) ∨
        ∃ key s stored, Ready suite files.read? keyPath input scheme key s ∧
          readPrivateKey files'.read? keyPath = .ok stored ∧ key.Evolves stored ∧
          stored.index = key.index + 1 ∧
          s.Ends key stored format (files.read? output) (files'.read? output) outcome) := by
  rw [Request.plan]
  cases hprepare : prepareSigning suite files.read? keyPath input scheme with
  | error failure =>
    -- no file is changed before all are read
    refine ⟨files, .error failure, ?_, fun _ _ _ _ => rfl, Or.inl ⟨?_, rfl, failure, rfl⟩⟩
    · rw [signPlan, hprepare]
      rfl
    · intro key s hready
      rw [prepareSigning_eq_ok_iff.mpr ⟨key, hready⟩] at hprepare
      cases hprepare
  | ok s =>
    obtain ⟨key, hready⟩ := prepareSigning_eq_ok_iff.mp hprepare
    obtain ⟨files', outcome, stored, hrun, hother, hread, hevolves, hindex, hend⟩ :=
      hready.run_cases hapart hapart' houtput htemporary format
    exact ⟨files', outcome, hrun, hother,
      Or.inr ⟨key, s, stored, hready, hread, hevolves, hindex, hend⟩⟩

/-- A sound key with the root of its seeds makes a signature that is valid for it. -/
theorem Ready.exists_verifies {source : Source} (h : Ready suite source keyPath input scheme key s)
    (hsound : key.SoundFor s.engine) (hrooted : key.Rooted s.engine) :
    ∃ signature, s.Verifies key signature := by
  obtain ⟨hindex, hreservation, hadvanced⟩ := PrivateKey.reserve_eq_ok_iff.mp h.reserve
  obtain ⟨signature, caches, hperform, -⟩ := h.perform_eq
  have houtcome := Engine.signCommitted_outcome (hsound.advance hindex)
    (Engine.checkCommitted_next key) s.message .primary
  have hresult : s.perform.1 = .ok signature := by rw [hperform]
  rw [Signing.perform, hadvanced, hreservation, Reservation.commit] at hresult
  rw [hresult] at houtcome
  refine ⟨signature, by rw [hperform], ?_⟩
  exact Engine.verify_of_reference? hsound hrooted hindex houtcome.symm rfl rfl

end

/-- The first signature with a fresh key is given out. -/
theorem signature_given_out_verifies_fresh :
    ∃ (key : PrivateKey) (files' : Files) (signature : Signature) (report : String)
      (stored : PrivateKey),
    ((Request.sign "k.key" "m" "s" .hex {}).plan .standard
      (Files.mk [(["m"], []), (["k.key"], keyFileContent key)]).read? ⟨fun _ => 0⟩).run
      ⟨[(["m"], []), (["k.key"], keyFileContent key)]⟩ = (files', .ok report) ∧
    files'.read? "s" = some (Text.utf8 (Format.encode signature.toBytes .hex .signature)) ∧
    signature.index = 0 ∧ readPrivateKey files'.read? "k.key" = .ok stored ∧ stored.index = 1 := by
  obtain ⟨publicSeed, secretSeed, secretPrf, nonces, hfits, -⟩ :=
    Engine.generate_eq ⟨.standard, {}, rfl⟩ ⟨fun _ => 0⟩
  obtain ⟨made, -, hindex, -, -, hmade, hrooted⟩ := Engine.generateFromSeeds_eq hfits
  set files : Files := ⟨[(["m"], []), (["k.key"], keyFileContent made)]⟩
  have hplaces : files.place? "s" = some ["s"] ∧ files.place? "k.key" = some ["k.key"] ∧
      files.place? (temporaryPath "k.key") = some ["k.key.tmp"] := ⟨rfl, rfl, rfl⟩
  have hapart : files.Apart "s" "k.key" := by
    rintro place ⟨⟩
    rw [hplaces.2.1]
    decide
  have hapart' : files.Apart "s" (temporaryPath "k.key") := by
    rintro place ⟨⟩
    rw [hplaces.2.2]
    decide
  have hfile : files.read? "k.key" = some (keyFileContent made) := rfl
  have hread := readPrivateKey_keyFileContent hmade.wellFormed hfile
  have hlt : made.index < made.header.maxSignatures := by
    rw [hindex]
    exact Nat.two_pow_pos _
  obtain ⟨files', outcome, hrun, -, hend⟩ := signature_given_out_verifies hapart hapart' rfl rfl
    .standard ⟨fun _ => 0⟩ "m" .hex {}
  rcases hend with ⟨hnone, -⟩ | ⟨key, s, stored, hready, hstored, -, hnext, hverdict⟩
  · have hresolve : ({} : SchemeOptions).resolve files.read? = .ok {} := rfl
    have hinput : files.read? "m" = some [] := rfl
    obtain ⟨s, _, hprepare, -⟩ := exists_prepareSigning .standard hread hresolve hinput hlt
    obtain ⟨key, hready⟩ := prepareSigning_eq_ok_iff.mp hprepare
    exact absurd hready (hnone key s)
  · have hkey := hready.read
    rw [hread] at hkey
    obtain rfl := Except.ok.inj hkey
    -- the key is read with the parameters that it was made under
    have hagree : Engine.Agrees ⟨.standard, {}, rfl⟩ s.engine := by
      obtain ⟨p, valid, hresolve, hengine⟩ := hready.engine
      obtain rfl : {} = p := Except.ok.inj hresolve
      rw [hengine]
      exact ⟨rfl, hmade.height.symm, hmade.layers.symm, hmade.digest.symm, hmade.backupDigest.symm,
        rfl⟩
    cases hverdict with
    | withheld hnot =>
      obtain ⟨signature, hverifies⟩ :=
        hready.exists_verifies (hmade.atIndex.congr hagree) (hrooted.congr hagree)
      exact absurd hverifies (hnot signature)
    | givenOut _ hsignature hwritten =>
      rw [hindex] at hsignature hnext
      exact ⟨made, files', _, _, stored, hrun, hwritten, hsignature, hstored, hnext⟩

end Command

end Hypertree
