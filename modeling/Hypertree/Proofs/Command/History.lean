import Hypertree.Proofs.Command.Safety

/-!
# The history of a key file

A key file goes through many runs: requests to sign with the key, to back it up, to show it and to
drop nodes from it. One runs at a time, and each may be carried out, may fail, or may be cut off
anywhere, also in the midst of a write. `History.Step` is what can happen next, `History.Run` any
number of such steps; carrying out a request from beginning to end is one (`exists_run_of_request`).

A step keeps a history sound (`History.Step.sound`): what is left of the plan is safe, so the next
part of it may be carried out, and a new run starts from whatever the last one has left behind. So
every run keeps it sound (`History.Run.sound`), from the moment the key was made
(`History.keyFile_crash_safe`).
-/

namespace Hypertree.Command

/-! ### Histories -/

/-- A key file in the course of time. -/
structure History where
  files : Files
  /-- The request that is being carried out, and what is left of its plan. -/
  active : Option (Request × Plan)
  /-- The signatures made so far, the latest first. -/
  made : List Signature
  /-- What was written to the outputs of signing requests, the latest first. -/
  given : List Output

namespace History

/-- A history begins with files. -/
def start (files : Files) : History :=
  ⟨files, none, [], []⟩

/-- What can happen next. -/
inductive Step (suite : Suite) (path : String) : History → History → Prop where
  /-- Between two runs, others change files, but not the key file. -/
  | others {s : History} {files : Files} : s.active = none →
      files.read? path = s.files.read? path →
      Step suite path s { s with files }
  /-- A request reads its files. -/
  | start {s : History} {request : Request} (entropy : Entropy) : s.active = none →
      request.WorksOn s.files path →
      Step suite path s { s with
        active := some (request, request.plan suite s.files.read? entropy) }
  /-- An effect is carried out. -/
  | change {s : History} {request : Request} {step : Command.Step} {next : Plan} {files : Files} :
      s.active = some (request, .change step next) → step.effect.apply? s.files = some files →
      Step suite path s { s with
        files
        active := some (request, next)
        given := (request.output? step.effect).toList ++ s.given }
  /-- A signature is made, or signing fails. -/
  | sign {s : History} {request : Request} {signing : Signing}
      {next : Except Error Signature × PrivateKey → Plan} :
      s.active = some (request, .sign signing next) →
      Step suite path s { s with
        active := some (request, next signing.perform)
        made := signing.perform.1.toOption.toList ++ s.made }
  /-- The run is cut off in the midst of an effect, or the effect fails so. -/
  | tear {s : History} {request : Request} {step : Command.Step} {next : Plan} {files : Files} :
      s.active = some (request, .change step next) → step.effect.Torn s.files files →
      Step suite path s { s with files, active := none }
  /-- The run is over: carried out, failed or cut off. -/
  | stop {s : History} : Step suite path s { s with active := none }

/-- Any number of steps. -/
def Run (suite : Suite) (path : String) : History → History → Prop :=
  Relation.ReflTransGen (Step suite path)

/-! ### Sound histories -/

variable {suite : Suite} {path : String} {key : PrivateKey} {s s' : History}

/-- What holds at any time: the key file holds a key, no two signatures have the same index, and
what is left of the plan is safe. -/
structure Sound (path : String) (key : PrivateKey) (s : History) : Prop where
  stored : readPrivateKey s.files.read? path = .ok key
  nodup : (s.made.map (·.index)).Nodup
  progress : ∃ bound held given, bound ≤ key.index ∧
    (∀ signature ∈ s.made, signature.index < bound) ∧
    List.Forall₂ Output.Holds s.given given ∧ (held ++ given).Sublist s.made ∧
    ∀ request plan, s.active = some (request, plan) →
      plan.Safe request path s.files key bound held

theorem sound_start {files : Files} (h : readPrivateKey files.read? path = .ok key) :
    (start files).Sound path key where
  stored := h
  nodup := List.nodup_nil
  progress := ⟨key.index, [], [], le_rfl, fun _ hmem => (nomatch hmem), List.Forall₂.nil,
    List.Sublist.refl _, fun _ _ hactive => (nomatch hactive)⟩

theorem Sound.lt_index (h : s.Sound path key) :
    ∀ signature ∈ s.made, signature.index < key.index := by
  obtain ⟨bound, held, given, hbound, hmade, -⟩ := h.progress
  exact fun signature hmem => lt_of_lt_of_le (hmade signature hmem) hbound

/-- A history in which no run goes on stays sound as long as the key file is as it was. -/
theorem Sound.idle (h : s.Sound path key) {files : Files}
    (hread : readPrivateKey files.read? path = .ok key) :
    { s with files, active := none }.Sound path key := by
  obtain ⟨bound, held, given, hbound, hmade, hgiven, hsublist, -⟩ := h.progress
  exact ⟨hread, h.nodup, bound, held, given, hbound, hmade, hgiven, hsublist,
    fun _ _ hactive => (nomatch hactive)⟩

/-- A signature with a fresh index joins those made. -/
theorem Sound.record (h : s.Sound path key) {bound : Nat}
    (hmade : ∀ signature ∈ s.made, signature.index < bound) (result : Except Error Signature)
    (hfresh : ∀ signature, result = .ok signature →
      bound ≤ signature.index ∧ signature.index < key.index) :
    ((result.toOption.toList ++ s.made).map (·.index)).Nodup ∧
      ∀ signature ∈ result.toOption.toList ++ s.made, signature.index < key.index := by
  cases result with
  | error err => exact ⟨h.nodup, h.lt_index⟩
  -- all signatures made before lie below the bound, the new one does not
  | ok new =>
    obtain ⟨hbound, hindex⟩ := hfresh new rfl
    refine ⟨List.nodup_cons.mpr ⟨?_, h.nodup⟩, List.forall_mem_cons.mpr ⟨hindex, h.lt_index⟩⟩
    intro hmem
    obtain ⟨old, hold, heq : old.index = new.index⟩ := List.mem_map.mp hmem
    have hlt := hmade old hold
    omega

/-- **Every step keeps a history sound**, and the index in the key file does not decrease. -/
theorem Step.sound (hstep : Step suite path s s') (h : s.Sound path key) :
    ∃ key', s'.Sound path key' ∧ key.index ≤ key'.index := by
  obtain ⟨bound, held, given, hbound, hmade, hgiven, hsublist, hsafe⟩ := h.progress
  cases hstep with
  | @others files hidle hfile =>
    have hread := (readPrivateKey_congr hfile).mpr h.stored
    have hsound := h.idle hread
    rw [← hidle] at hsound
    exact ⟨key, hsound, le_rfl⟩
  | @start request entropy hidle hrequest =>
    -- all that was made lies below the key in the file, so its index is the new bound
    have hplan := hrequest.plan_safe h.stored suite entropy
    refine ⟨key, ⟨h.stored, h.nodup, key.index, [], given, le_rfl, h.lt_index, hgiven, ?_, ?_⟩,
      le_rfl⟩
    · exact (List.sublist_append_right held given).trans hsublist
    · rintro _ _ ⟨⟩
      exact hplan
  | @change request step next files hactive happly =>
    obtain ⟨-, hchange⟩ := hsafe request _ hactive
    obtain ⟨key', held', out, hread, hindex, rfl, hout, hnext⟩ := hchange files happly
    refine ⟨key', ⟨hread, h.nodup, bound, held', out ++ given, hbound.trans hindex, hmade, ?_, ?_,
      ?_⟩, hindex⟩
    · exact List.rel_append hout hgiven
    · rwa [← List.append_assoc]
    · rintro _ _ ⟨⟩
      exact hnext
  | @sign request signing next hactive =>
    obtain ⟨hfresh, hnext⟩ := hsafe request _ hactive
    -- what was held back before is never given out, and the new signature takes its place
    have hgivenMade : given.Sublist s.made := (List.sublist_append_right held given).trans hsublist
    obtain ⟨hnodup, hlt⟩ := h.record hmade signing.perform.1 hfresh
    refine ⟨key, ⟨h.stored, hnodup, key.index, signing.perform.1.toOption.toList, given, le_rfl,
      hlt, hgiven, hgivenMade.append_left _, ?_⟩, le_rfl⟩
    rintro _ _ ⟨⟩
    exact hnext
  | @tear request step next files hactive htorn =>
    exact ⟨key, h.idle ((hsafe request _ hactive).1 files htorn), le_rfl⟩
  | stop => exact ⟨key, h.idle h.stored, le_rfl⟩

/-- **Every run keeps a history sound.** -/
theorem Run.sound (hrun : Run suite path s s') (h : s.Sound path key) :
    ∃ key', s'.Sound path key' ∧ key.index ≤ key'.index := by
  -- the induction is on the steps made
  induction hrun with
  | refl => exact ⟨key, h, le_rfl⟩
  | tail _ hstep ih =>
    obtain ⟨key', hsound, hle⟩ := ih
    obtain ⟨key'', hsound', hle'⟩ := hstep.sound hsound
    exact ⟨key'', hsound', hle.trans hle'⟩

/-! ### Complete runs -/

/-- What is left of a plan may be carried out to its end. -/
theorem exists_run_of_plan (suite : Suite) (path : String) (request : Request) (plan : Plan) :
    ∀ files made given, ∃ made' given', Run suite path ⟨files, some (request, plan), made, given⟩
      ⟨(plan.run files).1, none, made', given'⟩ := by
  induction plan with
  | finish outcome => exact fun files made given => ⟨made, given, .single .stop⟩
  | change step next ih =>
    intro files made given
    rw [Plan.run]
    cases happly : step.effect.apply? files with
    -- an effect that is refused ends the plan
    | none => exact ⟨made, given, .single .stop⟩
    | some files' =>
      obtain ⟨made', given', hrun⟩ := ih files' made _
      exact ⟨made', given', hrun.head (.change rfl happly)⟩
  | sign signing next ih =>
    intro files made given
    obtain ⟨made', given', hrun⟩ := ih signing.perform files _ given
    exact ⟨made', given', hrun.head (.sign rfl)⟩

/-- **Carrying out a request is a history.** -/
theorem exists_run_of_request (suite : Suite) (hidle : s.active = none) {request : Request}
    (hrequest : request.WorksOn s.files path) (entropy : Entropy) :
    ∃ made given, Run suite path s
      ⟨((request.plan suite s.files.read? entropy).run s.files).1, none, made, given⟩ := by
  obtain ⟨made, given, hrun⟩ := exists_run_of_plan suite path request
    (request.plan suite s.files.read? entropy) s.files s.made s.given
  exact ⟨made, given, hrun.head (.start entropy hidle hrequest)⟩

/-- **As long as indices are left, a signing run makes a signature** unless it is cut off before. -/
theorem Sound.exists_made (h : s.Sound path key) (hidle : s.active = none)
    {keyPath input output : String} {format : Format} {scheme : SchemeOptions} {p : Params}
    {message : Bytes}
    (hrequest : (Request.sign keyPath input output format scheme).WorksOn s.files path)
    (hresolve : scheme.resolve s.files.read? = .ok p) (hinput : s.files.read? input = some message)
    (htemporary : (s.files.place? (temporaryPath keyPath)).isSome)
    (hindex : key.index < key.header.maxSignatures) :
    ∃ s' signature, Run suite path s s' ∧ signature.index = key.index ∧
      s'.made = signature :: s.made := by
  have hplace : s.files.place? keyPath = s.files.place? path := by
    cases hrequest
    assumption
  have hread := (readPrivateKey_of_place? hplace).mpr h.stored
  -- the signature is prepared from the key in the file
  obtain ⟨signing, signature, hprepare, hsigned, hsignature⟩ :=
    exists_prepareSigning suite hread hresolve hinput hindex
  have hplan : signPlan suite s.files.read? keyPath input output format scheme
      = .changes (replaceKeyOr .persistKey keyPath signing.key)
          (.sign signing (deliver signing keyPath output format)) := by
    rw [signPlan, hprepare]
    rfl
  have hstart : Step suite path s { s with active := some (.sign keyPath input output format scheme,
      signPlan suite s.files.read? keyPath input output format scheme) } :=
    .start ⟨fun _ => 0⟩ hidle hrequest
  rw [hplan] at hstart
  -- the key file is replaced before anything is signed
  obtain ⟨files₁, files₂, files₃, hcreate, hwrite, hrename⟩ := Effect.exists_replace
    (place?_isSome_of_readPrivateKey hread) htemporary (keyFileContent signing.key)
  have hrun : Run suite path s _ := .single hstart
  have hsign := (((hrun.tail (.change rfl hcreate)).tail (.change rfl hwrite)).tail
    (.change rfl hrename)).tail (.sign rfl)
  refine ⟨_, signature, hsign, hsignature, ?_⟩
  rw [hsigned]
  rfl

/-! ### From the making of the key on -/

theorem run_change_eq_ok_iff {step : Command.Step} {next : Plan} {files files' : Files}
    {report : String} : (Plan.change step next).run files = (files', .ok report) ↔
      ∃ mid, step.effect.apply? files = some mid ∧ next.run mid = (files', .ok report) := by
  rw [Plan.run]
  cases step.effect.apply? files with
  | none => simp
  | some mid => simp

/-- Once a key pair was made, the key file holds the key, which has spent no index. -/
theorem of_keygenPlan_run {source : Source} {entropy : Entropy} {scheme : SchemeOptions}
    {output : String} {format : Format} {before files : Files} {report : String}
    (h : (keygenPlan suite source entropy scheme output format).run before = (files, .ok report)) :
    ∃ key, readPrivateKey files.read? (output ++ ".key") = .ok key ∧ key.index = 0 := by
  unfold keygenPlan at h
  dsimp only at h
  generalize hkeys : (do
    let p ← scheme.resolve source
    let e ← engine suite p
    (e.generate entropy).mapError .keyGeneration : Except Failure (PrivateKey × PublicKey)) = keys
    at h
  cases keys with
  | error failure => exact nomatch h
  | ok keys =>
    obtain ⟨key, publicKey⟩ := keys
    obtain ⟨p, -, hkeys⟩ := bind_eq_ok_iff.mp hkeys
    obtain ⟨e, -, hkeys⟩ := bind_eq_ok_iff.mp hkeys
    obtain ⟨hindex, hsound⟩ := Engine.of_generate (mapError_eq_ok_iff.mp hkeys)
    -- two changes write the public key, and three replace the key file
    obtain ⟨_, -, h⟩ := run_change_eq_ok_iff.mp h
    obtain ⟨_, -, h⟩ := run_change_eq_ok_iff.mp h
    obtain ⟨files₁, hcreate, h⟩ := run_change_eq_ok_iff.mp h
    obtain ⟨files₂, hwrite, h⟩ := run_change_eq_ok_iff.mp h
    obtain ⟨files₃, hrename, h⟩ := run_change_eq_ok_iff.mp h
    obtain ⟨rfl, -⟩ := Prod.mk.inj h
    obtain ⟨-, hwrites⟩ := Effect.writes_of_apply rfl hwrite
    obtain ⟨-, hread⟩ := Effect.read?_of_replace hwrites hrename
    exact ⟨_, readPrivateKey_keyFileContent hsound.wellFormed (hread _ rfl), hindex⟩

/-- **Crash safety of a key file.** From the moment when a key pair was made, and after any number
of runs, each of which may have been carried out, have failed or have been cut off anywhere:

* the key file holds a key, whose index never decreases;
* every signature made has an index below that of the key in the file, and no two have the same;
* what was written to outputs are text forms of signatures made, each written at most once.
-/
theorem keyFile_crash_safe {entropy : Entropy} {scheme : SchemeOptions} {output : String}
    {format : Format} {before files : Files} {report : String}
    (hkeygen : ((Request.keygen scheme output format).plan suite before.read? entropy).run before
      = (files, .ok report))
    (hrun : Run suite (output ++ ".key") (start files) s) :
    (∃ key, readPrivateKey s.files.read? (output ++ ".key") = .ok key ∧
      (∀ signature ∈ s.made, signature.index < key.index) ∧
      ∀ s', Run suite (output ++ ".key") s s' →
        ∃ key', readPrivateKey s'.files.read? (output ++ ".key") = .ok key' ∧
          key.index ≤ key'.index) ∧
    (s.made.map (·.index)).Nodup ∧
    ∃ given, List.Forall₂ Output.Holds s.given given ∧ given.Sublist s.made ∧
      (given.map (·.index)).Nodup := by
  obtain ⟨first, hfirst, -⟩ := of_keygenPlan_run hkeygen
  obtain ⟨key, hsound, -⟩ := hrun.sound (sound_start hfirst)
  refine ⟨⟨key, hsound.stored, hsound.lt_index, fun s' hlater => ?_⟩, hsound.nodup, ?_⟩
  · obtain ⟨key', hsound', hle⟩ := hlater.sound hsound
    exact ⟨key', hsound'.stored, hle⟩
  · -- what was given out is part of what was made, and its indices differ for that reason
    obtain ⟨-, held, given, -, -, hgiven, hsublist, -⟩ := hsound.progress
    have hmade : given.Sublist s.made := (List.sublist_append_right held given).trans hsublist
    exact ⟨given, hgiven, hmade, hsound.nodup.sublist (hmade.map _)⟩

theorem keyFile_crash_safe_signed : ∃ files report s signature key,
    ((Request.keygen {} "k" .hex).plan .standard (Files.mk [(["m"], [])]).read? ⟨fun _ => 0⟩).run
      ⟨[(["m"], [])]⟩ = (files, .ok report) ∧
    Run .standard ("k" ++ ".key") (start files) s ∧ s.made = [signature] ∧
    readPrivateKey s.files.read? ("k" ++ ".key") = .ok key ∧ signature.index < key.index := by
  obtain ⟨publicSeed, secretSeed, secretPrf, nonces, hfits, hgenerate⟩ :=
    Engine.generate_eq ⟨.standard, {}, rfl⟩ ⟨fun _ => 0⟩
  obtain ⟨made, hmade, -⟩ := Engine.generateFromSeeds_eq hfits
  rw [hmade] at hgenerate
  set before : Files := ⟨[(["m"], [])]⟩
  -- key generation leaves two more files
  obtain ⟨content, content', report, hkeygen⟩ : ∃ content content' report,
      ((Request.keygen {} "k" .hex).plan .standard before.read? ⟨fun _ => 0⟩).run before
        = (⟨[(["m"], []), (["k.pub"], content), (["k.key"], content')]⟩, .ok report) := by
    have hkeys : (do
        let p ← ({} : SchemeOptions).resolve before.read?
        let e ← engine .standard p
        (e.generate ⟨fun _ => 0⟩).mapError .keyGeneration : Except Failure (PrivateKey × PublicKey))
        = .ok (made, made.publicKey) :=
      bind_eq_ok_iff.mpr ⟨{}, rfl, bind_eq_ok_iff.mpr ⟨_, rfl, mapError_eq_ok_iff.mpr hgenerate⟩⟩
    simp only [Request.plan, keygenPlan, hkeys]
    exact ⟨_, _, _, rfl⟩
  set files : Files := ⟨[(["m"], []), (["k.pub"], content), (["k.key"], content')]⟩
  obtain ⟨key, hread, hindex⟩ := of_keygenPlan_run hkeygen
  have hplaces : files.place? "s" = some ["s"] ∧ files.place? "k.key" = some ["k.key"] ∧
      files.place? (temporaryPath "k.key") = some ["k.key.tmp"] := ⟨rfl, rfl, rfl⟩
  have hrequest : (Request.sign "k.key" "m" "s" .hex {}).WorksOn files ("k" ++ ".key") := by
    refine .sign rfl ?_ ?_
    · rintro place ⟨⟩
      rw [hplaces.2.1]
      decide
    · rintro place ⟨⟩
      rw [hplaces.2.2]
      decide
  have hleft : key.index < key.header.maxSignatures := by
    rw [hindex]
    exact Nat.two_pow_pos _
  -- one signature, and the key file is past its index
  obtain ⟨s, signature, hrun, -, hsigned⟩ :=
    (sound_start hread).exists_made rfl hrequest rfl rfl rfl hleft
  obtain ⟨⟨key', hread', hlt, -⟩, -⟩ := keyFile_crash_safe hkeygen hrun
  exact ⟨_, report, s, signature, key', hkeygen, hrun, hsigned, hread',
    hlt signature (hsigned ▸ List.mem_singleton_self signature)⟩

end History

end Hypertree.Command
