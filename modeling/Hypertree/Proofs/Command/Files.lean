import Hypertree.Command.KeyFile
import Hypertree.Proofs.Association
import Hypertree.Proofs.Text

/-!
# What an effect leaves as it was

An effect gives the file on its path new content (`Effect.writes_of_apply`), or puts the temporary
file in place of a key file (`Effect.moves_of_apply`). Every other file stays as it is.

Places are found by way of directories, and a directory is there as long as it holds a file. So a
path could change its meaning when files come and go. It does not: an effect adds a file only where
the directory of the file is there already, and takes one away only next to where it adds one
(`sameDirectories_update`).
-/

namespace Hypertree.Command

namespace Files

variable {files files' files'' : Files} {path place : List String}

/-! ### Directories -/

theorem isDirectory_iff : files.isDirectory place = true ↔
    (∀ name ∈ place, name = "..") ∨
      ∃ e ∈ files.entries, place <+: e.1 ∧ place.length < e.1.length := by
  simp only [isDirectory, Bool.or_eq_true, List.all_eq_true, List.any_eq_true, Bool.and_eq_true,
    beq_iff_eq, List.isPrefixOf_iff_prefix, decide_eq_true_eq]

/-- The directories above a directory are there. -/
theorem isDirectory_of_prefix {directory : List String} (h : files.isDirectory place = true)
    (hbelow : directory <+: place) : files.isDirectory directory = true := by
  rw [isDirectory_iff] at h ⊢
  refine h.imp ?_ ?_
  · exact fun hall name hname => hall name (hbelow.subset hname)
  · rintro ⟨e, he, hplace, hlt⟩
    exact ⟨e, he, hbelow.trans hplace, lt_of_le_of_lt hbelow.length_le hlt⟩

/-- What lies strictly above a place lies above or at its directory. -/
theorem prefix_dropLast_iff {directory : List String} (hne : place ≠ []) :
    directory <+: place.dropLast ↔ directory <+: place ∧ directory.length < place.length := by
  have hpos : 0 < place.length := List.length_pos_iff.mpr hne
  rw [List.prefix_iff_eq_take, List.prefix_iff_eq_take, List.dropLast_eq_take, List.take_take]
  constructor
  · intro h
    have hlen := congrArg List.length h
    rw [List.length_take] at hlen
    have hmin : min directory.length (place.length - 1) = directory.length := by omega
    rw [hmin] at h
    exact ⟨h, by omega⟩
  · rintro ⟨h, hlt⟩
    have hmin : min directory.length (place.length - 1) = directory.length := by omega
    rw [hmin]
    exact h

/-- The same directories are there. -/
def SameDirectories (files files' : Files) : Prop :=
  ∀ place, files'.isDirectory place = files.isDirectory place

theorem SameDirectories.trans (h : files.SameDirectories files')
    (h' : files'.SameDirectories files'') : files.SameDirectories files'' :=
  fun place => (h' place).trans (h place)

/-- A name that is not the last leads on from a directory. -/
theorem walk?_cons {directory names : List String} (hne : names ≠ []) (name : String) :
    files.walk? directory (name :: names) =
      if files.isDirectory (follow directory name) then
        files.walk? (follow directory name) names else none := by
  cases names with
  | nil => exact absurd rfl hne
  | cons next names => rw [walk?]; simp

/-- All paths lead where they led. -/
theorem SameDirectories.place?_eq (h : files.SameDirectories files') :
    files'.place? = files.place? := by
  have hwalk : ∀ names directory, files'.walk? directory names = files.walk? directory names := by
    intro names
    induction names with
    | nil => exact fun directory => rfl
    | cons name names ih =>
      intro directory
      -- the last name only needs its directory, the others have to be directories
      by_cases hne : names = []
      · subst hne
        simp only [walk?, h _]
      · rw [walk?_cons hne, walk?_cons hne, h, ih]
  funext path
  unfold place?
  rw [hwalk]

/-- **A file may come where its directory is**, and files of this directory may go. -/
theorem sameDirectories_update (hne : place ≠ [])
    (hdirectory : files.isDirectory place.dropLast = true) {kept : List String × Bytes → Bool}
    (hkept : ∀ e ∈ files.entries, kept e = false → e.1.dropLast = place.dropLast)
    (content : Bytes) :
    files.SameDirectories ⟨files.entries.filter kept ++ [(place, content)]⟩ := by
  intro directory
  rw [Bool.eq_iff_iff, isDirectory_iff]
  constructor
  · rintro (hall | ⟨e, he, hbelow, hlt⟩)
    · exact isDirectory_iff.mpr (Or.inl hall)
    rcases List.mem_append.mp he with he | he
    · exact isDirectory_iff.mpr (Or.inr ⟨e, List.mem_of_mem_filter he, hbelow, hlt⟩)
    · obtain rfl := List.mem_singleton.mp he
      exact isDirectory_of_prefix hdirectory ((prefix_dropLast_iff hne).mpr ⟨hbelow, hlt⟩)
  · intro h
    refine (isDirectory_iff.mp h).imp id ?_
    rintro ⟨e, he, hbelow, hlt⟩
    cases hkeep : kept e with
    | true => exact ⟨e, List.mem_append_left _ (List.mem_filter.mpr ⟨he, hkeep⟩), hbelow, hlt⟩
    | false =>
      -- the new file stands for the one that is gone
      have hentry : e.1 ≠ [] := List.ne_nil_of_length_pos (Nat.zero_lt_of_lt hlt)
      have habove := (prefix_dropLast_iff hentry).mpr ⟨hbelow, hlt⟩
      rw [hkept e he hkeep] at habove
      exact ⟨(place, content), List.mem_append_right _ (List.mem_singleton_self _),
        (prefix_dropLast_iff hne).mp habove⟩

/-! ### Places -/

/-- A path leads into a directory that is there. -/
theorem walk?_spec : ∀ {names directory : List String}, files.isDirectory directory = true →
    files.walk? directory names = some place →
    place ≠ [] ∧ files.isDirectory place.dropLast = true := by
  intro names directory hdirectory h
  fun_induction files.walk? directory names with
  | case1 => exact nomatch h
  | case2 directory name place' hname =>
    obtain rfl := Option.some.inj h
    exact ⟨List.concat_ne_nil _ _, by rwa [List.dropLast_concat]⟩
  | case3 => exact nomatch h
  | case4 directory name rest hrest next hnext ih => exact ih hnext h
  | case5 => exact nomatch h

theorem place?_spec {path : String} (h : files.place? path = some place) :
    place ≠ [] ∧ files.isDirectory place.dropLast = true := by
  have htop : files.isDirectory [] = true := rfl
  unfold place? at h
  split_ifs at h
  exact walk?_spec htop h

/-- Names that differ in the last only lead into one directory. -/
theorem walk?_concat {last last' : String} {place' : List String} :
    ∀ {names directory : List String}, files.walk? directory (names ++ [last]) = some place →
      files.walk? directory (names ++ [last']) = some place' →
      ∃ parent, place = parent ++ [last] ∧ place' = parent ++ [last'] := by
  intro names
  -- the walk depends on the last name only where it ends
  induction names with
  | nil =>
    intro directory h h'
    simp only [List.nil_append, walk?, Option.ite_none_right_eq_some, Option.some.injEq] at h h'
    exact ⟨directory, h.2.symm, h'.2.symm⟩
  | cons name names ih =>
    intro directory h h'
    have hne : ∀ final, names ++ [final] ≠ [] := fun final => List.concat_ne_nil final names
    rw [List.cons_append, walk?_cons (hne _)] at h h'
    split_ifs at h h'
    exact ih h h'

/-- A key file and the temporary file beside it are two files in one directory. -/
theorem place?_temporaryPath {path : String} {temporary : List String}
    (h : files.place? path = some place) (h' : files.place? (temporaryPath path) = some temporary) :
    place ≠ temporary ∧ place.dropLast = temporary.dropLast := by
  -- the suffix has no slash, so it changes the last name alone
  have hsuffix : '/' ∉ ".tmp".toList := by decide
  obtain ⟨parts, last, hparts, happend⟩ := Text.exists_splitOn_append hsuffix path.toList
  unfold place? at h h'
  split_ifs at h h'
  rw [hparts, List.map_append] at h
  rw [temporaryPath, String.toList_append, happend, List.map_append] at h'
  obtain ⟨parent, rfl, rfl⟩ := walk?_concat h h'
  refine ⟨?_, by rw [List.dropLast_concat, List.dropLast_concat]⟩
  intro heq
  have hnames := List.singleton_inj.mp (List.append_cancel_left heq)
  have hlast := String.ofList_injective hnames
  have hlen := congrArg List.length hlast
  rw [List.length_append] at hlen
  have hpos : 0 < ".tmp".toList.length := by decide
  omega

/-! ### Content -/

theorem lookup_put (content : Bytes) (other : List String) :
    (files.put place content).entries.lookup other
      = if other = place then some content else files.entries.lookup other := by
  unfold put
  rw [List.lookup_append, Association.lookup_filter_ne]
  split_ifs with h
  · subst h
    simp
  · have hne : (other == place) = false := by simpa using h
    simp [List.lookup, hne]

theorem lookup_remove (other : List String) :
    (files.remove place).entries.lookup other
      = if other = place then none else files.entries.lookup other :=
  Association.lookup_filter_ne files.entries place other

/-- A file has new content, and nothing else has changed. -/
structure Writes (files files' : Files) (path : String) (content : Bytes) : Prop where
  directories : files.SameDirectories files'
  read?_eq : ∀ other, files'.read? other =
    if files.place? other = files.place? path then some content else files.read? other

theorem writes_put {path : String} (h : files.place? path = some place) (content : Bytes) :
    files.Writes (files.put place content) path content := by
  obtain ⟨hne, hdirectory⟩ := place?_spec h
  have hkept : ∀ e ∈ files.entries, (e.1 != place) = false → e.1.dropLast = place.dropLast := by
    intro e _ he
    rw [bne_eq_false_iff_eq.mp he]
  have hdirectories : files.SameDirectories (files.put place content) :=
    sameDirectories_update hne hdirectory hkept content
  refine ⟨hdirectories, fun other => ?_⟩
  unfold read?
  rw [hdirectories.place?_eq, h]
  cases files.place? other with
  | none => simp
  | some found => simp [lookup_put]

/-- Two paths do not lead to the same file. -/
def Apart (files : Files) (a b : String) : Prop :=
  ∀ place, files.place? a = some place → files.place? b ≠ some place

theorem Apart.congr {a b : String} (h : files.Apart a b)
    (hdirectories : files.SameDirectories files') : files'.Apart a b := by
  unfold Apart
  rw [hdirectories.place?_eq]
  exact h

theorem Apart.of_place?_eq {a b c : String} (h : files.Apart a b)
    (hplace : files.place? b = files.place? c) : files.Apart a c := by
  intro place ha hc
  exact h place ha (hplace.trans hc)

/-- A file apart from the one written is as it was. -/
theorem Writes.read?_of_apart {written path : String} {content : Bytes}
    (h : files.Writes files' written content) (hapart : files.Apart written path)
    (hplace : (files.place? written).isSome) : files'.read? path = files.read? path := by
  obtain ⟨place, hsome⟩ := Option.isSome_iff_exists.mp hplace
  have hne : files.place? path ≠ files.place? written := by
    rw [hsome]
    exact hapart place hsome
  rw [h.read?_eq, if_neg hne]

end Files

/-! ### Effects -/

namespace Effect

variable {files files' : Files} {effect : Effect} {path : String} {content : Bytes}

/-- The path that an effect writes to, and the content of the file afterwards. -/
def written? : Effect → Option (String × Bytes)
  | create path => some (path, [])
  | write path content => some (path, content)
  | rename _ _ => none

/-- An effect that is cut off. A file is made or emptied in one go, and so is one put in place of
another; a file that is being written may be left with no more than the front of its content. -/
inductive Torn (files : Files) : Effect → Files → Prop where
  | write {path : String} {content : Bytes} {files' : Files} {size : Nat} : size < content.length →
      Effect.apply? files (write path (content.take size)) = some files' →
      Torn files (write path content) files'

theorem writes_of_apply (hwritten : effect.written? = some (path, content))
    (h : effect.apply? files = some files') :
    (files.place? path).isSome ∧ files.Writes files' path content := by
  -- creating a file is writing nothing to it
  have hput : (files.place? path).map (files.put · content) = some files' := by
    cases effect with
    | create target =>
      obtain ⟨rfl, rfl⟩ := Prod.mk.inj (Option.some.inj hwritten)
      exact h
    | write target bytes =>
      obtain ⟨rfl, rfl⟩ := Prod.mk.inj (Option.some.inj hwritten)
      exact h
    | rename => exact nomatch hwritten
  obtain ⟨place, hplace, rfl⟩ := Option.map_eq_some_iff.mp hput
  exact ⟨Option.isSome_of_eq_some hplace, Files.writes_put hplace content⟩

theorem writes_of_torn (hwritten : effect.written? = some (path, content))
    (h : effect.Torn files files') :
    ∃ front, (files.place? path).isSome ∧ files.Writes files' path front := by
  obtain ⟨-, hfront⟩ := h
  obtain ⟨rfl, rfl⟩ := Prod.mk.inj (Option.some.inj hwritten)
  exact ⟨_, writes_of_apply rfl hfront⟩

/-- A key file that is replaced has the content of the temporary file. -/
theorem moves_of_apply (h : Effect.apply? files (rename (temporaryPath path) path) = some files') :
    ∃ content, files.read? (temporaryPath path) = some content ∧ files.SameDirectories files' ∧
      ∀ other, files'.read? other =
        if files.place? other = files.place? path then some content
        else if files.place? other = files.place? (temporaryPath path) then none
        else files.read? other := by
  rw [ Effect.apply?] at h
  split at h
  next source target content hsource htarget hcontent =>
    obtain rfl := Option.some.inj h
    obtain ⟨-, hparent⟩ := Files.place?_temporaryPath htarget hsource
    obtain ⟨hne, hdirectory⟩ := Files.place?_spec htarget
    -- both entries that go are in the directory to which one comes
    have hkept : ∀ e ∈ files.entries, (e.1 != target && e.1 != source) = false →
        e.1.dropLast = target.dropLast := by
      intro e _ he
      rcases Bool.and_eq_false_iff.mp he with he | he
      · rw [bne_eq_false_iff_eq.mp he]
      · rw [bne_eq_false_iff_eq.mp he, hparent]
    have hdirectories : files.SameDirectories ((files.remove source).put target content) := by
      unfold Files.remove Files.put
      rw [List.filter_filter]
      exact Files.sameDirectories_update hne hdirectory hkept content
    refine ⟨content, hcontent, hdirectories, fun other => ?_⟩
    unfold Files.read?
    rw [hdirectories.place?_eq, htarget, hsource]
    cases files.place? other with
    | none => simp
    | some found => simp [Files.lookup_put, Files.lookup_remove]
  next => exact nomatch h

/-- Once the temporary file has its content, the key file has it too. -/
theorem read?_of_replace {files'' : Files}
    (hwrite : files.Writes files' (temporaryPath path) content)
    (hrename : Effect.apply? files' (rename (temporaryPath path) path) = some files'') :
    files.SameDirectories files'' ∧
      ∀ other, files.place? other = files.place? path → files''.read? other = some content := by
  obtain ⟨moved, hmoved, hdirectories, hreads⟩ := moves_of_apply hrename
  rw [hwrite.read?_eq, if_pos rfl] at hmoved
  refine ⟨hwrite.directories.trans hdirectories, fun other hother => ?_⟩
  rw [hreads, hwrite.directories.place?_eq, if_pos hother, hmoved]

/-- A key file can be replaced if there is a place for the temporary file. -/
theorem exists_replace (hpath : (files.place? path).isSome)
    (htemporary : (files.place? (temporaryPath path)).isSome) (content : Bytes) :
    ∃ files₁ files₂ files₃, Effect.apply? files (create (temporaryPath path)) = some files₁ ∧
      Effect.apply? files₁ (write (temporaryPath path) content) = some files₂ ∧
      Effect.apply? files₂ (rename (temporaryPath path) path) = some files₃ := by
  obtain ⟨target, htarget⟩ := Option.isSome_iff_exists.mp hpath
  obtain ⟨place, hplace⟩ := Option.isSome_iff_exists.mp htemporary
  -- creating and writing the temporary file leaves every path where it leads
  set files₁ := files.put place []
  have hcreate : files.Writes files₁ (temporaryPath path) [] := Files.writes_put hplace []
  have hplace₁ : files₁.place? (temporaryPath path) = some place := by
    rw [hcreate.directories.place?_eq, hplace]
  set files₂ := files₁.put place content
  have hwrite : files₁.Writes files₂ (temporaryPath path) content :=
    Files.writes_put hplace₁ content
  have hplaces : files₂.place? = files.place? :=
    hwrite.directories.place?_eq.trans hcreate.directories.place?_eq
  have hrename : ( Effect.apply? files₂ (rename (temporaryPath path) path)).isSome := by
    rw [ Effect.apply?, hwrite.read?_eq, if_pos rfl, hplaces, hplace, htarget]
    rfl
  obtain ⟨files₃, hrename⟩ := Option.isSome_iff_exists.mp hrename
  refine ⟨files₁, files₂, files₃, ?_, ?_, hrename⟩
  · rw [ Effect.apply?, hplace, Option.map_some]
  · rw [ Effect.apply?, hplace₁, Option.map_some]

end Effect

end Hypertree.Command
