import Hypertree.Proofs.Session

/-!
# Custody of a key

A key in custody is a session and the image of the key that was stored last. A reservation may be
committed only if an image taken after it has been stored. A crash loses the key and every index in
flight, and the image is read back. Signing at the next index without storing it first is left out:
a crash would hand the same index out again.

`Custody.Sound` is the invariant of every run (`Run.sound`). It orders three kinds of indices: those
committed, signed with or reserved before the image was taken lie below the index of the image,
the index of the image is at most the next index, and younger reservations lie below the next index.
All of them are distinct. A crash goes back to the index of the image, above everything that can
have been signed with.
-/

namespace Hypertree

/-- A key at work whose images are stored. The reservations of the session are those younger than
the image. -/
structure Custody extends Session where
  /-- The image of the key that was stored last. -/
  image : Bytes
  /-- Reservations older than the image, neither committed nor dropped. -/
  stored : List Reservation

namespace Custody

/-- Custody begins with a key that has been stored. -/
def start (key : PrivateKey) : Custody :=
  { Session.start key with image := key.toBytes, stored := [] }

/-- One operation, by an engine that agrees with a given one. -/
inductive Step (e : Engine) : Custody → Custody → Prop where
  /-- The next index is reserved. -/
  | reserve {s : Custody} {r : Reservation} {key : PrivateKey} : s.key.reserve = .ok (r, key) →
      Step e s { s with key, reservations := r :: s.reservations }
  /-- A reservation younger than the image is given up. -/
  | dropFresh {s : Custody} {r : Reservation} : r ∈ s.reservations →
      Step e s { s with reservations := s.reservations.erase r }
  /-- A reservation older than the image is given up. -/
  | dropStored {s : Custody} {r : Reservation} : r ∈ s.stored →
      Step e s { s with stored := s.stored.erase r }
  /-- An image of the key is stored. -/
  | store {s : Custody} : Step e s { s with
      image := s.key.toBytes
      reservations := []
      stored := s.reservations ++ s.stored }
  /-- A reservation older than the image is committed. -/
  | commit {s : Custody} {r : Reservation} : r ∈ s.stored →
      Step e s { s with
        stored := s.stored.erase r
        committed := r.commit :: s.committed }
  /-- A message is signed at any committed index, which is consumed. -/
  | sign {s : Custody} {e' : Engine} (c : CommittedIndex) (message : Bytes) (selector : Selector) :
      e.Agrees e' → c ∈ s.committed →
      Step e s { s with
        toSession := { s.toSession with committed := s.committed.erase c }.record selector c.index
          message (e'.signCommitted s.key c message selector) }
  /-- Cached nodes are evicted. -/
  | evict {s : Custody} {e' : Engine} : e.Agrees e' →
      Step e s { s with key := (e'.evict s.key).2 }
  /-- A committed index that bears the tag of another key is presented. -/
  | foreign {s : Custody} {e' : Engine} (c : CommittedIndex) (message : Bytes)
      (selector : Selector) : e.Agrees e' → c.tag ≠ s.key.tag →
      Step e s { s with
        toSession := s.record selector c.index message (e'.signCommitted s.key c message selector) }
  /-- Memory is lost, and the image is read back. -/
  | crash {s : Custody} {key : PrivateKey} : PrivateKey.ofBytes s.image = .ok key →
      Step e s { s with key, reservations := [], stored := [], committed := [] }

/-- Any number of operations. -/
def Run (e : Engine) : Custody → Custody → Prop :=
  Relation.ReflTransGen (Step e)

/-! ### The invariant -/

/-- The session with all outstanding reservations, whether older or younger than the image. -/
def outstanding (s : Custody) : Session :=
  { s.toSession with reservations := s.reservations ++ s.stored }

/-- The indices that a crash does not hand out again: reserved before the image was taken,
committed, or signed with. -/
def covered (s : Custody) : List Nat :=
  s.stored.map (·.index) ++ (s.committed.map (·.index) ++ s.issued.map (·.index))

/-- All indices that were handed out and not lost. -/
def indices (s : Custody) : List Nat :=
  s.reservations.map (·.index) ++ s.covered

/-- What holds in custody of a key at any time. -/
structure Sound (e : Engine) (key : PrivateKey) (s : Custody) : Prop where
  session : s.outstanding.Sound e key
  /-- The image is that of a sound key, whose index lies above all that is covered. -/
  image : ∃ kept : PrivateKey, kept.SoundFor e ∧ key.Evolves kept ∧ s.image = kept.toBytes ∧
    kept.index ≤ s.key.index ∧ ∀ i ∈ s.covered, i < kept.index
  nodup : s.indices.Nodup

variable {e : Engine} {key : PrivateKey} {s s' : Custody}

theorem sound_start (h : key.SoundFor e) : (start key).Sound e key where
  session := Session.sound_start h
  image := ⟨key, h, .refl key, rfl, le_rfl, fun _ hi => nomatch hi⟩
  nodup := List.nodup_nil

/-- Everything handed out lies below the next index. -/
theorem Sound.lt_index (h : s.Sound e key) {i : Nat} (hi : i ∈ s.indices) : i < s.key.index := by
  rcases List.mem_append.mp hi with hi | hi
  · obtain ⟨r, hr, rfl⟩ := List.mem_map.mp hi
    exact (h.session.reserved r (List.mem_append_left _ hr)).2
  · obtain ⟨kept, -, -, -, hle, hcovered⟩ := h.image
    exact lt_of_lt_of_le (hcovered i hi) hle

/-! ### One operation -/

/-- An operation that stores no image and hands out no index. -/
theorem Sound.keep (h : s.Sound e key) (hsession : s'.outstanding.Sound e key)
    (himage : s'.image = s.image) (hindex : s.key.index ≤ s'.key.index)
    (hreservations : s'.reservations.Sublist s.reservations)
    (hcovered : s'.covered.Subperm s.covered) : s'.Sound e key := by
  obtain ⟨kept, hkept, hevolves, heq, hle, hlt⟩ := h.image
  have hlt' : ∀ i ∈ s'.covered, i < kept.index := by
    intro i hi
    exact hlt i (hcovered.subset hi)
  -- indices are only lost, up to their order
  have hsub : s'.indices.Subperm s.indices :=
    ((List.subperm_append_right _).mpr (hreservations.map _).subperm).trans
      ((List.subperm_append_left _).mpr hcovered)
  obtain ⟨indices, hperm, hsublist⟩ := hsub
  have hnodup : s'.indices.Nodup := hperm.nodup_iff.mp (h.nodup.sublist hsublist)
  exact ⟨hsession, ⟨kept, hkept, hevolves, himage.trans heq, hle.trans hindex, hlt'⟩, hnodup⟩

/-- A token that moves to the next list keeps its index. -/
theorem map_erase_append_perm {α : Type} [BEq α] [LawfulBEq α] {l : List α} {a : α} (h : a ∈ l)
    (f : α → Nat) (rest : List Nat) :
    ((l.erase a).map f ++ f a :: rest).Perm (l.map f ++ rest) := by
  have hmap : (f a :: (l.erase a).map f).Perm (l.map f) := ((List.perm_cons_erase h).symm.map f)
  exact List.perm_middle.trans (hmap.append_right rest)

/-- An attempt to sign adds at most its own index to those signed with. -/
theorem record_issued_sublist (s : Session) (selector : Selector) (index : Nat) (message : Bytes)
    (outcome : Except Error Signature × PrivateKey) :
    ((s.record selector index message outcome).issued.map (·.index)).Sublist
      (index :: s.issued.map (·.index)) := by
  unfold Session.record
  cases outcome.1 with
  | error err => exact List.sublist_cons_self ..
  | ok signature => exact List.Sublist.refl _

/-- A new reservation has the next index, which nothing else has. -/
theorem Sound.reserve (h : s.Sound e key) {r : Reservation} {key' : PrivateKey}
    (hreserve : s.key.reserve = .ok (r, key')) :
    { s with key := key', reservations := r :: s.reservations }.Sound e key := by
  have hsession := (Session.Step.reserve (s := s.outstanding) hreserve).sound h.session
  have hnew : s.key.index ∉ s.indices := by
    intro hmem
    exact (h.lt_index hmem).false
  obtain ⟨kept, hkept, hevolves, heq, hle, hlt⟩ := h.image
  obtain ⟨-, rfl, rfl⟩ := PrivateKey.reserve_eq_ok_iff.mp hreserve
  refine ⟨hsession, ?_, List.nodup_cons.mpr ⟨hnew, h.nodup⟩⟩
  exact ⟨kept, hkept, hevolves, heq, hle.trans (Nat.le_succ _), hlt⟩

/-- Once the key is stored, the image covers all that was handed out. -/
theorem Sound.store (h : s.Sound e key) :
    { s with
      image := s.key.toBytes
      reservations := []
      stored := s.reservations ++ s.stored }.Sound e key := by
  -- the reservations become stored ones, and the indices are the same list
  have hindices : (s.reservations ++ s.stored).map (·.index) ++
      (s.committed.map (·.index) ++ s.issued.map (·.index)) = s.indices := by
    rw [List.map_append, List.append_assoc]
    rfl
  have hnodup := h.nodup
  rw [← hindices] at hnodup
  refine ⟨h.session, ?_, hnodup⟩
  refine ⟨s.key, h.session.key_sound, h.session.evolves, rfl, le_rfl, ?_⟩
  intro i hi
  exact h.lt_index (hindices ▸ hi)

/-- The image is read back as a key whose index lies above all that was signed with. -/
theorem Sound.crash (h : s.Sound e key) {key' : PrivateKey}
    (hread : PrivateKey.ofBytes s.image = .ok key') :
    { s with key := key', reservations := [], stored := [], committed := [] }.Sound e key := by
  -- the image is past all indices issued so far; the tokens in memory are lost
  obtain ⟨kept, hkept, hevolves, heq, -, hlt⟩ := h.image
  rw [heq, PrivateKey.ofBytes_toBytes hkept.wellFormed] at hread
  obtain rfl := Except.ok.inj hread
  have hissued : (s.issued.map (·.index)).Sublist s.covered :=
    (List.sublist_append_right ..).trans (List.sublist_append_right ..)
  refine ⟨?_, ?_, h.nodup.sublist (hissued.trans (List.sublist_append_right ..))⟩
  · exact { h.session with
      key_sound := hkept.atIndex
      evolves := hevolves.trans (kept.evolves_update _ _)
      reserved := fun _ hr => nomatch hr
      committed := fun _ hc => nomatch hc }
  · refine ⟨kept, hkept, hevolves, heq, le_rfl, ?_⟩
    intro i hi
    exact hlt i (hissued.subset hi)

/-- **Every operation keeps custody sound.** -/
theorem Step.sound (hstep : Step e s s') (h : s.Sound e key) : s'.Sound e key := by
  have hkey : s.key.SoundFor e := h.session.key_sound
  cases hstep with
  | reserve hreserve => exact h.reserve hreserve
  | dropFresh hr =>
    refine h.keep ?_ rfl le_rfl List.erase_sublist (.refl _)
    exact h.session.of_subset (List.erase_sublist.append_right _).subset (List.Subset.refl _)
  | @dropStored r hr =>
    have hcovered : ((s.stored.erase r).map (·.index)).Subperm (s.stored.map (·.index)) :=
      (List.erase_sublist.map _).subperm
    refine h.keep ?_ rfl le_rfl (.refl _) ((List.subperm_append_right _).mpr hcovered)
    exact h.session.of_subset (List.erase_sublist.append_left _).subset (List.Subset.refl _)
  | store => exact h.store
  | @commit r hr =>
    have hr' : r ∈ s.reservations ++ s.stored := List.mem_append_right _ hr
    refine h.keep ?_ rfl le_rfl (.refl _) (map_erase_append_perm hr _ _).subperm
    have hleft : s.reservations ++ s.stored.erase r ⊆ s.reservations ++ s.stored :=
      (List.erase_sublist.append_left _).subset
    refine { h.session.of_subset hleft (List.Subset.refl _) with committed := ?_ }
    intro c hc
    rcases List.mem_cons.mp hc with rfl | hc
    · exact h.session.reserved r hr'
    · exact h.session.committed c hc
  | sign c message selector hagree hc =>
    have hsession := (Session.Step.signCommitted (s := s.outstanding) c message selector hagree
      hc).sound h.session
    have hindex := (Engine.signCommitted_spec (hkey.congr hagree) c message selector).2.2.1
    refine h.keep hsession rfl hindex.ge (.refl _) ?_
    -- the index moves from the committed ones to those signed with, or is lost
    refine (List.subperm_append_left _).mpr ?_
    refine List.Subperm.trans ?_ (map_erase_append_perm hc (·.index) _).subperm
    exact (List.subperm_append_left _).mpr (record_issued_sublist ..).subperm
  | evict hagree =>
    have hsession := (Session.Step.evict (s := s.outstanding) hagree).sound h.session
    exact h.keep hsession rfl le_rfl (.refl _) (.refl _)
  | foreign c message selector hagree htag =>
    -- refused before anything is done
    rw [Engine.signCommitted_of_tag_ne (hkey.congr hagree) htag]
    exact h
  | crash hread => exact h.crash hread

/-- **Custody of a sound key stays sound.** -/
theorem Run.sound (hkey : key.SoundFor e) (hrun : Run e (start key) s) : s.Sound e key := by
  -- the induction is on the operations made
  induction hrun with
  | refl => exact sound_start hkey
  | tail _ hstep ih => exact hstep.sound ih

/-! ### What is signed in custody -/

/-- A signature carries the index that it was asked for. -/
theorem Sound.issued_index_eq (h : s.Sound e key) :
    s.issued.map (·.signature.index) = s.issued.map (·.index) := by
  apply List.map_congr_left
  intro i hi
  exact (e.reference?_leaf_eq (h.session.issued i hi).2).1

/-- What was signed with is covered. -/
theorem issued_sublist_covered (s : Custody) : (s.issued.map (·.index)).Sublist s.covered :=
  (List.sublist_append_right ..).trans (List.sublist_append_right ..)

theorem Sound.nodup_issued (h : s.Sound e key) : (s.issued.map (·.signature.index)).Nodup := by
  rw [h.issued_index_eq]
  exact h.nodup.sublist (s.issued_sublist_covered.trans (List.sublist_append_right ..))

/-- A crash at any time goes back to a key whose index lies above all that was signed with. -/
theorem Sound.exists_kept (h : s.Sound e key) :
    ∃ kept, PrivateKey.ofBytes s.image = .ok kept ∧
      ∀ i ∈ s.issued, i.signature.index < kept.index := by
  obtain ⟨kept, hkept, -, heq, -, hlt⟩ := h.image
  refine ⟨_, heq ▸ PrivateKey.ofBytes_toBytes hkept.wellFormed, ?_⟩
  intro i hi
  have hmem : i.signature.index ∈ s.issued.map (·.index) := by
    rw [← h.issued_index_eq]
    exact List.mem_map_of_mem hi
  exact hlt _ (s.issued_sublist_covered.subset hmem)

/-- Tree and leaf of the bottom layer determine the index. -/
theorem nodup_bottom {height : Nat} (hh : height ≤ 32) {issued : List Issued}
    (h : (issued.map (·.signature.index)).Nodup) :
    (issued.map fun i => (treeIndex i.signature.index 0 height,
      leafIndex i.signature.index 0 height)).Nodup := by
  -- tree and leaf of the bottom layer make up the index
  refine List.Nodup.of_map (fun p => p.1 * 2 ^ height + p.2) ?_
  have hindices : (issued.map fun i => (treeIndex i.signature.index 0 height,
      leafIndex i.signature.index 0 height)).map (fun p => p.1 * 2 ^ height + p.2)
      = issued.map (·.signature.index) := by
    rw [List.map_map]
    apply List.map_congr_left
    intro i _
    exact (index_eq hh i.signature.index).symm
  rw [hindices]
  exact h

/-- **As long as indices are left, the next one can be signed with**: reserved, stored, committed
and signed. -/
theorem Sound.exists_issue (h : s.Sound e key) (hrooted : key.Rooted e)
    (hindex : s.key.index < e.params.maxSignatures) (selector : Selector)
    (hselector : (e.setting? selector).isSome) (message : Bytes) :
    ∃ s' signature, Run e s s' ∧ s'.key.index = s.key.index + 1 ∧
      s'.issued = ⟨selector, s.key.index, message, signature⟩ :: s.issued := by
  have hkey : s.key.SoundFor e := h.session.key_sound
  rw [← hkey.maxSignatures] at hindex
  set r : Reservation := ⟨s.key.index, s.key.tag⟩
  set s₁ : Custody := { s with
    key := { s.key with index := s.key.index + 1 }, reservations := r :: s.reservations }
  set s₂ : Custody := { s₁ with
    image := s₁.key.toBytes, reservations := [], stored := s₁.reservations ++ s₁.stored }
  set s₃ : Custody := { s₂ with
    stored := s₂.stored.erase r, committed := r.commit :: s₂.committed }
  have hreserve : Step e s s₁ :=
    Step.reserve (PrivateKey.reserve_eq_ok_iff.mpr ⟨hindex, rfl, rfl⟩)
  have hstore : Step e s₁ s₂ := Step.store
  have hcommit : Step e s₂ s₃ := Step.commit List.mem_cons_self
  have hsign := Step.sign (s := s₃) r.commit message selector (.refl e) List.mem_cons_self
  have hsound := hcommit.sound (hstore.sound (hreserve.sound h))
  -- the committed index is the key's own, so signing returns the reference
  have hkey₃ : s₃.key.SoundFor e := hsound.session.key_sound
  have href : e.reference? s₃.key = e.reference? key := hsound.session.reference?_eq (.refl e)
  obtain ⟨t, hs⟩ := Option.isSome_iff_exists.mp hselector
  have hroot := hrooted selector
  rw [hs, Option.map_some] at hroot
  have hown : s₃.key.checkCommitted r.commit = .ok () := Engine.checkCommitted_next s.key
  have hout := Engine.signCommitted_outcome hkey₃ hown message selector
  rw [href, e.reference?_eq hs hroot] at hout
  have hkeep := (Engine.signCommitted_spec hkey₃ r.commit message selector).2.2.1
  cases hresult : (e.signCommitted s₃.key r.commit message selector).1 with
  | error err =>
    rw [hresult] at hout
    exact nomatch hout
  | ok signature =>
    refine ⟨_, signature, (((Relation.ReflTransGen.single hreserve).tail hstore).tail hcommit).tail
      hsign, hkeep, ?_⟩
    simp only [Session.record, hresult]
    rfl

/-- **In custody no index signs twice.** Whatever is done to a generated key whose images are
stored, the signatures returned carry distinct indices, so no leaf of a bottom tree signs twice.
Above the bottom layer, a leaf that signs again under the same selector signs the same root, with
the same one-time signature. Committed indices that bear the tag of another key are refused and
change nothing, and the image can always be read back, beyond every index signed with. -/
theorem issued_index_nodup (e : Engine) {publicSeed secretSeed secretPrf : Bytes}
    {nonces : NonceTable} (h : e.SeedsFit publicSeed secretSeed secretPrf nonces) :
    ∃ key, e.generateFromSeeds publicSeed secretSeed secretPrf nonces = .ok (key, key.publicKey) ∧
      ∀ s, Run e (start key) s →
        (s.issued.map (·.signature.index)).Nodup ∧
        (s.issued.map fun i => (treeIndex i.signature.index 0 e.params.treeHeight,
          leafIndex i.signature.index 0 e.params.treeHeight)).Nodup ∧
        (∀ i ∈ s.issued, ∀ x ∈ i.signature.layers, x.layer < e.params.layers ∧
          x.leaf = leafIndex i.signature.index x.layer e.params.treeHeight) ∧
        (∀ i ∈ s.issued, ∀ j ∈ s.issued, i.selector = j.selector →
          ∀ x ∈ i.signature.layers, ∀ y ∈ j.signature.layers, x.layer = y.layer → x.layer ≠ 0 →
            treeIndex i.signature.index x.layer e.params.treeHeight
              = treeIndex j.signature.index y.layer e.params.treeHeight →
            x.leaf = y.leaf → x.ots = y.ots) ∧
        (∀ e', e.Agrees e' → ∀ c : CommittedIndex, c.tag ≠ key.tag → ∀ message selector,
          e'.signCommitted s.key c message selector = (.error .foreignReservation, s.key)) ∧
        ∃ kept, PrivateKey.ofBytes s.image = .ok kept ∧
          ∀ i ∈ s.issued, i.signature.index < kept.index := by
  obtain ⟨key, hgen, -, -, -, hkey, -⟩ := Engine.generateFromSeeds_eq h
  refine ⟨key, hgen, ?_⟩
  intro s hrun
  have hsound := hrun.sound hkey
  -- what was issued is the reference, which the index determines above the bottom layer
  have href : ∀ i ∈ s.issued, e.reference? key i.selector i.index i.message = some i.signature :=
    fun i hi => (hsound.session.issued i hi).2
  have hh : e.params.treeHeight ≤ 32 := le_trans e.header_valid.treeHeight_le (by decide)
  refine ⟨hsound.nodup_issued, nodup_bottom hh hsound.nodup_issued, ?_, ?_, ?_, hsound.exists_kept⟩
  · intro i hi
    exact (e.reference?_leaf_eq (href i hi)).2
  · intro i hi j hj hselector x hx y hy hlayer hbottom htree hleaf
    have hj' := href j hj
    rw [← hselector] at hj'
    exact e.reference?_ots_eq (href i hi) hj' hx hy hlayer hbottom htree hleaf
  · intro e' hagree c htag message selector
    have hkey' : s.key.SoundFor e' := hsound.session.key_sound.congr hagree
    rw [← hsound.session.evolves.tag_eq] at htag
    exact Engine.signCommitted_of_tag_ne hkey' htag message selector

/-- The first two indices of a fresh key of `Engine.small`, signed with in custody, share the leaf
of the top layer and its one-time signature. -/
theorem issued_index_nodup_small :
    ∃ key s sig sig', Engine.small.generateFromSeeds (Bytes.zeros 32) (Bytes.zeros 32)
        (Bytes.zeros 32) ⟨Array.replicate 2 ⟨0, 0⟩⟩ = .ok (key, key.publicKey) ∧
      Run Engine.small (start key) s ∧
      s.issued = [⟨.primary, 1, [], sig'⟩, ⟨.primary, 0, [], sig⟩] ∧
      (s.issued.map (·.signature.index)).Nodup ∧
      ∀ x ∈ sig.layers, ∀ y ∈ sig'.layers, x.layer = 1 → y.layer = 1 → x.ots = y.ots := by
  obtain ⟨key, hgen, hruns⟩ := issued_index_nodup Engine.small Engine.seedsFit_small
  obtain ⟨key', hgen', hindex, -, -, hkey, hrooted⟩ :=
    Engine.generateFromSeeds_eq Engine.seedsFit_small
  obtain rfl : key = key' := (Prod.mk.inj (Except.ok.inj (hgen.symm.trans hgen'))).1
  have hsound := sound_start hkey
  -- two signatures, one after the other
  obtain ⟨s₁, sig, hrun₁, hindex₁, hissued₁⟩ := hsound.exists_issue hrooted
    (by rw [show (start key).key.index = 0 from hindex]; decide) .primary rfl []
  rw [show (start key).key.index = 0 from hindex] at hindex₁ hissued₁
  obtain ⟨s₂, sig', hrun₂, -, hissued₂⟩ := (hrun₁.sound hkey).exists_issue hrooted
    (by rw [hindex₁]; decide) .primary rfl []
  rw [hindex₁, hissued₁] at hissued₂
  have hrun : Run Engine.small (start key) s₂ := hrun₁.trans hrun₂
  obtain ⟨hnodup, -, hleaf, hots, -⟩ := hruns s₂ hrun
  refine ⟨key, s₂, sig, sig', hgen, hrun, hissued₂, hnodup, ?_⟩
  intro x hx y hy hx₁ hy₁
  have hi : ⟨.primary, 0, [], sig⟩ ∈ s₂.issued := by rw [hissued₂]; simp
  have hj : ⟨.primary, 1, [], sig'⟩ ∈ s₂.issued := by rw [hissued₂]; simp
  have hissued := (hrun.sound hkey).session.issued
  have hfirst : sig.index = 0 := (Engine.reference?_leaf_eq _ (hissued _ hi).2).1
  have hsecond : sig'.index = 1 := (Engine.reference?_leaf_eq _ (hissued _ hj).2).1
  -- both indices use the same leaf of the top layer
  refine hots _ hi _ hj rfl x hx y hy (hx₁.trans hy₁.symm) (by rw [hx₁]; exact one_ne_zero) ?_ ?_
  · rw [hfirst, hsecond, hx₁, hy₁]
    rfl
  · rw [(hleaf _ hi x hx).2, (hleaf _ hj y hy).2, hfirst, hsecond, hx₁, hy₁]
    rfl

end Custody

end Hypertree
