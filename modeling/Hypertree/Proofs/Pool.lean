import Hypertree.Pool
import Hypertree.Proofs.Association

/-!
# Pools keep what their holders do apart

Holders take objects from a pool, change them and give them back in any order. A ledger that watches
only these actions knows who has an object and how many were ever out at one time (`Ledger`). The
pool agrees with it: each object that was created is idle or held, and none is created before all
others are held, so there are as many as were ever held at one time.

A holder's view of the pool is that of someone with objects of its own, each of them new when it is
taken (`get?_run`). For digest states this says that a digest is that of the bytes which its holder
has put in since it took the state or last finished one, whatever the others did meanwhile
(`digest?_eq`).
-/

namespace Hypertree

variable {α : Type} {r : Recycling α}

/-! ### One object -/

namespace Pool

variable {p : Pool α} {out : Nat}

/-- A pool from which a number of objects are out: it lost none, and those that are idle are as good
as new. -/
structure Sound (r : Recycling α) (p : Pool α) (out : Nat) : Prop where
  fresh_of_mem : ∀ item ∈ p.free, item = r.fresh
  idle_add_out : p.idle + out = p.created

theorem sound_empty : Sound r empty 0 :=
  ⟨by simp [empty], rfl⟩

theorem Sound.acquire_fst (h : p.Sound r out) : (p.acquire r).1 = r.fresh := by
  unfold acquire
  split
  · next item rest hfree => exact h.fresh_of_mem item (by simp [hfree])
  · rfl

theorem Sound.acquire (h : p.Sound r out) : (p.acquire r).2.Sound r (out + 1) := by
  have hidle := h.idle_add_out
  unfold Pool.acquire
  split
  · next item rest hfree =>
    refine ⟨fun other hmem => h.fresh_of_mem other (by simp [hfree, hmem]), ?_⟩
    simp only [idle, hfree, List.length_cons] at hidle ⊢
    omega
  · next hfree =>
    refine ⟨h.fresh_of_mem, ?_⟩
    simp only [idle, hfree, List.length_nil] at hidle ⊢
    omega

/-- An object is created only if all others are out. -/
theorem Sound.created_acquire (h : p.Sound r out) :
    (p.acquire r).2.created = max p.created (out + 1) := by
  have hidle := h.idle_add_out
  unfold Pool.acquire
  split
  · next item rest hfree =>
    simp only [idle, hfree, List.length_cons] at hidle ⊢
    omega
  · next hfree =>
    simp only [idle, hfree, List.length_nil] at hidle ⊢
    omega

theorem Sound.release (h : p.Sound r (out + 1))
    (item : α) : (p.release r item).Sound r out := by
  refine ⟨fun other hmem => ?_, ?_⟩
  · rcases List.mem_cons.mp hmem with rfl | hmem
    · exact r.clear_eq item
    · exact h.fresh_of_mem other hmem
  · have hidle := h.idle_add_out
    simp only [idle, Pool.release, List.length_cons] at hidle ⊢
    omega

end Pool

/-! ### Many holders -/

namespace Holdings

/-- What is done with a pool and the objects taken from it. -/
inductive Action (α : Type) where
  /-- A holder takes an object. The one it had goes back after that. -/
  | acquire (holder : String)
  /-- A holder changes its object in any way. -/
  | modify (holder : String) (f : α → α)
  /-- A holder gives its object back. -/
  | release (holder : String)

/-- The holdings after an action. -/
def step (r : Recycling α) (h : Holdings α) : Action α → Holdings α
  | .acquire holder => h.acquire r holder
  | .modify holder f => h.modify holder f
  | .release holder => (h.release r holder).2

/-- The holdings after any number of actions on a new pool. -/
def run (r : Recycling α) (actions : List (Action α)) : Holdings α :=
  actions.foldl (step r) empty

/-- Who has an object, and how many were ever out at one time. -/
structure Ledger where
  holders : Finset String
  peak : Nat

/-- The ledger after an action. Whoever takes an object has it besides the one it gives back. -/
def Ledger.note (l : Ledger) : Action α → Ledger
  | .acquire holder => ⟨insert holder l.holders, max l.peak (l.holders.card + 1)⟩
  | .modify .. => l
  | .release holder => ⟨l.holders.erase holder, l.peak⟩

/-- The ledger after any number of actions. -/
def ledger (actions : List (Action α)) : Ledger :=
  actions.foldl Ledger.note ⟨∅, 0⟩

/-- What an action does to the object of a holder, if every holder has objects of its own. -/
def Action.view (r : Recycling α) (holder : String) (item : Option α) : Action α → Option α
  | .acquire other => if holder = other then some r.fresh else item
  | .modify other f => if holder = other then item.map f else item
  | .release other => if holder = other then none else item

/-- Holdings that agree with a ledger. -/
structure Sound (r : Recycling α) (l : Ledger) (h : Holdings α) : Prop where
  nodup : (h.held.map Prod.fst).Nodup
  holders_eq : (h.held.map Prod.fst).toFinset = l.holders
  pool : h.pool.Sound r l.holders.card
  created_eq : h.pool.created = l.peak

variable {h : Holdings α} {l : Ledger} {holder : String}

theorem sound_empty : empty.Sound r ⟨∅, 0⟩ :=
  ⟨List.nodup_nil, rfl, Pool.sound_empty, rfl⟩

theorem Sound.length_held (hs : h.Sound r l) : h.held.length = l.holders.card := by
  rw [← hs.holders_eq, List.toFinset_card_of_nodup hs.nodup, List.length_map]

theorem Sound.get?_eq_none_iff (hs : h.Sound r l) : h.get? holder = none ↔ holder ∉ l.holders := by
  rw [← hs.holders_eq, get?, List.lookup_eq_none_iff, List.mem_toFinset, List.mem_map]
  grind

theorem Sound.mem_of_get? (hs : h.Sound r l) {item : α} (hget : h.get? holder = some item) :
    holder ∈ l.holders := by
  by_contra hnot
  rw [hs.get?_eq_none_iff.mpr hnot] at hget
  cases hget

theorem Sound.nodup_filter (hs : h.Sound r l) (holder : String) :
    ((h.held.filter fun e => e.1 != holder).map Prod.fst).Nodup :=
  hs.nodup.sublist (List.filter_sublist.map Prod.fst)

theorem Sound.toFinset_filter (hs : h.Sound r l) (holder : String) :
    ((h.held.filter fun e => e.1 != holder).map Prod.fst).toFinset = l.holders.erase holder := by
  rw [Association.toFinset_keys_filter_ne, hs.holders_eq]

/-! ### Steps -/

theorem Sound.acquire (hs : h.Sound r l)
    (holder : String) : (h.acquire r holder).Sound r (l.note (.acquire holder : Action α)) := by
  have hcreated : (h.pool.acquire r).2.created = max l.peak (l.holders.card + 1) := by
    rw [hs.pool.created_acquire, hs.created_eq]
  have htaken := hs.pool.acquire
  refine ⟨?_, ?_, ?_, ?_⟩
  · refine List.nodup_cons.mpr ⟨?_, hs.nodup_filter holder⟩
    rw [← List.mem_toFinset, hs.toFinset_filter]
    exact Finset.notMem_erase holder _
  · show ((holder :: (h.held.filter _).map Prod.fst).toFinset) = insert holder l.holders
    rw [List.toFinset_cons, hs.toFinset_filter]
    grind
  · -- the object that goes back, if there is one, makes up for the one that was taken
    show Pool.Sound r _ (insert holder l.holders).card
    unfold Holdings.acquire
    cases hget : h.get? holder with
    | none =>
      rw [Finset.card_insert_of_notMem (hs.get?_eq_none_iff.mp hget)]
      exact htaken
    | some previous =>
      rw [Finset.insert_eq_of_mem (hs.mem_of_get? hget)]
      exact htaken.release previous
  · unfold Holdings.acquire
    cases hget : h.get? holder with
    | none => exact hcreated
    | some previous => exact hcreated

theorem Sound.modify (hs : h.Sound r l) (holder : String) (f : α → α) :
    (h.modify holder f).Sound r l := by
  have hkeys : (h.modify holder f).held.map Prod.fst = h.held.map Prod.fst :=
    Association.keys_map_at h.held holder f
  exact ⟨hkeys ▸ hs.nodup, hkeys ▸ hs.holders_eq, hs.pool, hs.created_eq⟩

theorem Sound.release (hs : h.Sound r l)
    (holder : String) :
    (h.release r holder).2.Sound r (l.note (.release holder : Action α)) := by
  unfold Holdings.release
  cases hget : h.get? holder with
  | none =>
    have hnot := hs.get?_eq_none_iff.mp hget
    rw [Ledger.note, Finset.erase_eq_of_notMem hnot]
    exact hs
  | some item =>
    refine ⟨hs.nodup_filter holder, hs.toFinset_filter holder, ?_, hs.created_eq⟩
    refine Pool.Sound.release ?_ item
    rw [Ledger.note, Finset.card_erase_add_one (hs.mem_of_get? hget)]
    exact hs.pool

theorem Sound.step (hs : h.Sound r l) (a : Action α) :
    (h.step r a).Sound r (l.note a) := by
  cases a with
  | acquire holder => exact hs.acquire holder
  | modify holder f => exact hs.modify holder f
  | release holder => exact hs.release holder

/-- An action does to the object of a holder what it does if every holder has objects of its own. -/
theorem Sound.get?_step (hs : h.Sound r l) (a : Action α) (holder : String) :
    (h.step r a).get? holder = a.view r holder (h.get? holder) := by
  cases a with
  -- a fresh object for this holder; what others hold is found behind it
  | acquire other =>
    have hheld : (h.acquire r other).held
        = (other, r.fresh) :: h.held.filter fun e => e.1 != other := by
      rw [← hs.pool.acquire_fst]
      rfl
    show (h.acquire r other).held.lookup holder = if holder = other then some r.fresh else _
    rw [hheld, List.lookup_cons, Association.lookup_filter_ne]
    by_cases hsame : holder = other
    · simp [hsame]
    · simp [beq_false_of_ne hsame, hsame, get?]
  | modify other f => exact Association.lookup_map_at h.held other holder f
  | release other =>
    show (h.release r other).2.held.lookup holder = if holder = other then none else h.get? holder
    unfold Holdings.release
    cases hget : h.get? other with
    | none =>
      split_ifs with hsame
      · rw [hsame]
        exact hget
      · rfl
    | some item => exact Association.lookup_filter_ne h.held other holder

/-! ### Runs -/

theorem Sound.foldl (actions : List (Action α)) :
    ∀ {h : Holdings α} {l : Ledger}, h.Sound r l →
      (actions.foldl (Holdings.step r) h).Sound r (actions.foldl Ledger.note l) ∧
        ∀ holder, (actions.foldl (Holdings.step r) h).get? holder
          = actions.foldl (Action.view r holder) (h.get? holder) := by
  induction actions with
  | nil => exact fun hs => ⟨hs, fun _ => rfl⟩
  | cons a actions ih =>
    intro h l hs
    obtain ⟨hsound, hget⟩ := ih (hs.step a)
    refine ⟨hsound, fun holder => ?_⟩
    rw [List.foldl_cons, List.foldl_cons, hget, hs.get?_step]

theorem sound_run (actions : List (Action α)) :
    (run r actions).Sound r (ledger actions) :=
  (sound_empty.foldl actions).1

theorem get?_run (actions : List (Action α))
    (holder : String) :
    (run r actions).get? holder = actions.foldl (Action.view r holder) none :=
  (sound_empty.foldl actions).2 holder

/-- After some actions, the pool agrees with what the actions say: as many objects are idle as were
created and are not held, as many were created as were ever held at one time, and every holder sees
an object that was new when it took it and that only it has changed. -/
structure Accounted (r : Recycling α) (actions : List (Action α)) : Prop where
  length_held : (run r actions).held.length = (ledger actions).holders.card
  idle_add_held : (run r actions).pool.idle + (ledger actions).holders.card
    = (run r actions).pool.created
  created_eq_peak : (run r actions).pool.created = (ledger actions).peak
  get?_eq : ∀ holder,
    (run r actions).get? holder = actions.foldl (Action.view r holder) none

theorem accounted (actions : List (Action α)) :
    Accounted r actions :=
  have hs := sound_run actions
  ⟨hs.length_held, hs.pool.idle_add_out, hs.created_eq, get?_run actions⟩

end Holdings

/-! ### Digests -/

/-- What is done with a pool of digest states. -/
inductive DigestAction where
  | acquire (holder : String)
  | update (holder : String) (data : Bytes)
  | finish (holder : String)
  | release (holder : String)

namespace DigestAction

/-- What it does to the states. -/
def toAction (suite : Suite) (d : Digest) : DigestAction → Holdings.Action Absorber
  | acquire holder => .acquire holder
  | update holder data => .modify holder (·.update data)
  | finish holder => .modify holder fun a => (a.finish suite d).2
  | release holder => .release holder

/-- What an action does to the bytes that a holder has put into its digest. -/
def absorb (holder : String) (bytes : Option Bytes) : DigestAction → Option Bytes
  | acquire other => if holder = other then some [] else bytes
  | update other data => if holder = other then bytes.map (· ++ data) else bytes
  | finish other => if holder = other then bytes.map fun _ => [] else bytes
  | release other => if holder = other then none else bytes

/-- The bytes that a holder has put into its digest since it took it or last finished one; `none` if
it has no digest. -/
def absorbed (holder : String) (actions : List DigestAction) : Option Bytes :=
  actions.foldl (absorb holder) none

/-- The digest that a holder gets if it finishes after some actions. -/
def digest? (suite : Suite) (d : Digest) (actions : List DigestAction) (holder : String) :
    Option Bytes :=
  ((Holdings.run .absorber (actions.map (toAction suite d))).get? holder).map fun a =>
    (a.finish suite d).1

variable {suite : Suite} {d : Digest}

theorem view_toAction (a : DigestAction) (holder : String) (bytes : Option Bytes) :
    (a.toAction suite d).view .absorber holder (bytes.map Absorber.mk)
      = (a.absorb holder bytes).map Absorber.mk := by
  cases a with
  | acquire other =>
    simp only [toAction, Holdings.Action.view, absorb]
    split <;> rfl
  | update other data =>
    simp only [toAction, Holdings.Action.view, absorb]
    split <;> cases bytes <;> rfl
  | finish other =>
    simp only [toAction, Holdings.Action.view, absorb]
    split <;> cases bytes <;> rfl
  | release other =>
    simp only [toAction, Holdings.Action.view, absorb]
    split <;> rfl

/-- A digest is that of the bytes of its holder. -/
theorem digest?_eq (actions : List DigestAction) (holder : String) :
    digest? suite d actions holder = (absorbed holder actions).map (suite.hash d) := by
  have hview : ∀ bytes : Option Bytes,
      (actions.map (toAction suite d)).foldl (Holdings.Action.view .absorber holder)
        (bytes.map Absorber.mk) = (actions.foldl (absorb holder) bytes).map Absorber.mk := by
    induction actions with
    | nil => exact fun _ => rfl
    | cons a actions ih =>
      intro bytes
      rw [List.map_cons, List.foldl_cons, List.foldl_cons, view_toAction, ih]
  rw [digest?, Holdings.get?_run, ← Option.map_none Absorber.mk, hview,
    Option.map_map]
  rfl

end DigestAction

/-- **Pools leak neither objects nor what was done to them.** Whatever holders do, the digest states
and the buffers of a pool are accounted for, the next one is handed out empty, and a digest is that
of exactly the bytes that its holder has put in since it took the state or last finished one. -/
theorem pools_leak_nothing (suite : Suite) (d : Digest) :
    (∀ actions : List (Holdings.Action Absorber),
      Holdings.Accounted .absorber actions ∧
        ((Holdings.run .absorber actions).pool.acquire .absorber).1 = Absorber.empty) ∧
    (∀ actions : List (Holdings.Action Bytes),
      Holdings.Accounted .buffer actions ∧
        ((Holdings.run .buffer actions).pool.acquire .buffer).1 = []) ∧
    ∀ (actions : List DigestAction) (holder : String),
      DigestAction.digest? suite d actions holder
        = (DigestAction.absorbed holder actions).map (suite.hash d) := by
  refine ⟨fun actions => ⟨Holdings.accounted actions, ?_⟩,
    fun actions => ⟨Holdings.accounted actions, ?_⟩, DigestAction.digest?_eq⟩
  · exact (Holdings.sound_run actions).pool.acquire_fst
  · exact (Holdings.sound_run actions).pool.acquire_fst

end Hypertree
