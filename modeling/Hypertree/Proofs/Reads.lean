import Hypertree.Error
import Mathlib

/-!
# Readers that read what writers write

Decoders read bytes and backup readers read lines; both take what they read from the front of their
input and may fail. `Reads d front v` says that the reader `d`, on any input that begins with
`front`, returns `v` and stops right after it. Readers one after another read inputs one after
another (`Reads.bind`), so a round trip is proved field by field, in the order in which the fields
are written.
-/

namespace Hypertree

variable {σ α β : Type}

/-- On an input that begins with `front`, the reader returns `v` and stops after it. -/
def Reads (d : StateT (List σ) (Except Error) α) (front : List σ) (v : α) : Prop :=
  ∀ rest, d.run (front ++ rest) = .ok (v, rest)

theorem run_bind {d : StateT (List σ) (Except Error) α} {f : α → StateT (List σ) (Except Error) β}
    {input rest : List σ} {v : α} (h : d.run input = .ok (v, rest)) :
    (d >>= f).run input = (f v).run rest := by
  rw [StateT.run_bind, h]
  rfl

theorem reads_pure (v : α) : Reads (pure v : StateT (List σ) (Except Error) α) [] v :=
  fun _ => rfl

/-- A check that passes reads nothing. -/
theorem reads_lift {x : Except Error α} {v : α} (h : x = .ok v) :
    Reads (liftM x : StateT (List σ) (Except Error) α) [] v := by
  intro rest
  subst h
  rfl

section

variable {d : StateT (List σ) (Except Error) α} {v : α}

/-- Two readers one after the other read two inputs one after the other. -/
theorem Reads.bind {f : α → StateT (List σ) (Except Error) β} {a b : List σ} {w : β}
    (hd : Reads d a v) (hf : Reads (f v) b w) : Reads (d >>= f) (a ++ b) w := by
  intro rest
  rw [List.append_assoc, run_bind (hd _)]
  exact hf rest

/-- A reader that reads nothing and then another one. -/
theorem Reads.bind_nil {f : α → StateT (List σ) (Except Error) β} {b : List σ} {w : β}
    (hd : Reads d [] v) (hf : Reads (f v) b w) : Reads (d >>= f) b w :=
  hd.bind hf

/-- A reader whose value is passed on. -/
theorem Reads.bind_pure {f : α → β} {a : List σ} (hd : Reads d a v) :
    Reads (d >>= fun x => pure (f x)) a (f v) := by
  have h := hd.bind (f := fun x => pure (f x)) (reads_pure (f v))
  rwa [List.append_nil] at h

/-- A reader that ends with a check. -/
theorem Reads.bind_lift {f : α → Except Error β} {a : List σ} {w : β} (hd : Reads d a v)
    (hf : f v = .ok w) : Reads (d >>= fun x => liftM (f x)) a w := by
  have h := hd.bind (f := fun x => liftM (f x)) (reads_lift hf)
  rwa [List.append_nil] at h

/-- An input that is read in full. -/
theorem Reads.run {input : List σ} (h : Reads d input v) : d.run input = .ok (v, []) := by
  have hrun := h []
  rwa [List.append_nil] at hrun

/-- What one reader reads from the front of an input is read from it once. -/
theorem Reads.append_inj {a b x y : List σ} {w : α} (h : Reads d a v) (h' : Reads d b w)
    (heq : a ++ x = b ++ y) : v = w ∧ x = y := by
  have hrun := h x
  rw [heq, h' y] at hrun
  obtain ⟨rfl, rfl⟩ := Prod.mk.inj (Except.ok.inj hrun)
  exact ⟨rfl, rfl⟩

end

/-! ### What was read -/

section

variable {d : StateT (List σ) (Except Error) α} {f : α → StateT (List σ) (Except Error) β}
  {input rest : List σ} {v : α} {w : β}

/-- Two readers one after the other succeed if the first does and the second does on what it
leaves. -/
theorem run_bind_eq_ok_iff : (d >>= f).run input = .ok (w, rest) ↔
    ∃ v mid, d.run input = .ok (v, mid) ∧ (f v).run mid = .ok (w, rest) := by
  rw [StateT.run_bind]
  cases h : d.run input with
  | error e => simp [bind, Except.bind]
  | ok p =>
    obtain ⟨v, mid⟩ := p
    constructor
    · intro hf
      exact ⟨v, mid, rfl, hf⟩
    · rintro ⟨v', mid', heq, hf⟩
      obtain ⟨rfl, rfl⟩ := Prod.mk.inj (Except.ok.inj heq)
      exact hf

theorem run_pure_eq_ok_iff {u : α} :
    (pure v : StateT (List σ) (Except Error) α).run input = .ok (u, rest) ↔
      u = v ∧ rest = input := by
  rw [StateT.run_pure]
  simp [pure, Except.pure, eq_comm]

/-- A check or a conversion reads nothing. -/
theorem run_lift_eq_ok_iff {x : Except Error α} :
    (liftM x : StateT (List σ) (Except Error) α).run input = .ok (v, rest) ↔
      x = .ok v ∧ rest = input := by
  cases x with
  | error e => exact iff_of_false (fun h => nomatch h) fun h => nomatch h.1
  | ok u =>
    show (Except.ok (u, input) : Except Error _) = _ ↔ _
    simp [eq_comm]

/-- A check or a conversion that stands before the rest of a reader. -/
theorem run_lift_bind_eq_ok_iff {x : Except Error α} :
    (liftM x >>= f).run input = .ok (w, rest) ↔
      ∃ v, x = .ok v ∧ (f v).run input = .ok (w, rest) := by
  rw [run_bind_eq_ok_iff]
  simp only [run_lift_eq_ok_iff]
  constructor
  · rintro ⟨v, _, ⟨hx, rfl⟩, h⟩
    exact ⟨v, hx, h⟩
  · rintro ⟨v, hx, h⟩
    exact ⟨v, input, ⟨hx, rfl⟩, h⟩

/-- A check that stands before the rest of a reader. -/
theorem run_guard_eq_ok_iff {c : Prop} [Decidable c] {err : Error}
    {k : PUnit → StateT (List σ) (Except Error) β} :
    (if c then (throw err >>= k) else k ()).run input = .ok (w, rest) ↔
      ¬ c ∧ (k ()).run input = .ok (w, rest) := by
  by_cases h : c
  · rw [if_pos h]
    exact iff_of_false (fun h => nomatch h) fun h' => h'.1 h
  · rw [if_neg h]
    exact (and_iff_right h).symm

end

end Hypertree
