import Hypertree.Digest
import Hypertree.Tweak

/-!
# Pools

Digest states and scratch buffers are reused. A pool keeps the idle objects in a stack; taking one
creates a new object only if none is idle, and an object that comes back is cleared first. So an
object is handed out in the state of a new one, whatever its last holder did with it.
-/

namespace Hypertree

/-- How objects are made and cleared. -/
structure Recycling (α : Type) where
  fresh : α
  clear : α → α
  /-- An object that is cleared is as good as new. -/
  clear_eq : ∀ item, clear item = fresh

namespace Recycling

/-- Digest states. -/
def absorber : Recycling Absorber :=
  ⟨Absorber.empty, Absorber.reset, fun _ => rfl⟩

/-- Scratch buffers. -/
def buffer : Recycling Bytes :=
  ⟨[], fun _ => [], fun _ => rfl⟩

end Recycling

/-- The idle objects, the one returned last first, and the number ever created. -/
structure Pool (α : Type) where
  free : List α
  created : Nat
  deriving Repr

namespace Pool

variable {α : Type}

/-- A pool without objects. -/
def empty : Pool α :=
  ⟨[], 0⟩

/-- The number of idle objects. -/
def idle (p : Pool α) : Nat :=
  p.free.length

/-- Takes an idle object, or a new one. -/
def acquire (r : Recycling α) (p : Pool α) : α × Pool α :=
  match p.free with
  | item :: rest => (item, { p with free := rest })
  | [] => (r.fresh, { p with created := p.created + 1 })

/-- Takes an object back. -/
def release (r : Recycling α) (p : Pool α) (item : α) : Pool α :=
  { p with free := r.clear item :: p.free }

/-- What diagnostics show of a pool. -/
def describe (p : Pool α) : String :=
  "Pool \x7b idle: " ++ toString p.idle ++ ", created: " ++ toString p.created ++ " \x7d"

end Pool

/-- A pool and the objects taken from it, by the names of their holders. -/
structure Holdings (α : Type) where
  pool : Pool α
  held : List (String × α)

namespace Holdings

variable {α : Type}

/-- A pool from which nothing has been taken. -/
def empty : Holdings α :=
  ⟨Pool.empty, []⟩

/-- The object that a holder has. -/
def get? (h : Holdings α) (holder : String) : Option α :=
  h.held.lookup holder

/-- Lets a holder take an object. The one it had goes back after that. -/
def acquire (r : Recycling α) (h : Holdings α) (holder : String) : Holdings α :=
  let (item, pool) := h.pool.acquire r
  let pool := match h.get? holder with
    | none => pool
    | some previous => pool.release r previous
  ⟨pool, (holder, item) :: h.held.filter fun e => e.1 != holder⟩

/-- Lets a holder change its object. -/
def modify (h : Holdings α) (holder : String) (f : α → α) : Holdings α :=
  { h with held := h.held.map fun e => if e.1 = holder then (e.1, f e.2) else e }

/-- Takes the object of a holder back. Returns whether it had one. -/
def release (r : Recycling α) (h : Holdings α) (holder : String) : Bool × Holdings α :=
  match h.get? holder with
  | none => (false, h)
  | some item => (true, ⟨h.pool.release r item, h.held.filter fun e => e.1 != holder⟩)

end Holdings

/-- What diagnostics show of the keyed hash functions of an engine. -/
def Setting.describe (s : Setting) : String :=
  "Context \x7b hash: " ++ s.digest.tag ++ ", n: " ++ toString s.n ++
    ", parallel: " ++ toString s.params.workers.isParallel ++ ", .. \x7d"

end Hypertree
