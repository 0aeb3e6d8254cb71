import Hypertree.Command.Scheme
import Hypertree.Proofs.Engine.Sign

/-!
# Parameters for a key

The parameters that a command resolves are valid, and they stay so when the header of a key takes
the place of theirs (`forKey_eq`), as the other constraints do not depend on the header.
-/

namespace Hypertree.Command

theorem engine_eq {suite : Suite} {p : Params} (h : p.validate = .ok ()) :
    engine suite p = .ok ⟨suite, p, h⟩ := by
  rw [engine, Engine.create_eq suite h]
  rfl

namespace SchemeOptions

variable {source : Source} {scheme : SchemeOptions} {p q : Params} {key : PrivateKey}

theorem checked_eq_ok_iff {failure : Error → Failure} :
    checked failure p = .ok q ↔ p.validate = .ok () ∧ p = q := by
  unfold checked
  cases p.validate with
  | error err => simp
  | ok => simp

theorem validate_of_resolve (h : scheme.resolve source = .ok p) : p.validate = .ok () := by
  obtain ⟨base, -, hchecked⟩ := bind_eq_ok_iff.mp h
  obtain ⟨hvalid, rfl⟩ := checked_eq_ok_iff.mp hchecked
  exact hvalid

/-- The parameters for a key are those of the options, with the header of the key. -/
theorem forKey_eq (h : scheme.resolve source = .ok p) (hkey : key.header.Valid) :
    ({ p with toHeader := key.header } : Params).validate = .ok () ∧
      scheme.forKey source key = .ok { p with toHeader := key.header } := by
  obtain ⟨-, hwinternitz, hcache⟩ := p.validate_eq_ok_iff.mp (validate_of_resolve h)
  have hvalid : ({ p with toHeader := key.header } : Params).validate = .ok () :=
    (Params.validate_eq_ok_iff _).mpr ⟨hkey, hwinternitz, hcache⟩
  exact ⟨hvalid, bind_eq_ok_iff.mpr ⟨p, h, checked_eq_ok_iff.mpr ⟨hvalid, rfl⟩⟩⟩

end SchemeOptions

end Hypertree.Command
