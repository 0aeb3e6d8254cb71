import Hypertree.Proofs.Address
import Hypertree.Tweak

/-!
# What the keyed hash functions digest

All five functions digest one string: the tag of the function, a key, and the material, without
lengths between them (`Call.result_eq`). As keys have the size of a digest, and so do the root, the
public seed and the index where one is followed by more, no two calls digest the same string
(`Call.absorbed_injective`).
-/

namespace Hypertree

/-- A call of a keyed hash function. -/
inductive Call where
  | f (key m : Bytes)
  | h (key m : Bytes)
  | hMsg (randomizer root : Bytes) (index : Nat) (message : Bytes)
  | prf (key m : Bytes)
  | prfKeygen (secretSeed : Bytes) (nonce : Nonce) (publicSeed : Bytes) (a : Address)
  deriving DecidableEq, Repr

theorem Nonce.toBytes_injective : Function.Injective Nonce.toBytes := by
  intro a b h
  obtain ⟨hfirst, hsecond⟩ := Address.word_append_inj.mp h
  cases a
  cases b
  simp_all

namespace Call

/-- What a call returns. -/
def result (s : Setting) : Call → Bytes
  | f key m => s.f key m
  | h key m => s.h key m
  | hMsg randomizer root index message => s.hMsg randomizer root index message
  | prf key m => s.prf key m
  | prfKeygen secretSeed nonce publicSeed a => s.prfKeygen secretSeed nonce publicSeed a

/-- The tag of the function that is called. -/
def tag : Call → Nat
  | f .. => 0
  | h .. => 1
  | hMsg .. => 2
  | prf .. => 3
  | prfKeygen .. => 4

/-- The argument that stands in the place of a key. -/
def key : Call → Bytes
  | f key _ | h key _ | hMsg key _ _ _ | prf key _ | prfKeygen key _ _ _ => key

/-- The arguments after the key, for digests of `n` bytes. -/
def material (n : Nat) : Call → Bytes
  | f _ m | h _ m | prf _ m => m
  | hMsg _ root index message => root ++ (Bytes.bigEndian n index ++ message)
  | prfKeygen _ nonce publicSeed a => nonce.toBytes ++ (publicSeed ++ a.toBytes)

/-- The string that a call digests, for digests of `n` bytes. -/
def absorbed (n : Nat) (c : Call) : Bytes :=
  Bytes.bigEndian n c.tag ++ (c.key ++ c.material n)

/-- **A call returns the digest of what it absorbs.** -/
theorem result_eq (s : Setting) (c : Call) :
    c.result s = s.suite.hash s.digest (c.absorbed s.n) := by
  cases c <;> rfl

/-- The sizes of the arguments that are followed by others. -/
def Sized (n : Nat) : Call → Prop
  | f key _ | h key _ | prf key _ => key.length = n
  | hMsg randomizer root index _ => randomizer.length = n ∧ root.length = n ∧ index < 2 ^ 64
  | prfKeygen secretSeed _ publicSeed _ => secretSeed.length = n ∧ publicSeed.length = n

theorem Sized.length_key {n : Nat} {c : Call} (hc : c.Sized n) : c.key.length = n := by
  cases c with
  | f | h | prf => exact hc
  | hMsg | prfKeygen => exact hc.1

/-- The arguments of `hMsg` after the randomizer. -/
theorem hMsg_material_inj {n : Nat} (hn : 8 ≤ n) {root root' message message' : Bytes}
    {index index' : Nat} (hroot : root.length = root'.length) (hindex : index < 2 ^ 64)
    (hindex' : index' < 2 ^ 64)
    (h : root ++ (Bytes.bigEndian n index ++ message)
      = root' ++ (Bytes.bigEndian n index' ++ message')) :
    root = root' ∧ index = index' ∧ message = message' := by
  have hpow : (2 : Nat) ^ 64 ≤ 256 ^ n := Nat.pow_le_pow_right (by decide : 0 < 256) hn
  obtain ⟨hr, h⟩ := List.append_inj h hroot
  obtain ⟨hi, hm⟩ := List.append_inj h (by simp)
  exact ⟨hr, Bytes.bigEndian_inj (hindex.trans_le hpow) (hindex'.trans_le hpow) hi, hm⟩

/-- The arguments of `prfKeygen` after the secret seed. -/
theorem prfKeygen_material_inj {nonce nonce' : Nonce} {publicSeed publicSeed' : Bytes}
    {a a' : Address} (hseed : publicSeed.length = publicSeed'.length)
    (h : nonce.toBytes ++ (publicSeed ++ a.toBytes)
      = nonce'.toBytes ++ (publicSeed' ++ a'.toBytes)) :
    nonce = nonce' ∧ publicSeed = publicSeed' ∧ a = a' := by
  obtain ⟨hnonce, h⟩ := List.append_inj h (by simp [Nonce.toBytes])
  obtain ⟨hs, ha⟩ := List.append_inj h hseed
  exact ⟨Nonce.toBytes_injective hnonce, hs, Address.toBytes_injective ha⟩

theorem tag_lt (c : Call) : c.tag < 256 := by
  cases c <;> exact of_decide_eq_true rfl

/-- **A call is determined by what it absorbs.** -/
theorem absorbed_injective {n : Nat} (hn : 8 ≤ n) {c d : Call} (hc : c.Sized n) (hd : d.Sized n)
    (h : c.absorbed n = d.absorbed n) : c = d := by
  have htag_lt : ∀ c : Call, c.tag < 256 ^ n := fun c =>
    c.tag_lt.trans_le (Nat.le_self_pow (by omega) 256)
  obtain ⟨htag, h⟩ := List.append_inj h (by simp)
  replace htag := Bytes.bigEndian_inj (htag_lt c) (htag_lt d) htag
  obtain ⟨hkey, hmaterial⟩ := List.append_inj h (hc.length_key.trans hd.length_key.symm)
  -- functions with one tag are one function
  cases c with
  | f key m =>
    cases d with
    | f key' m' => exact congrArg₂ f hkey hmaterial
    | _ => cases htag
  | h key m =>
    cases d with
    | h key' m' => exact congrArg₂ Call.h hkey hmaterial
    | _ => cases htag
  | prf key m =>
    cases d with
    | prf key' m' => exact congrArg₂ prf hkey hmaterial
    | _ => cases htag
  | hMsg randomizer root index message =>
    cases d with
    | hMsg randomizer' root' index' message' =>
      obtain ⟨-, hroot, hindex⟩ := hc
      obtain ⟨-, hroot', hindex'⟩ := hd
      obtain ⟨rfl, rfl, rfl⟩ :=
        hMsg_material_inj hn (hroot.trans hroot'.symm) hindex hindex' hmaterial
      obtain rfl : randomizer = randomizer' := hkey
      rfl
    | _ => cases htag
  | prfKeygen secretSeed nonce publicSeed a =>
    cases d with
    | prfKeygen secretSeed' nonce' publicSeed' a' =>
      obtain ⟨rfl, rfl, rfl⟩ := prfKeygen_material_inj (hc.2.trans hd.2.symm) hmaterial
      obtain rfl : secretSeed = secretSeed' := hkey
      rfl
    | _ => cases htag

end Call

end Hypertree
