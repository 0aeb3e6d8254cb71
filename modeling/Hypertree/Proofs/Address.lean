import Hypertree.Address
import Hypertree.Proofs.Bytes.BigEndian

/-!
# Addresses are told apart by their bytes

Each word of an address is read back from its four bytes, and the kind of a place is one of the
words, so two addresses with the same bytes are one (`Address.toBytes_injective`).
-/

namespace Hypertree.Address

@[simp]
theorem length_word (x : UInt32) : (word x).length = 4 :=
  Bytes.length_bigEndian ..

@[simp]
theorem length_placeBytes (place : Place) : (placeBytes place).length = 16 := by
  cases place <;> simp [placeBytes]

/-- A word is read back from its bytes. -/
theorem ofNat_ofBigEndian_word (x : UInt32) : UInt32.ofNat (Bytes.ofBigEndian (word x)) = x := by
  unfold word
  rw [Bytes.ofBigEndian_bigEndian, Nat.mod_eq_of_lt (show x.toNat < 256 ^ 4 from x.toNat_lt)]
  exact UInt32.ofNat_toNat

theorem word_injective : Function.Injective word := by
  intro x y h
  rw [← ofNat_ofBigEndian_word x, h, ofNat_ofBigEndian_word]

/-- Any four bytes are those of a word. -/
theorem word_ofBigEndian {bytes : Bytes} (h : bytes.length = 4) :
    word (UInt32.ofNat (Bytes.ofBigEndian bytes)) = bytes := by
  have hlt := Bytes.ofBigEndian_lt bytes
  rw [h] at hlt
  apply Bytes.ofBigEndian_injective
  · rw [length_word, h]
  · rw [word, Bytes.ofBigEndian_bigEndian, UInt32.toNat_ofNat_of_lt' hlt, Nat.mod_eq_of_lt hlt]

@[simp]
theorem word_inj {x y : UInt32} : word x = word y ↔ x = y :=
  word_injective.eq_iff

@[simp]
theorem word_append_inj {x y : UInt32} {a b : Bytes} :
    word x ++ a = word y ++ b ↔ x = y ∧ a = b := by
  constructor
  · intro h
    obtain ⟨hword, hrest⟩ := List.append_inj h (by simp)
    exact ⟨word_injective hword, hrest⟩
  · rintro ⟨rfl, rfl⟩
    rfl

/-- The first of the words that depend on the kind of place names it. -/
theorem placeBytes_injective : Function.Injective placeBytes := by
  intro p q h
  cases p <;> cases q <;> simp_all [placeBytes]

/-- **An address is determined by its bytes.** -/
theorem toBytes_injective : Function.Injective toBytes := by
  intro a b h
  obtain ⟨hlayer, h⟩ := word_append_inj.mp h
  obtain ⟨htree, h⟩ := List.append_inj h (by simp)
  obtain ⟨hplace, hselector⟩ := List.append_inj h (by simp)
  have htree' := UInt64.toNat_inj.mp
    (Bytes.bigEndian_inj a.tree.toNat_lt b.tree.toNat_lt htree)
  cases a
  cases b
  simp_all [placeBytes_injective.eq_iff]

end Hypertree.Address
