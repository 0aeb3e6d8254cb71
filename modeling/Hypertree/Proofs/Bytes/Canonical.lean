import Hypertree.Proofs.Bytes.Decoder

/-!
# What a decoder accepts

The other direction of reading what was written: what each decoder has read when it succeeds. A
string is the string returned, a byte the byte returned, and a variable-length integer the one form
in which its value is written (`varint_run_eq_ok_iff`). So every field of an encoding has one form,
and a decoder that has accepted a string accepts no longer one (`decode_append`). Values one after
another are read as they are written if each of them is (`repeated_run_eq_ok_iff`). Writers whose
values can be told apart at the front of a string are `PrefixFreeOn`.

The induction for variable-length integers is on the groups left, as in the other direction. The
groups read from a shift on are those of one number, which is not zero unless it is the whole.
-/

namespace Hypertree.Decoder

variable {α : Type} {field : Field} {input rest : Bytes} {len n max : Nat}

theorem byte_run_eq_ok_iff {b : UInt8} :
    (byte field).run input = .ok (b, rest) ↔ input = b :: rest := by
  cases input with
  | nil => exact iff_of_false (fun h => nomatch h) fun h => nomatch h
  | cons b' tail =>
    show (Except.ok (b', tail) : Except Error _) = _ ↔ _
    simp

theorem take_run_eq_ok_iff {out : Bytes} :
    (take len field).run input = .ok (out, rest) ↔ out.length = len ∧ input = out ++ rest := by
  constructor
  · intro h
    simp only [StateT.run, take] at h
    split_ifs at h with hlen
    obtain ⟨rfl, rfl⟩ := Prod.mk.inj (Except.ok.inj h)
    exact ⟨hlen, (List.take_append_drop len input).symm⟩
  · rintro ⟨hlen, rfl⟩
    exact reads_take hlen field rest

/-- A check at the end of a decoder. -/
theorem run_check_eq_ok_iff {c : Prop} [Decidable c] {err : Error} {v w : α} :
    (if c then throw err else pure v : Decoder α).run input = .ok (w, rest) ↔
      ¬ c ∧ w = v ∧ rest = input := by
  by_cases h : c
  · rw [if_pos h]
    exact iff_of_false (fun h => nomatch h) fun h' => h'.1 h
  · rw [if_neg h, run_pure_eq_ok_iff]
    exact (and_iff_right h).symm

theorem decode_eq_ok_iff {d : Decoder α} {v : α} :
    d.decode input = .ok v ↔ d.run input = .ok (v, []) := by
  unfold decode
  cases h : d.run input with
  | error e => simp
  | ok p =>
    obtain ⟨w, _ | ⟨b, tail⟩⟩ := p <;> simp

/-- A string that is read in full cannot be continued. -/
theorem decode_append {d : Decoder α} {v w : α} (h : Reads d input v)
    (happend : d.decode (input ++ rest) = .ok w) : rest = [] := by
  rw [decode_eq_ok_iff, h rest] at happend
  exact (Prod.mk.inj (Except.ok.inj happend)).2

/-! ### Variable-length integers -/

/-- A group that was admitted fits in what is left of the 64 bits. -/
theorem group_mul_lt {left : Nat} {shift : UInt64} {b : UInt8}
    (hshift : shift.toNat + 7 * (left + 1) = 70)
    (hover : ¬ (shift = 63 ∧ 1 < (b &&& 0x7f).toUInt64)) :
    (b &&& 0x7f).toUInt64.toNat * 2 ^ shift.toNat < 2 ^ 64 := by
  have hlow : (b &&& 0x7f).toUInt64.toNat < 128 := by
    rw [UInt8.toNat_toUInt64, toNat_low]
    omega
  by_cases h63 : shift.toNat = 63
  · -- the tenth group has room for one bit
    have hone : (b &&& 0x7f).toUInt64.toNat ≤ 1 := by
      by_contra hlarge
      exact hover ⟨UInt64.toNat_inj.mp h63, Nat.lt_of_not_le hlarge⟩
    rw [h63]
    omega
  · have hle : shift.toNat ≤ 56 := by omega
    calc (b &&& 0x7f).toUInt64.toNat * 2 ^ shift.toNat
        ≤ 127 * 2 ^ 56 := Nat.mul_le_mul (by omega) (Nat.pow_le_pow_right (by decide) hle)
      _ < 2 ^ 64 := by decide

/-- A number of one group is written as that group. -/
theorem varint_toUInt64 {b : UInt8} (hb : b.toNat < 128) : Bytes.varint b.toUInt64 = [b] := by
  have hsmall : b.toUInt64 < 0x80 := by
    rw [UInt64.lt_iff_toNat_lt, UInt8.toNat_toUInt64]
    exact hb
  rw [Bytes.varint, if_pos hsmall, UInt8.toUInt8_toUInt64]

/-- A longer number is written as its lowest group, marked, and the groups of what is left. -/
theorem exists_varint_cons {b : UInt8} {v : UInt64} (hb : 128 ≤ b.toNat) (hv : v ≠ 0)
    (hlt : b.toNat % 128 + 128 * v.toNat < 2 ^ 64) :
    ∃ u : UInt64, Bytes.varint u = b :: Bytes.varint v ∧
      u.toNat = b.toNat % 128 + 128 * v.toNat ∧ u ≠ 0 := by
  set u := UInt64.ofNat (b.toNat % 128 + 128 * v.toNat) with hu
  have hunat : u.toNat = b.toNat % 128 + 128 * v.toNat := UInt64.toNat_ofNat_of_lt' hlt
  have hvpos : v.toNat ≠ 0 := fun h => hv (UInt64.toNat_inj.mp h)
  -- as the rest is not zero, the number has more than one group
  have hlarge : ¬ u < 0x80 := by
    rw [UInt64.lt_iff_toNat_lt, hunat]
    show ¬ _ < 128
    omega
  have hrest : u >>> 7 = v := by
    rw [← UInt64.toNat_inj, Bytes.toNat_shiftRight_seven, hunat]
    omega
  have hhead : (u.toUInt8 &&& 0x7f) ||| 0x80 = b := by
    have hblt := b.toNat_lt
    rw [← UInt8.toNat_inj, toNat_continued, UInt64.toNat_toUInt8, hunat]
    omega
  refine ⟨u, ?_, hunat, ?_⟩
  · rw [Bytes.varint, if_neg hlarge, hhead, hrest]
  · intro hzero
    exact hlarge (hzero ▸ by decide)

/-- What was read from a shift on, after a value that lies below it, are the groups of a number. -/
theorem varintGroups_canonical (left : Nat) :
    ∀ (shift value u : UInt64) (input : Bytes), shift.toNat + 7 * left = 70 →
      value.toNat < 2 ^ shift.toNat →
      (varintGroups field left shift value).run input = .ok (u, rest) →
      ∃ v : UInt64, input = Bytes.varint v ++ rest ∧
        u.toNat = value.toNat + v.toNat * 2 ^ shift.toNat ∧ (v ≠ 0 ∨ shift = 0) := by
  -- the induction is on the groups left, and the value read so far stays below those to come
  induction left with
  | zero =>
    intro shift value u input _ _ h
    cases h
  | succ left ih =>
    intro shift value u input hshift hvalue h
    have hlt : shift.toNat < 64 := by omega
    rw [varintGroups, run_bind_eq_ok_iff] at h
    obtain ⟨b, mid, hbyte, h⟩ := h
    obtain rfl := byte_run_eq_ok_iff.mp hbyte
    by_cases hover : shift = 63 ∧ 1 < (b &&& 0x7f).toUInt64
    · rw [if_pos hover] at h
      cases h
    rw [if_neg hover] at h
    have hgroup : (b &&& 0x7f).toUInt64.toNat = b.toNat % 128 := by
      rw [UInt8.toNat_toUInt64, toNat_low]
    have hvalue' := toNat_or_shiftLeft _ hvalue hlt (group_mul_lt hshift hover)
    rw [hgroup] at hvalue'
    by_cases hlast : b &&& 0x80 = 0
    · -- the last group is the whole of what is left
      have hb := (high_eq_zero_iff b).mp hlast
      rw [if_pos hlast] at h
      obtain ⟨hmin, rfl, rfl⟩ := run_check_eq_ok_iff.mp h
      refine ⟨b.toUInt64, ?_, ?_, ?_⟩
      · rw [varint_toUInt64 hb, List.singleton_append]
      · rw [hvalue', Nat.mod_eq_of_lt hb, UInt8.toNat_toUInt64]
      · by_contra hzero
        rw [not_or, not_not] at hzero
        refine hmin ⟨?_, hzero.2⟩
        rw [← UInt8.toNat_inj, ← UInt8.toNat_toUInt64, hzero.1]
        rfl
    · -- a marked group is the lowest one of a number whose others are read next
      have hb : 128 ≤ b.toNat := Nat.le_of_not_lt fun hb => hlast ((high_eq_zero_iff b).mpr hb)
      rw [if_neg hlast] at h
      have hleft : left ≠ 0 := by
        rintro rfl
        cases h
      have hshift7 := toNat_shift_add_seven (show shift.toNat ≤ 56 by omega)
      have hbelow : (value ||| (b &&& 0x7f).toUInt64 <<< shift).toNat < 2 ^ (shift + 7).toNat := by
        rw [hvalue', hshift7]
        exact add_group_lt hvalue (Nat.mod_lt _ (by decide))
      obtain ⟨v, rfl, hu, hv⟩ := ih (shift + 7) _ u mid (by omega) hbelow h
      have hv0 : v ≠ 0 := by
        refine hv.resolve_right fun hzero => ?_
        have hnat := congrArg UInt64.toNat hzero
        rw [hshift7] at hnat
        exact Nat.succ_ne_zero _ hnat
      -- the number is what is left of the 64-bit value above the shift
      have hsum : u.toNat = value.toNat + (b.toNat % 128 + 128 * v.toNat) * 2 ^ shift.toNat := by
        rw [hu, hvalue', hshift7, two_pow_add_seven]
        ring
      have hvlt : b.toNat % 128 + 128 * v.toNat < 2 ^ 64 := by
        have hle := Nat.le_mul_of_pos_right (b.toNat % 128 + 128 * v.toNat)
          (Nat.two_pow_pos shift.toNat)
        have hult := u.toNat_lt
        omega
      obtain ⟨w, hvarint, hw, hw0⟩ := exists_varint_cons hb hv0 hvlt
      refine ⟨w, ?_, ?_, Or.inl hw0⟩
      · rw [hvarint, List.cons_append]
      · rw [hw, hsum]

/-- **A variable-length integer has one form.** -/
theorem varint_run_eq_ok_iff : (varint field).run input = .ok (n, rest) ↔
    n < 2 ^ 64 ∧ input = Bytes.varint (UInt64.ofNat n) ++ rest := by
  constructor
  · intro h
    obtain ⟨u, mid, hgroups, h⟩ := run_bind_eq_ok_iff.mp h
    obtain ⟨rfl, rfl⟩ := run_pure_eq_ok_iff.mp h
    obtain ⟨v, rfl, hu, -⟩ := varintGroups_canonical 10 0 0 u input rfl (by simp) hgroups
    obtain rfl : u = v := by
      rw [← UInt64.toNat_inj, hu]
      simp
    exact ⟨u.toNat_lt, by rw [UInt64.ofNat_toNat]⟩
  · rintro ⟨hn, rfl⟩
    exact reads_varint field hn rest

theorem bounded_run_eq_ok_iff : (bounded field max).run input = .ok (n, rest) ↔
    n ≤ max ∧ n < 2 ^ 64 ∧ input = Bytes.varint (UInt64.ofNat n) ++ rest := by
  constructor
  · intro h
    obtain ⟨n', mid, hvarint, hcheck⟩ := run_bind_eq_ok_iff.mp h
    obtain ⟨hlt, rfl⟩ := varint_run_eq_ok_iff.mp hvarint
    split_ifs at hcheck with hle
    · obtain ⟨rfl, rfl⟩ := run_pure_eq_ok_iff.mp hcheck
      exact ⟨hle, hlt, rfl⟩
    · exact nomatch hcheck
  · rintro ⟨hle, hn, rfl⟩
    exact reads_bounded field hle hn rest

/-- A string preceded by its length. -/
theorem prefixed_run_eq_ok_iff {out : Bytes} :
    (prefixed len field).run input = .ok (out, rest) ↔
      out.length = len ∧ len < 2 ^ 64 ∧
        input = Bytes.varint (UInt64.ofNat len) ++ (out ++ rest) := by
  constructor
  · intro h
    obtain ⟨n, mid, hvarint, htake⟩ := run_bind_eq_ok_iff.mp h
    obtain ⟨hn, rfl⟩ := varint_run_eq_ok_iff.mp hvarint
    split_ifs at htake with hlen
    · obtain rfl := hlen
      obtain ⟨hout, rfl⟩ := take_run_eq_ok_iff.mp htake
      exact ⟨hout, hn, rfl⟩
    · exact nomatch htake
  · rintro ⟨hout, hlen, rfl⟩
    rw [← List.append_assoc]
    exact reads_prefixed hout hlen field rest

/-- Values one after another, each of them read as it is written. -/
theorem repeated_run_eq_ok_iff {d : Decoder α} {P : α → Prop} {encode : α → Bytes}
    (hd : ∀ {input rest : Bytes} {v : α},
      d.run input = .ok (v, rest) ↔ P v ∧ input = encode v ++ rest) {count : Nat} :
    ∀ {input : Bytes} {values : List α}, (repeated d count).run input = .ok (values, rest) ↔
      values.length = count ∧ (∀ v ∈ values, P v) ∧ input = values.flatMap encode ++ rest := by
  induction count with
  | zero =>
    intro input values
    rw [repeated, run_pure_eq_ok_iff]
    constructor
    · rintro ⟨rfl, rfl⟩
      exact ⟨rfl, List.forall_mem_nil _, rfl⟩
    · rintro ⟨hlength, -, rfl⟩
      obtain rfl := List.length_eq_zero_iff.mp hlength
      exact ⟨rfl, rfl⟩
  | succ count ih =>
    intro input values
    rw [repeated]
    constructor
    · intro h
      -- the first value tells where the others begin
      obtain ⟨v, _, hv, h⟩ := run_bind_eq_ok_iff.mp h
      obtain ⟨tail, _, htail, h⟩ := run_bind_eq_ok_iff.mp h
      obtain ⟨rfl, rfl⟩ := run_pure_eq_ok_iff.mp h
      obtain ⟨hP, rfl⟩ := hd.mp hv
      obtain ⟨hlength, hall, rfl⟩ := ih.mp htail
      refine ⟨congrArg Nat.succ hlength, List.forall_mem_cons.mpr ⟨hP, hall⟩, ?_⟩
      rw [List.flatMap_cons, List.append_assoc]
    · rintro ⟨hlength, hall, rfl⟩
      obtain ⟨v, tail, rfl⟩ := List.exists_cons_of_length_eq_add_one hlength
      obtain ⟨hP, hall⟩ := List.forall_mem_cons.mp hall
      rw [List.flatMap_cons, List.append_assoc]
      refine run_bind_eq_ok_iff.mpr ⟨v, _, hd.mpr ⟨hP, rfl⟩, ?_⟩
      exact run_bind_eq_ok_iff.mpr ⟨tail, _, ih.mpr ⟨Nat.succ.inj hlength, hall, rfl⟩, rfl⟩

/-! ### Values that begin a string -/

/-- A string begins with at most one of the values that satisfy `P`. -/
def PrefixFreeOn (P : α → Prop) (encode : α → Bytes) : Prop :=
  ∀ ⦃v w x y⦄, P v → P w → encode v ++ x = encode w ++ y → v = w ∧ x = y

theorem prefixFreeOn_varint :
    PrefixFreeOn (· < 2 ^ 64) fun n : Nat => Bytes.varint (UInt64.ofNat n) :=
  fun _ _ _ _ hm hn h => (reads_varint .index hm).append_inj (reads_varint .index hn) h

/-- Lists of such values, if their lengths are known to agree. -/
theorem PrefixFreeOn.flatMap {P : α → Prop} {encode : α → Bytes} (h : PrefixFreeOn P encode)
    {values : List α} : ∀ {values' : List α} {x y : Bytes}, (∀ v ∈ values, P v) →
      (∀ v ∈ values', P v) → values.length = values'.length →
      values.flatMap encode ++ x = values'.flatMap encode ++ y → values = values' ∧ x = y := by
  induction values with
  | nil =>
    intro values' x y _ _ hlen heq
    obtain rfl := List.length_eq_zero_iff.mp hlen.symm
    exact ⟨rfl, heq⟩
  | cons v values ih =>
    intro values' x y hv hv' hlen heq
    obtain ⟨w, values', rfl⟩ := List.exists_cons_of_length_eq_add_one hlen.symm
    rw [List.forall_mem_cons] at hv hv'
    rw [List.flatMap_cons, List.flatMap_cons, List.append_assoc, List.append_assoc] at heq
    -- neither of the first encodings begins the other, so they are equal and so are the rests
    obtain ⟨rfl, hrest⟩ := h hv.1 hv'.1 heq
    obtain ⟨rfl, rfl⟩ := ih hv.2 hv'.2 (Nat.succ.inj hlen) hrest
    exact ⟨rfl, rfl⟩

/-! ### Before the rest of a decoder -/

section

variable {β : Type} {w : β}

theorem byte_bind_run_eq_ok_iff {f : UInt8 → Decoder β} :
    (byte field >>= f).run input = .ok (w, rest) ↔
      ∃ b mid, input = b :: mid ∧ (f b).run mid = .ok (w, rest) := by
  simp only [run_bind_eq_ok_iff, byte_run_eq_ok_iff]

theorem take_bind_run_eq_ok_iff {f : Bytes → Decoder β} :
    (take len field >>= f).run input = .ok (w, rest) ↔
      ∃ out mid, out.length = len ∧ input = out ++ mid ∧ (f out).run mid = .ok (w, rest) := by
  simp only [run_bind_eq_ok_iff, take_run_eq_ok_iff, and_assoc]

theorem varint_bind_run_eq_ok_iff {f : Nat → Decoder β} :
    (varint field >>= f).run input = .ok (w, rest) ↔
      ∃ n mid, n < 2 ^ 64 ∧ input = Bytes.varint (UInt64.ofNat n) ++ mid ∧
        (f n).run mid = .ok (w, rest) := by
  simp only [run_bind_eq_ok_iff, varint_run_eq_ok_iff, and_assoc]

theorem bounded_bind_run_eq_ok_iff {f : Nat → Decoder β} :
    (bounded field max >>= f).run input = .ok (w, rest) ↔
      ∃ n mid, n ≤ max ∧ n < 2 ^ 64 ∧ input = Bytes.varint (UInt64.ofNat n) ++ mid ∧
        (f n).run mid = .ok (w, rest) := by
  simp only [run_bind_eq_ok_iff, bounded_run_eq_ok_iff, and_assoc]

theorem prefixed_bind_run_eq_ok_iff {f : Bytes → Decoder β} :
    (prefixed len field >>= f).run input = .ok (w, rest) ↔
      ∃ out mid, out.length = len ∧ len < 2 ^ 64 ∧
        input = Bytes.varint (UInt64.ofNat len) ++ (out ++ mid) ∧
        (f out).run mid = .ok (w, rest) := by
  simp only [run_bind_eq_ok_iff, prefixed_run_eq_ok_iff, and_assoc]

/-- A broken rule that would stop the decoder. -/
theorem fault_bind_run_eq_ok_iff {c : Prop} [Decidable c] {f : EncodingFault}
    {k : PUnit → Decoder β} :
    (if c then (fault f >>= k) else k ()).run input = .ok (w, rest) ↔
      ¬ c ∧ (k ()).run input = .ok (w, rest) :=
  run_guard_eq_ok_iff

end

end Hypertree.Decoder
