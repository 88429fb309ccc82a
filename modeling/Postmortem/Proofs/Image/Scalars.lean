import Mathlib.Data.Int.ModEq
import Postmortem.Proofs.Image.StoredIntegers
import Postmortem.Proofs.Memory.Update

/-!
# Integers written and read back

An integer of 1, 2, 4 or 8 bytes can be written anywhere, over any segments, and is read back under
any scalar type of its size, with or without a sign.  The other way round, an integer that was read
may be written back, and nothing has happened.

* `toNat_decode_encode`, `encode_decode` — bytes and words, either way, in both byte orders.
* `TwosComplement` — what the signed integer of a number is; there is exactly one
  (`twosComplement_iff`).
* **`splice_slice`** — a part of a segment, laid over the segments it comes from, leaves them as they
  are.  The parts before the new bytes and after them are what the overlay keeps, and no other
  segment is touched.
* **`scalar_written_and_read`** — all of it together, for an image.
-/

namespace Postmortem

/-! ## Words -/

namespace ByteOrder

variable {order : ByteOrder}

lemma pow_bytes (size : ℕ) : Nat.pow 256 size = 2 ^ (8 * size) :=
  (pow_mul 2 8 size).symm

/-- **As many bytes as were written are read.** -/
lemma toNat_decode_encode {size : ℕ} (room : size ≤ 8) (word : Word) :
    (order.decode (order.encode size word)).toNat = word.toNat % 2 ^ (8 * size) := by
  have fits : word.toNat % 2 ^ (8 * size) < 2 ^ 64 :=
    (Nat.mod_lt _ (Nat.two_pow_pos _)).trans_le (Nat.pow_le_pow_right (by decide) (by omega))
  rw [decode, encode, arrange_arrange, ofLowBytes_lowBytes, pow_bytes, BitVec.toNat_ofNat,
    Nat.mod_eq_of_lt fits]

/-- **What bytes were read as is written as those bytes.** -/
lemma encode_decode {bytes : List UInt8} (room : bytes.length ≤ 8) :
    order.encode bytes.length (order.decode bytes) = bytes := by
  have digits := ofLowBytes_lt (order.arrange bytes)
  rw [length_arrange, pow_bytes] at digits
  have fits : ofLowBytes (order.arrange bytes) < 2 ^ 64 :=
    digits.trans_le (Nat.pow_le_pow_right (by decide) (by omega))
  have back := lowBytes_ofLowBytes (order.arrange bytes)
  rw [length_arrange] at back
  rw [encode, decode, BitVec.toNat_ofNat, Nat.mod_eq_of_lt fits, back, arrange_arrange]

end ByteOrder

/-- A signed integer of so many bits that agrees with a number as far as these bits go. -/
def TwosComplement (bits n : ℕ) (m : ℤ) : Prop :=
  -2 ^ (bits - 1) ≤ m ∧ m < 2 ^ (bits - 1) ∧ m ≡ n [ZMOD 2 ^ bits]

/-- **There is exactly one**, since the integers of so many bits lie closer together than two that
agree. -/
lemma twosComplement_iff {bits n : ℕ} (pos : 0 < bits) {m : ℤ} :
    TwosComplement bits n m ↔ m = (BitVec.ofNat bits n).toInt := by
  have double : (2 : ℤ) ^ bits = 2 * 2 ^ (bits - 1) := by
    rw [← pow_succ', Nat.sub_add_cancel pos]
  have low := BitVec.le_two_mul_toInt (x := BitVec.ofNat bits n)
  have high := BitVec.two_mul_toInt_lt (x := BitVec.ofNat bits n)
  have agrees : (BitVec.ofNat bits n).toInt ≡ n [ZMOD 2 ^ bits] := by
    rw [BitVec.toInt_ofNat', Int.ModEq]
    exact_mod_cast Int.bmod_emod
  constructor
  · rintro ⟨above, below, same⟩
    have divides : (2 : ℤ) ^ bits ∣ m - (BitVec.ofNat bits n).toInt :=
      (agrees.trans same.symm).dvd
    exact Int.sub_eq_zero.mp (Int.eq_zero_of_abs_lt_dvd divides (by rw [abs_lt]; omega))
  · rintro rfl
    exact ⟨by omega, by omega, agrees⟩

/-- The signed reading of a word depends on its low bytes only. -/
lemma twosComplement_signedValue {size n : ℕ} (pos : 0 < size) {word : Word}
    (low : word.toNat = n % 2 ^ (8 * size)) {m : ℤ} :
    TwosComplement (8 * size) n m ↔ m = signedValue size word := by
  have same : word.setWidth (8 * size) = BitVec.ofNat (8 * size) n := by
    refine BitVec.eq_of_toNat_eq ?_
    rw [BitVec.toNat_setWidth, BitVec.toNat_ofNat, low, Nat.mod_mod]
  rw [twosComplement_iff (by omega), signedValue, same]

/-! ## A part of a segment laid over it -/

lemma Segment.length_slice {s : Segment} {address length : ℕ} (holds : s.Holds address length) :
    (s.slice address length).length = length := by
  have ⟨above, inside⟩ := holds
  rw [limit] at inside
  rw [slice, Array.length_toList, Array.size_extract]
  omega

lemma Segment.overlay_slice {s : Segment} {address length : ℕ} (holds : s.Holds address length) :
    s.overlay address (s.slice address length).toArray = s := by
  have size : (s.slice address length).toArray.size = length := length_slice holds
  obtain ⟨above, inside⟩ := holds
  rw [limit] at inside
  rw [overlay, size, Nat.min_eq_right above, slice, Array.toArray_toList]
  congr 1
  rw [Array.extract_append_extract, Nat.zero_min, Nat.max_eq_right (by omega),
    show address + length - s.base = address - s.base + length by omega,
    Array.extract_append_extract, Nat.zero_min, Nat.max_eq_right (by omega), Array.extract_size]

/-- **A part of a segment, laid over the segments it comes from, leaves them as they are.** -/
lemma splice_slice {segments : List Segment} (apart : segments.Pairwise Segment.Before)
    {s : Segment} (hs : s ∈ segments) {address length : ℕ} (holds : s.Holds address length)
    (pos : 0 < length) : splice address (s.slice address length).toArray segments = segments := by
  have size : (s.slice address length).toArray.size = length := Segment.length_slice holds
  have ⟨above, inside⟩ := holds
  induction segments with
  | nil => simp at hs
  | cons head rest ih =>
      have ⟨hHead, hRest⟩ := List.pairwise_cons.mp apart
      rcases List.mem_cons.mp hs with rfl | hs
      · have below : ¬ s.ClearBelow address (s.slice address length).toArray := by
          rintro ⟨-, past, -⟩
          omega
        rw [splice, if_neg below, if_neg fun clear => absurd clear.1 (Nat.not_lt.mpr above),
          Segment.overlay_slice holds, splice_of_before hHead]
      · obtain ⟨lower, clear⟩ := hHead s hs
        have below : head.ClearBelow address (s.slice address length).toArray := by
          refine ⟨by omega, by omega, ?_⟩
          rw [size]
          omega
        rw [splice, if_pos below, ih hRest hs]

/-- What a range was read as may be written over it. -/
lemma Memory.map_of_read {m : Memory} {address length : ℕ} {bytes : List UInt8}
    (h : m.read address length = some bytes) (pos : 0 < length) : m.map address bytes = some m := by
  obtain ⟨s, hs, holds, rfl⟩ := read_eq_some_iff.mp h
  have within := m.bounded s hs
  have ⟨above, inside⟩ := holds
  have fits : address + (s.slice address length).length < addressSpace := by
    rw [Segment.length_slice holds]
    omega
  exact map_eq_some_iff.mpr ⟨fits, (splice_slice m.apart hs holds pos).symm⟩

/-! ## Images -/

namespace Image

variable {image : Image}

lemma isScalar_of_kind {info : TypeInfo} (kind : info.kind = .unsigned ∨ info.kind = .signed ∨
      ∃ target, info.kind = .pointer target) (sized : info.size ∈ [1, 2, 4, 8]) :
    info.isScalar = true := by
  rcases kind with kind | kind | ⟨target, kind⟩ <;>
    simpa only [TypeInfo.isScalar, kind, List.contains_iff_mem] using sized

lemma size_of_isScalar {info : TypeInfo} (scalar : info.isScalar = true) :
    info.size ∈ [1, 2, 4, 8] := by
  rw [TypeInfo.isScalar] at scalar
  split at scalar <;> simp_all

lemma le_eight_of_mem {size : ℕ} (sized : size ∈ [1, 2, 4, 8]) : 0 < size ∧ size ≤ 8 := by
  simp only [List.mem_cons, List.not_mem_nil, or_false] at sized
  omega

lemma readSigned_of_readUnsigned {o : Object} {info : TypeInfo} {word : Word}
    (found : image.types.get? o.type = some info) (h : image.readUnsigned o = .ok word) :
    image.readSigned o = .ok (signedValue info.size word) := by
  rw [readSigned, h, ok_bind, TypeTable.byteSize, TypeTable.info_of_get? found]
  rfl

/-- An integer that was written is there, whatever the memory was. -/
lemma exists_write {address size : ℕ} (room : size ≤ 8) (inside : address + size < addressSpace)
    (word : Word) :
    ∃ memory, image.memory.map address (image.order.encode size word) = some memory ∧
      image.write address size word = some { image with memory } ∧
      memory.read address size = some (image.order.encode size word) := by
  have length : (image.order.encode size word).length = size := ByteOrder.length_encode ..
  cases h : image.memory.map address (image.order.encode size word) with
  | none =>
      have past := Memory.map_eq_none_iff.mp h
      omega
  | some memory =>
      have read := Memory.read_map h
      rw [length] at read
      exact ⟨memory, rfl, by rw [write, if_pos room, map, h, Option.map_some], read⟩

/-- What an integer was read as may be written over it. -/
lemma write_of_readUnsigned {o : Object} {word : Word} (h : image.readUnsigned o = .ok word) :
    ∃ size, image.types.byteSize o.type = .ok size ∧
      image.write o.address size word = some image := by
  obtain ⟨info, hinfo, h⟩ := bind_eq_ok.mp h
  split at h
  · next scalar =>
    obtain ⟨bytes, hbytes, hword⟩ := bind_eq_ok.mp h
    obtain rfl : image.order.decode bytes = word := Except.ok.inj hword
    have ⟨pos, room⟩ := le_eight_of_mem (size_of_isScalar scalar)
    rw [readBytes] at hbytes
    split at hbytes
    · next read =>
      obtain rfl := Except.ok.inj hbytes
      have length := Memory.length_of_read read
      have same := @ByteOrder.encode_decode image.order _ (length.symm ▸ room)
      rw [length] at same
      refine ⟨info.size, by rw [TypeTable.byteSize, hinfo]; rfl, ?_⟩
      rw [write, if_pos room, map, same, Memory.map_of_read read pos, Option.map_some]
    · contradiction
  · contradiction

end Image

/-- **An integer is read as it was written, and may be written as it was read.**  Written in 1, 2, 4
or 8 bytes at an address where these end before the last, it is read back under any integer or
pointer type of that size as its low bytes, and with its sign as the one integer in the signed range
that agrees with them; every other byte is as it was.  And what an object was read as, written back
in the size of its type, leaves the image as it is, byte for byte and segment for segment. -/
theorem scalar_written_and_read (image : Image) :
    (∀ address size, ∀ word : Word, size ∈ [1, 2, 4, 8] → address + size < addressSpace →
      ∃ image', image.write address size word = some image' ∧
        (∀ types id info, types.get? id = some info → info.size = size →
          (info.kind = .unsigned ∨ info.kind = .signed ∨ ∃ target, info.kind = .pointer target) →
          (∃ low, { image' with types }.readUnsigned ⟨address, id⟩ = .ok low ∧
            low.toNat = word.toNat % 2 ^ (8 * size)) ∧
          ∃ n, { image' with types }.readSigned ⟨address, id⟩ = .ok n ∧
            ∀ m, TwosComplement (8 * size) word.toNat m ↔ m = n) ∧
        image'.types = image.types ∧
        ∀ x, x < address ∨ address + size ≤ x →
          image'.readBytes x 1 = image.readBytes x 1) ∧
    ∀ o word, image.readUnsigned o = .ok word →
      ∃ size, image.types.byteSize o.type = .ok size ∧
        image.write o.address size word = some image := by
  refine ⟨fun address size word sized inside => ?_, fun o word h => Image.write_of_readUnsigned h⟩
  have ⟨pos, room⟩ := Image.le_eight_of_mem sized
  obtain ⟨memory, hmap, written, read⟩ := Image.exists_write room inside word
  have low := @ByteOrder.toNat_decode_encode image.order _ room word
  refine ⟨_, written, fun types id info found fits kind => ?_, rfl, fun x outside => ?_⟩
  · subst fits
    have unsigned : { image with memory, types }.readUnsigned ⟨address, id⟩ =
        .ok (image.order.decode (image.order.encode info.size word)) :=
      Image.readUnsigned_of_read found (Image.isScalar_of_kind kind sized) read
    exact ⟨⟨_, unsigned, low⟩, _, Image.readSigned_of_readUnsigned found unsigned,
      fun m => twosComplement_signedValue pos low⟩
  · rw [Image.readBytes, Image.readBytes, Memory.read_one, Memory.read_one,
      Memory.byteAt?_map hmap, ByteOrder.length_encode, if_neg (by omega)]

/-- Two segments with a gap between them, where integers have their most significant byte first. -/
def torn : Image where
  order := .big
  memory :=
    { segments := [⟨0x10, #[1, 2, 3, 4]⟩, ⟨0x15, #[5, 6, 7]⟩]
      apart := by decide
      bounded := by decide }
  types := ⟨#[some (.plain "int" 4 .signed), some (.plain "char16_t" 2 .unsigned)]⟩

/-- A negative number across the gap, and one that lies beside it. -/
theorem torn_written_and_read :
    ∃ image', torn.write 0x13 4 0x1ffffff80 = some image' ∧
      image'.readUnsigned ⟨0x13, 0⟩ = .ok 0xffffff80 ∧
      image'.readSigned ⟨0x13, 0⟩ = .ok (-128) ∧
      image'.readBytes 0x17 1 = torn.readBytes 0x17 1 ∧
      torn.write 0x12 2 0x0304 = some torn := by
  obtain ⟨written, again⟩ := scalar_written_and_read torn
  obtain ⟨image', h, back, types, outside⟩ := written 0x13 4 0x1ffffff80 (by decide) (by decide)
  obtain ⟨⟨low, unsigned, value⟩, n, signed, unique⟩ := back torn.types 0 _ rfl rfl (.inr (.inl rfl))
  have same : { image' with types := torn.types } = image' := by rw [← types]
  rw [same] at unsigned signed
  obtain rfl : low = 0xffffff80 := BitVec.eq_of_toNat_eq value
  obtain rfl : -128 = n := (unique (-128)).mp ⟨by decide, by decide, by decide⟩
  obtain ⟨size, sized, unchanged⟩ := again ⟨0x12, 1⟩ 0x0304 rfl
  obtain rfl : 2 = size := Except.ok.inj sized
  exact ⟨image', h, unsigned, signed, outside 0x17 (.inr (by decide)), unchanged⟩

end Postmortem
