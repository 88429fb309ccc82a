/-!
# Words: 64-bit data and their bytes

Whatever is stored in memory and read as an integer is a `Word` of 64 bits.  This file relates words
to the bytes that hold them, in either byte order and any number of bytes.

* `ByteOrder` — least or most significant byte first; `ByteOrder.arrange` passes between the order
  of the digits and the order in memory, and is its own inverse.
* `lowBytes` / `ofLowBytes` — the base-256 digits of a number, least significant first, with
  **`ofLowBytes_lowBytes`** (writing `size` digits keeps the number modulo 256 to the power `size`)
  and **`lowBytes_ofLowBytes`** (digits read back as themselves).
* `ByteOrder.encode` / `ByteOrder.decode` — a word as `size` bytes and back.
* `signedValue` — the same bytes read as a signed integer.
-/

namespace Postmortem

/-- A 64-bit datum. -/
abbrev Word := BitVec 64

/-! ## Digits -/

/-- The `size` low base-256 digits of a number, least significant first. -/
def lowBytes : Nat → Nat → List UInt8
  | 0, _ => []
  | size + 1, n => UInt8.ofNat n :: lowBytes size (n / 256)

/-- The number with these base-256 digits, least significant first. -/
def ofLowBytes : List UInt8 → Nat
  | [] => 0
  | b :: bs => b.toNat + 256 * ofLowBytes bs

@[simp] theorem length_lowBytes (size n : Nat) : (lowBytes size n).length = size := by
  induction size generalizing n with
  | zero => rfl
  | succ size ih => simp [lowBytes, ih]

/-- **Digits keep the number modulo the room they have.** -/
theorem ofLowBytes_lowBytes (size n : Nat) :
    ofLowBytes (lowBytes size n) = n % Nat.pow 256 size := by
  induction size generalizing n with
  | zero => exact (Nat.mod_one n).symm
  | succ size ih =>
    have hpow : Nat.pow 256 (size + 1) = 256 * Nat.pow 256 size := Nat.mul_comm _ _
    rw [lowBytes, ofLowBytes, ih, hpow, Nat.mod_mul, UInt8.toNat_ofNat']

/-- A number has at most as many digits as were given. -/
theorem ofLowBytes_lt (bytes : List UInt8) : ofLowBytes bytes < Nat.pow 256 bytes.length := by
  induction bytes with
  | nil => exact Nat.one_pos
  | cons b bs ih =>
    have hb : b.toNat < 256 := b.toNat_lt
    have hpow : Nat.pow 256 (bs.length + 1) = 256 * Nat.pow 256 bs.length := Nat.mul_comm _ _
    rw [ofLowBytes, List.length_cons, hpow]
    omega

/-- **Digits read back as themselves.** -/
theorem lowBytes_ofLowBytes (bytes : List UInt8) :
    lowBytes bytes.length (ofLowBytes bytes) = bytes := by
  induction bytes with
  | nil => rfl
  | cons b bs ih =>
    have hb : b.toNat < 256 := b.toNat_lt
    have hq : (b.toNat + 256 * ofLowBytes bs) / 256 = ofLowBytes bs := by omega
    have hr : UInt8.ofNat (b.toNat + 256 * ofLowBytes bs) = b := by
      apply UInt8.toNat_inj.mp
      rw [UInt8.toNat_ofNat']
      omega
    rw [List.length_cons, ofLowBytes, lowBytes, hq, hr, ih]

/-! ## Byte order -/

/-- Which byte of an integer lies at its address. -/
inductive ByteOrder where
  /-- The least significant byte comes first. -/
  | little
  /-- The most significant byte comes first. -/
  | big
  deriving Repr, DecidableEq

namespace ByteOrder

/-- Passes between digits, least significant first, and the bytes in memory. -/
def arrange : ByteOrder → List UInt8 → List UInt8
  | little, bytes => bytes
  | big, bytes => bytes.reverse

@[simp] theorem arrange_arrange (order : ByteOrder) (bytes : List UInt8) :
    order.arrange (order.arrange bytes) = bytes := by
  cases order <;> simp [arrange]

@[simp] theorem length_arrange (order : ByteOrder) (bytes : List UInt8) :
    (order.arrange bytes).length = bytes.length := by
  cases order <;> simp [arrange]

/-- The `size` low bytes of a word as they lie in memory. -/
def encode (order : ByteOrder) (size : Nat) (word : Word) : List UInt8 :=
  order.arrange (lowBytes size word.toNat)

/-- The word held by bytes in memory, zero extended. -/
def decode (order : ByteOrder) (bytes : List UInt8) : Word :=
  BitVec.ofNat 64 (ofLowBytes (order.arrange bytes))

@[simp] theorem length_encode (order : ByteOrder) (size : Nat) (word : Word) :
    (order.encode size word).length = size := by
  simp [encode]

end ByteOrder

/-! ## Signed reading -/

/-- The two's-complement integer held by the low `size` bytes of a word. -/
def signedValue (size : Nat) (word : Word) : Int :=
  (word.setWidth (8 * size)).toInt

end Postmortem
