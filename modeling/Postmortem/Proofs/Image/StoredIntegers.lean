import Postmortem.Image.Wrapper
import Postmortem.Proofs.Reading

/-!
# Integers as they are stored

An integer lies in memory as bytes in the order of the image, under a type that keeps it in one of
four ways: plainly, as an atomic, or in a member `n` that is either of them.  Whatever the way, it
is read back.

* `Image.Stores` — the bytes of a word lie at an address.
* `Payload` — what a type stands for, if it is an atomic.
* `IntegerType` — a type holds an integer plainly or as an atomic.
* `KeepsInteger` — a type keeps an integer at a distance from its start, perhaps in its member `n`.
* **`readIntegral_of_stores`** — the word that is stored is the one that is read.
* `index_eq_ok` — where the elements of an array lie.
* `address_lt_limit_of_readIntegral` — what could be read lies below the last mapped byte.
-/

namespace Postmortem

/-- The `size` low bytes of a word lie at an address, in the byte order of the image. -/
def Image.Stores (image : Image) (address size : ℕ) (word : Word) : Prop :=
  image.memory.read address size = some (image.order.encode size word)

/-! ## Types that hold integers -/

/-- What a type stands for: an atomic for what it was instantiated with, any other for itself. -/
inductive Payload (types : TypeTable) : TypeId → TypeId → Prop
  | plain {id : TypeId} {info : TypeInfo} (found : types.get? id = some info)
      (named : TypeName.startsWith info.name atomicStart = false) : Payload types id id
  | atomic {id inner : TypeId} {info : TypeInfo} (found : types.get? id = some info)
      (named : TypeName.startsWith info.name atomicStart = true)
      (argument : info.templateArgs[0]? = some inner) : Payload types id inner

/-- The type is an integer of `size` bytes, or an atomic made from one. -/
inductive IntegerType (types : TypeTable) (size : ℕ) : TypeId → Prop
  | plain {id : TypeId} {info : TypeInfo} (found : types.get? id = some info)
      (scalar : info.isScalar = true) (sized : info.size = size)
      (named : TypeName.startsWith info.name atomicStart = false) : IntegerType types size id
  | atomic {id inner : TypeId} {info innerInfo : TypeInfo} (found : types.get? id = some info)
      (named : TypeName.startsWith info.name atomicStart = true)
      (argument : info.templateArgs[0]? = some inner)
      (innerFound : types.get? inner = some innerInfo) (scalar : innerInfo.isScalar = true)
      (sized : innerInfo.size = size) : IntegerType types size id

/-- The type keeps an integer of `size` bytes at this distance from its start: there and then, or in
its member `n`. -/
inductive KeepsInteger (types : TypeTable) (size : ℕ) : TypeId → ℕ → Prop
  | direct {id : TypeId} (held : IntegerType types size id) : KeepsInteger types size id 0
  | member {id : TypeId} {info : TypeInfo} {fields : List Field} {place : Place}
      (found : types.get? id = some info) (record : info.kind = .record fields)
      (named : TypeName.startsWith info.name atomicStart = false)
      (n : types.member id "n" = .ok place) (held : IntegerType types size place.type) :
      KeepsInteger types size id place.offset

lemma TypeTable.info_of_get? {types : TypeTable} {id : TypeId} {info : TypeInfo}
    (h : types.get? id = some info) : types.info id = .ok info := by
  rw [TypeTable.info, h]

lemma TypeInfo.kind_ne_record {info : TypeInfo} (scalar : info.isScalar = true)
    (fields : List Field) : info.kind ≠ .record fields := by
  intro h
  simp [isScalar, h] at scalar

lemma TypeInfo.size_pos {info : TypeInfo} (scalar : info.isScalar = true) : 0 < info.size := by
  refine Nat.pos_of_ne_zero fun zero => ?_
  simp only [isScalar, zero] at scalar
  split at scalar <;> simp at scalar

/-! ## Reading them -/

namespace Image

variable {image : Image}

lemma decode_encode {order : ByteOrder} {size : ℕ} {word : Word}
    (fits : word.toNat < Nat.pow 256 size) : order.decode (order.encode size word) = word := by
  rw [ByteOrder.decode, ByteOrder.encode, ByteOrder.arrange_arrange, ofLowBytes_lowBytes,
    Nat.mod_eq_of_lt fits, BitVec.ofNat_toNat, BitVec.setWidth_eq]

lemma readUnsigned_of_read {address : ℕ} {id : TypeId} {info : TypeInfo} {bytes : List UInt8}
    (found : image.types.get? id = some info) (scalar : info.isScalar = true)
    (read : image.memory.read address info.size = some bytes) :
    image.readUnsigned ⟨address, id⟩ = .ok (image.order.decode bytes) := by
  rw [readUnsigned, TypeTable.info_of_get? found, ok_bind, if_pos scalar, readBytes, read, ok_bind]
  rfl

lemma readUnsigned_of_stores {address size : ℕ} {id : TypeId} {info : TypeInfo} {word : Word}
    (found : image.types.get? id = some info) (scalar : info.isScalar = true)
    (sized : info.size = size) (stored : image.Stores address size word)
    (fits : word.toNat < Nat.pow 256 size) :
    image.readUnsigned ⟨address, id⟩ = .ok word := by
  subst sized
  rw [readUnsigned_of_read found scalar stored, decode_encode fits]

lemma typeName_of_get? {o : Object} {info : TypeInfo}
    (found : image.types.get? o.type = some info) : image.typeName o = .ok info.name := by
  rw [typeName, TypeTable.nameOf, TypeTable.info_of_get? found]
  rfl

/-- Whatever is no atomic is left as it is. -/
lemma atomicPayload_self {o : Object} {info : TypeInfo}
    (found : image.types.get? o.type = some info)
    (named : TypeName.startsWith info.name atomicStart = false) :
    image.atomicPayload o = .ok o := by
  rw [atomicPayload, typeName_of_get? found, ok_bind, named]
  rfl

lemma atomicPayload_of_payload {id inner : TypeId} (payload : Payload image.types id inner)
    (address : ℕ) : image.atomicPayload ⟨address, id⟩ = .ok ⟨address, inner⟩ := by
  cases payload with
  | plain found named => exact atomicPayload_self found named
  | atomic found named argument =>
      have hargument : image.types.templateArg id 0 = .ok inner := by
        rw [TypeTable.templateArg, TypeTable.info_of_get? found, ok_bind, argument]
        rfl
      rw [atomicPayload, typeName_of_get? found, ok_bind, if_pos named, hargument]
      rfl

/-- An object of an integer type stands for an integer that is read at its address. -/
lemma atomicPayload_of_integerType {size address : ℕ} {id : TypeId}
    (held : IntegerType image.types size id) :
    ∃ inner info, image.atomicPayload ⟨address, id⟩ = .ok ⟨address, inner⟩ ∧
      image.types.get? inner = some info ∧ info.isScalar = true ∧ info.size = size := by
  cases held with
  | plain found scalar sized named =>
      exact ⟨_, _, atomicPayload_of_payload (.plain found named) address, found, scalar, sized⟩
  | atomic found named argument innerFound scalar sized =>
      exact ⟨_, _, atomicPayload_of_payload (.atomic found named argument) address, innerFound,
        scalar, sized⟩

/-- **A stored integer is read back, however its type keeps it.** -/
lemma readIntegral_of_stores {size address offset : ℕ} {id : TypeId} {word : Word}
    (keeps : KeepsInteger image.types size id offset)
    (stored : image.Stores (address + offset) size word)
    (fits : word.toNat < Nat.pow 256 size) :
    image.readIntegral ⟨address, id⟩ = .ok word := by
  cases keeps with
  | direct held =>
      obtain ⟨inner, info, hpayload, found, scalar, sized⟩ := atomicPayload_of_integerType held
      rw [readIntegral, hpayload, ok_bind, TypeTable.info_of_get? found, ok_bind]
      split
      · next fields hkind => exact absurd hkind (TypeInfo.kind_ne_record scalar fields)
      · exact readUnsigned_of_stores found scalar sized stored fits
  | @member info fields place found record named n held =>
      obtain ⟨inner, innerInfo, hpayload, innerFound, scalar, sized⟩ :=
        @atomicPayload_of_integerType image size (address + place.offset) place.type held
      have hfield : image.field ⟨address, id⟩ "n" = .ok ⟨address + place.offset, place.type⟩ := by
        rw [field, n]
        rfl
      rw [readIntegral, atomicPayload_self found named, ok_bind, TypeTable.info_of_get? found,
        ok_bind, record]
      show image.field ⟨address, id⟩ "n" >>= _ = _
      rw [hfield, ok_bind, hpayload, ok_bind]
      exact readUnsigned_of_stores innerFound scalar sized stored fits

/-! ## Arrays -/

section Arrays

variable {address length stride : ℕ} {id word : TypeId} {info : TypeInfo}
  (found : image.types.get? id = some info) (kind : info.kind = .array word length)
include found kind

lemma arrayLength_of_array : image.arrayLength ⟨address, id⟩ = .ok length := by
  rw [arrayLength, TypeTable.info_of_get? found, ok_bind, kind]
  rfl

/-- The elements of an array lie one after the other. -/
lemma index_eq_ok (sized : image.types.byteSize word = .ok stride) {i : ℕ} {element : Object} :
    image.index ⟨address, id⟩ i = .ok element ↔
      i < length ∧ ⟨address + stride * i, word⟩ = element := by
  rw [index, TypeTable.info_of_get? found, ok_bind, kind]
  show (if i < length then _ else _) = _ ↔ _
  split
  · next inside =>
    rw [sized, ok_bind]
    simp [inside, pure, Except.pure]
  · next outside => simp [outside]

end Arrays

/-! ## Where they can lie -/

lemma address_lt_limit_of_readUnsigned {o : Object} {word : Word}
    (h : image.readUnsigned o = .ok word) : o.address < image.memory.limit := by
  obtain ⟨info, -, h⟩ := bind_eq_ok.mp h
  split at h
  · next scalar =>
    obtain ⟨bytes, hbytes, -⟩ := bind_eq_ok.mp h
    rw [readBytes] at hbytes
    split at hbytes
    · next read =>
      have hlimit := Memory.le_limit_of_read read
      have hsize := TypeInfo.size_pos scalar
      omega
    · contradiction
  · contradiction

lemma address_of_atomicPayload {o plain : Object} (h : image.atomicPayload o = .ok plain) :
    plain.address = o.address := by
  obtain ⟨name, -, h⟩ := bind_eq_ok.mp h
  split at h
  · obtain ⟨inner, -, h⟩ := bind_eq_ok.mp h
    rw [← Except.ok.inj h]
  · rw [← Except.ok.inj h]

lemma field_eq_ok {o part : Object} {name : String} :
    image.field o name = .ok part ↔
      ∃ place, image.types.member o.type name = .ok place ∧ o.part place = part := by
  rw [field, bind_eq_ok]
  refine exists_congr fun place => and_congr_right fun _ => ?_
  exact ⟨Except.ok.inj, congrArg _⟩

lemma address_le_of_field {o part : Object} {name : String} (h : image.field o name = .ok part) :
    o.address ≤ part.address := by
  obtain ⟨place, -, rfl⟩ := field_eq_ok.mp h
  exact Nat.le_add_right _ _

/-- An integer that can be read lies below the last mapped byte, through all its wrappers. -/
lemma address_lt_limit_of_readIntegral {o : Object} {word : Word}
    (h : image.readIntegral o = .ok word) : o.address < image.memory.limit := by
  obtain ⟨plain, hplain, h⟩ := bind_eq_ok.mp h
  obtain ⟨info, -, h⟩ := bind_eq_ok.mp h
  rw [← address_of_atomicPayload hplain]
  split at h
  · obtain ⟨n, hn, h⟩ := bind_eq_ok.mp h
    obtain ⟨payload, hpayload, h⟩ := bind_eq_ok.mp h
    have hbelow := address_lt_limit_of_readUnsigned h
    have hpart := address_le_of_field hn
    rw [address_of_atomicPayload hpayload] at hbelow
    omega
  · exact address_lt_limit_of_readUnsigned h

end Image

/-! ## Pointers -/

lemma deref_of_target {image : Image} {pointer : Object} {address : ℕ} {type : TypeId}
    (typed : image.types.target pointer.type = .ok type)
    (here : image.readAddress pointer = .ok address) (nonnull : address ≠ 0) :
    image.deref pointer = .ok ⟨address, type⟩ := by
  obtain ⟨info, hinfo, htarget⟩ := bind_eq_ok.mp typed
  have kind : info.kind = .pointer type := by
    split at htarget
    · next target kind => rw [kind, Except.ok.inj htarget]
    · contradiction
  rw [Image.deref, hinfo, ok_bind, kind]
  show image.readAddress pointer >>= _ = _
  rw [here, ok_bind, if_neg nonnull]
  rfl

end Postmortem
