import Postmortem.Proofs.Image.StoredIntegers
import Postmortem.Proofs.Memory.Update

/-!
# What was read is mapped

An integer that was read lies on mapped bytes, and no image has more of them than its length says.
So a traversal that reads something new at every step makes only so many steps, whatever the memory
holds.

* `mapped_of_readUnsigned`, `mem_addresses_of_readAddress` — the bytes that a reading went through.
* `length_le_of_nodup`, `le_length_of_mapped` — no more addresses than mapped bytes.
* `succ_lt_addressSpace` — the last address of all is never mapped; and no address that was read
  lies outside the address space (`lt_addressSpace_of_readAddress`).
* `readUnsigned_ne_endless`, `readAddress_ne_endless` — no single integer is without end.
* `IsIndirect` — a type of elements held through a pointer.  Only the lookup of that pointer can keep
  an element from being found (`member_of_elementPayload`).
-/

namespace Postmortem

namespace Memory

variable {m : Memory}

lemma mapped_of_read {address length : ℕ} {bytes : List UInt8}
    (h : m.read address length = some bytes) :
    Finset.Ico address (address + length) ⊆ addresses m.segments := by
  intro x hx
  obtain ⟨above, below⟩ := Finset.mem_Ico.mp hx
  obtain ⟨-, hlength, hbytes⟩ := read_eq_some_iff_bytes.mp h
  obtain ⟨i, rfl⟩ := Nat.exists_eq_add_of_le above
  have inside : i < bytes.length := by omega
  have hbyte := hbytes i (by omega)
  rw [List.getElem?_eq_getElem inside] at hbyte
  refine mem_addresses.mpr ?_
  rw [← byteAt?, hbyte]
  exact Option.some_ne_none _

/-- **Different mapped addresses are at most as many as the mapped bytes.** -/
lemma length_le_of_nodup {found : List ℕ} (distinct : found.Nodup)
    (mapped : ∀ x ∈ found, x ∈ addresses m.segments) : found.length ≤ m.length := by
  have subset : found.toFinset ⊆ addresses m.segments :=
    fun x hx => mapped x (List.mem_toFinset.mp hx)
  calc found.length = found.toFinset.card := (List.toFinset_card_of_nodup distinct).symm
    _ ≤ (addresses m.segments).card := Finset.card_le_card subset
    _ = m.length := m.length_eq_card.symm

lemma le_length_of_mapped {address length : ℕ}
    (mapped : Finset.Ico address (address + length) ⊆ addresses m.segments) :
    length ≤ m.length := by
  have bounded := Finset.card_le_card mapped
  rwa [Nat.card_Ico, Nat.add_sub_cancel_left, ← length_eq_card] at bounded

/-- The address after a mapped one is still an address. -/
lemma succ_lt_addressSpace {x : ℕ} (mapped : x ∈ addresses m.segments) : x + 1 < addressSpace := by
  have hbyte := mem_addresses.mp mapped
  rw [ne_eq, byteIn?_eq_none_iff] at hbyte
  push Not at hbyte
  obtain ⟨s, hs, -, below⟩ := hbyte
  have := m.bounded s hs
  omega

end Memory

namespace TypeTable

/-- The name of a type says that its objects are elements held through a pointer. -/
def IsIndirect (types : TypeTable) (id : TypeId) : Prop :=
  ∃ name, types.nameOf id = .ok name ∧ TypeName.startsWith name indirectElementStart = true

end TypeTable

namespace Image

variable {image : Image} {o : Object}

lemma mapped_of_readUnsigned {word : Word} (h : image.readUnsigned o = .ok word) :
    ∃ info, image.types.info o.type = .ok info ∧ info.isScalar = true ∧
      Finset.Ico o.address (o.address + info.size) ⊆ addresses image.memory.segments := by
  obtain ⟨info, found, h⟩ := bind_eq_ok.mp h
  split at h
  · next scalar =>
    obtain ⟨bytes, read, -⟩ := bind_eq_ok.mp h
    rw [readBytes] at read
    split at read
    · next hread => exact ⟨info, found, scalar, Memory.mapped_of_read hread⟩
    · contradiction
  · contradiction

lemma exists_word_of_readAddress {address : ℕ} (h : image.readAddress o = .ok address) :
    ∃ word, image.readUnsigned o = .ok word ∧ word.toNat = address := by
  obtain ⟨info, -, h⟩ := bind_eq_ok.mp h
  split at h
  · obtain ⟨word, read, h⟩ := bind_eq_ok.mp h
    exact ⟨word, read, Except.ok.inj h⟩
  · contradiction

lemma mem_addresses_of_readAddress {address : ℕ} (h : image.readAddress o = .ok address) :
    o.address ∈ addresses image.memory.segments := by
  obtain ⟨word, read, -⟩ := exists_word_of_readAddress h
  obtain ⟨info, -, scalar, mapped⟩ := mapped_of_readUnsigned read
  have := TypeInfo.size_pos scalar
  exact mapped (Finset.mem_Ico.mpr ⟨Nat.le_refl _, by omega⟩)

lemma lt_addressSpace_of_readAddress {address : ℕ} (h : image.readAddress o = .ok address) :
    address < addressSpace := by
  obtain ⟨word, -, rfl⟩ := exists_word_of_readAddress h
  exact word.isLt

/-! ## Readings without end -/

lemma info_ne_endless {types : TypeTable} {id : TypeId} : types.info id ≠ .error .endless := by
  rw [TypeTable.info]
  split <;> simp

lemma readUnsigned_ne_endless : image.readUnsigned o ≠ .error .endless := by
  intro h
  rcases bind_eq_error.mp h with h | ⟨info, -, h⟩
  · exact info_ne_endless h
  · split at h
    · rcases bind_eq_error.mp h with h | ⟨bytes, -, h⟩
      · rw [readBytes] at h
        split at h <;> simp at h
      · contradiction
    · simp at h

lemma readAddress_ne_endless : image.readAddress o ≠ .error .endless := by
  intro h
  rcases bind_eq_error.mp h with h | ⟨info, -, h⟩
  · exact info_ne_endless h
  · split at h
    · rcases bind_eq_error.mp h with h | ⟨word, -, h⟩
      · exact readUnsigned_ne_endless h
      · contradiction
    · simp at h

lemma deref_ne_endless {pointer : Object} : image.deref pointer ≠ .error .endless := by
  intro failed
  rcases bind_eq_error.mp failed with failed | ⟨info, -, failed⟩
  · exact info_ne_endless failed
  · split at failed
    · rcases bind_eq_error.mp failed with failed | ⟨address, -, failed⟩
      · exact readAddress_ne_endless failed
      · split at failed
        · simp at failed
        · contradiction
    · simp at failed

/-- Only an indirect element, whose member is looked up without end, is followed for ever. -/
lemma member_of_elementPayload {o : Object} (failed : image.elementPayload o = .error .endless) :
    image.types.IsIndirect o.type ∧ image.types.member o.type "p" = .error .endless := by
  rcases bind_eq_error.mp failed with failed | ⟨name, named, failed⟩
  · rcases bind_eq_error.mp failed with failed | ⟨info, -, failed⟩
    · exact absurd failed info_ne_endless
    · contradiction
  · split at failed
    · next indirect =>
      refine ⟨⟨name, named, indirect⟩, ?_⟩
      rcases bind_eq_error.mp failed with failed | ⟨pointer, -, failed⟩
      · rcases bind_eq_error.mp failed with failed | ⟨place, -, failed⟩
        · exact failed
        · contradiction
      · exact absurd failed deref_ne_endless
    · contradiction

end Image

end Postmortem
