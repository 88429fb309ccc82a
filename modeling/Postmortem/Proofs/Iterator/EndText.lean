import Postmortem.Proofs.Iterator.Dereference

/-!
# The text of the iterator past the last element

An iterator that is not valid has a text of its own, `endIterator`, where any other has that of its
element in the same braces.  So the text tells them apart only because no object is written as
`end iterator`: whatever its type and whatever lies in memory, its text starts with a digit, a sign
or a brace.

* `ValueText` — a text starts as that of an object does; **`valueText_of_render`**.
* `exists_deref_of_isValid` — `p` of a valid iterator leads somewhere, for it was found not null.
* **`endIterator_iff_invalid`** — all of it together.
-/

namespace Postmortem

/-! ## How the text of an object starts -/

/-- A text starts with a digit, a sign or a brace. -/
def ValueText (text : String) : Prop :=
  ∃ first rest, text.toList = first :: rest ∧
    (first.isDigit = true ∨ first = '-' ∨ first = '\x7b')

lemma ValueText.append {text : String} (h : ValueText text) (more : String) :
    ValueText (text ++ more) := by
  obtain ⟨first, rest, htext, starts⟩ := h
  exact ⟨first, rest ++ more.toList, by rw [String.toList_append, htext, List.cons_append], starts⟩

lemma valueText_nat (n : ℕ) : ValueText (toString n) := by
  rw [Nat.toString_eq_ofList_toDigits]
  cases digits : Nat.toDigits 10 n with
  | nil => exact absurd digits Nat.toDigits_ne_nil
  | cons first rest =>
      have digit : first.isDigit = true :=
        Nat.isDigit_of_mem_toDigits (by decide) (Nat.le_refl 10) (digits ▸ List.mem_cons_self)
      exact ⟨first, rest, String.toList_ofList, .inl digit⟩

lemma valueText_int (n : Int) : ValueText (toString n) := by
  cases n with
  | ofNat n => exact valueText_nat n
  | negSucc n =>
      have sign : ValueText "-" := ⟨'-', [], rfl, .inr (.inl rfl)⟩
      exact sign.append (toString (n + 1))

lemma valueText_hexText (n : ℕ) : ValueText (hexText n) := by
  have zero : ValueText "0x" := ⟨'0', ['x'], rfl, .inl rfl⟩
  exact zero.append _

lemma valueText_braced (items : List String) : ValueText (braced items) := by
  have brace : ValueText "\x7b" := ⟨'\x7b', [], rfl, .inr (.inr rfl)⟩
  exact (brace.append _).append _

/-- **Every object is written as a number, a pointer or in braces**, whatever its type and whatever
lies in memory. -/
lemma valueText_of_render {image : Image} {depth : ℕ} {o : Object} {text : String}
    (h : image.renderNested depth o = .ok text) : ValueText text := by
  cases depth with
  | zero => contradiction
  | succ depth =>
      rw [Image.renderNested] at h
      obtain ⟨info, -, h⟩ := bind_eq_ok.mp h
      cases kind : info.kind with
      | unsigned =>
          rw [kind] at h
          obtain ⟨word, -, h⟩ := bind_eq_ok.mp h
          exact Except.ok.inj h ▸ valueText_nat _
      | signed =>
          rw [kind] at h
          obtain ⟨n, -, h⟩ := bind_eq_ok.mp h
          exact Except.ok.inj h ▸ valueText_int n
      | pointer target =>
          rw [kind] at h
          obtain ⟨address, -, h⟩ := bind_eq_ok.mp h
          exact Except.ok.inj h ▸ valueText_hexText _
      | array element length =>
          rw [kind] at h
          obtain ⟨items, -, h⟩ := bind_eq_ok.mp h
          exact Except.ok.inj h ▸ valueText_braced _
      | record fields =>
          rw [kind] at h
          obtain ⟨items, -, h⟩ := bind_eq_ok.mp h
          exact Except.ok.inj h ▸ valueText_braced _

/-- Such a text between the braces of an iterator is not the text past the last element. -/
lemma ValueText.ne_endIterator {text : String} (h : ValueText text) :
    "iterator = \x7b " ++ text ++ " \x7d" ≠ endIterator := by
  obtain ⟨first, rest, htext, starts⟩ := h
  intro same
  have letters := congrArg String.toList same
  rw [String.toList_append, String.toList_append, htext] at letters
  obtain rfl : first = 'e' := congrArg (fun cs => cs.getD 13 'e') letters
  rcases starts with digit | sign | brace <;> contradiction

/-! ## Valid iterators -/

/-- What can be read as an address has something it points to. -/
lemma Image.exists_target_of_readAddress {image : Image} {pointer : Object} {address : ℕ}
    (h : image.readAddress pointer = .ok address) :
    ∃ type, image.types.target pointer.type = .ok type := by
  obtain ⟨info, hinfo, h⟩ := bind_eq_ok.mp h
  cases kind : info.kind with
  | pointer target =>
      refine ⟨target, ?_⟩
      rw [TypeTable.target, hinfo, ok_bind, kind]
      rfl
  | _ =>
      rw [TypeInfo.isPointer, kind] at h
      contradiction

namespace IteratorHandle

variable {i : IteratorHandle} {image : Image}

/-- **`p` of a valid iterator leads somewhere.** -/
lemma exists_deref_of_isValid (valid : i.isValid image = .ok true) :
    ∃ p target, image.field i.object "p" = .ok p ∧ image.deref p = .ok target := by
  obtain ⟨p, held, h⟩ := bind_eq_ok.mp valid
  obtain ⟨address, here, h⟩ := bind_eq_ok.mp h
  split at h
  · contradiction
  · next nonnull =>
    obtain ⟨type, typed⟩ := Image.exists_target_of_readAddress here
    exact ⟨p, _, held, deref_of_target typed here nonnull⟩

lemma isValid_of_null {p : Object} (held : image.field i.object "p" = .ok p)
    (null : image.readAddress p = .ok 0) : i.isValid image = .ok false := by
  rw [isValid, held, ok_bind, null]
  rfl

lemma value_of_isValid (valid : i.isValid image = .ok true) {p target : Object}
    (held : image.field i.object "p" = .ok p) (leads : image.deref p = .ok target) :
    i.value image = (payload image i.family target).map some := by
  rw [value, valid, ok_bind, if_pos rfl, held, ok_bind, leads]
  rfl

/-- Only an iterator that is not valid has no value. -/
lemma value_eq_none_iff : i.value image = .ok none ↔ i.isValid image = .ok false := by
  constructor
  · intro h
    obtain ⟨valid, hvalid, h⟩ := bind_eq_ok.mp h
    cases valid with
    | false => exact hvalid
    | true =>
        obtain ⟨p, -, h⟩ := bind_eq_ok.mp h
        obtain ⟨target, -, h⟩ := bind_eq_ok.mp h
        obtain ⟨element, -, h⟩ := bind_eq_ok.mp h
        cases h
  · intro invalid
    rw [value, invalid]
    rfl

/-- A text is that of the element in braces, or the one past the last element. -/
lemma summary_eq_ok {text : String} : i.summary image = .ok text ↔
    (i.value image = .ok none ∧ text = endIterator) ∨
      ∃ element r, i.value image = .ok (some element) ∧ image.render element = .ok r ∧
        text = "iterator = \x7b " ++ r ++ " \x7d" := by
  rw [summary, bind_eq_ok]
  constructor
  · rintro ⟨_ | element, hvalue, h⟩
    · exact .inl ⟨hvalue, (Except.ok.inj h).symm⟩
    · obtain ⟨r, hr, h⟩ := bind_eq_ok.mp h
      exact .inr ⟨element, r, hvalue, hr, (Except.ok.inj h).symm⟩
  · rintro (⟨hvalue, rfl⟩ | ⟨element, r, hvalue, hr, rfl⟩)
    · exact ⟨none, hvalue, rfl⟩
    · exact ⟨some element, hvalue, bind_eq_ok.mpr ⟨r, hr, rfl⟩⟩

end IteratorHandle

open IteratorHandle in
/-- **The text past the last element means exactly an iterator that is not valid.**  An iterator has
that text if and only if it is not valid, if and only if it has no value; and a null `p` is enough
for that, whatever becomes of its position.  If it is valid, its `p` leads to a target, what that
holds is its value, and its text, if it has one, is that of the value in braces.  The text of a value
is never `end iterator`. -/
theorem endIterator_iff_invalid (i : IteratorHandle) (image : Image) :
    (i.summary image = .ok endIterator ↔ i.isValid image = .ok false) ∧
    (i.value image = .ok none ↔ i.isValid image = .ok false) ∧
    (∀ p, image.field i.object "p" = .ok p → image.readAddress p = .ok 0 →
      i.isValid image = .ok false) ∧
    (i.isValid image = .ok true →
      (∃ p target, image.field i.object "p" = .ok p ∧ image.deref p = .ok target ∧
        i.value image = (payload image i.family target).map some) ∧
      ∀ text, i.summary image = .ok text → ∃ element r, i.value image = .ok (some element) ∧
        image.render element = .ok r ∧ text = "iterator = \x7b " ++ r ++ " \x7d") ∧
    ∀ element r, image.render element = .ok r → r ≠ "end iterator" := by
  refine ⟨?_, value_eq_none_iff, fun p held null => isValid_of_null held null, fun valid => ⟨?_, ?_⟩,
    fun element r hr same => ?_⟩
  · rw [summary_eq_ok, ← value_eq_none_iff]
    constructor
    · rintro (⟨invalid, -⟩ | ⟨element, r, -, hr, same⟩)
      · exact invalid
      · exact absurd same.symm (valueText_of_render hr).ne_endIterator
    · exact fun invalid => .inl ⟨invalid, rfl⟩
  · obtain ⟨p, target, held, leads⟩ := exists_deref_of_isValid valid
    exact ⟨p, target, held, leads, value_of_isValid valid held leads⟩
  · intro text htext
    rcases summary_eq_ok.mp htext with ⟨invalid, -⟩ | written
    · rw [value_eq_none_iff.mp invalid] at valid
      cases valid
    · exact written
  · exact (valueText_of_render hr).ne_endIterator (same ▸ rfl)

/-- An iterator at the number 7; and two with a null `p`, of which one has its position where nothing
is mapped, and one has none. -/
def lastIterators : Image where
  order := .little
  memory :=
    { segments :=
        [⟨0x10, #[0x40, 0, 0, 0, 0, 0, 0, 0, 1, 2, 0, 0, 0, 0, 0, 0, 0, 0, 0, 0, 0, 0, 0, 0]⟩,
          ⟨0x40, #[7, 0, 0, 0]⟩]
      apart := by decide
      bounded := by decide }
  types := ⟨#[some (.plain "int" 4 .signed),
    some (.plain "int *" 8 (.pointer 0)),
    some (.plain "unsigned char" 1 .unsigned),
    some (.plain "unsigned char *" 8 (.pointer 2)),
    some (.plain "boost::unordered::detail::foa::table_iterator<policies, group15 *, true>" 16
      (.record [⟨"p", 0, 1, false⟩, ⟨"pc", 8, 3, false⟩])),
    some (.plain "stripped_iterator" 8 (.record [⟨"p", 0, 1, false⟩]))]⟩

theorem lastIterators_written :
    (∃ element, IteratorHandle.value ⟨⟨0x10, 4⟩, .grouped⟩ lastIterators = .ok (some element) ∧
      lastIterators.render element = .ok "7") ∧
    IteratorHandle.summary ⟨⟨0x10, 4⟩, .grouped⟩ lastIterators ≠ .ok endIterator ∧
    IteratorHandle.summary ⟨⟨0x20, 4⟩, .grouped⟩ lastIterators = .ok endIterator ∧
    IteratorHandle.summary ⟨⟨0x20, 5⟩, .grouped⟩ lastIterators = .ok endIterator := by
  obtain ⟨ended, -, -, valid, -⟩ := endIterator_iff_invalid ⟨⟨0x10, 4⟩, .grouped⟩ lastIterators
  obtain ⟨unmapped, -, null, -⟩ := endIterator_iff_invalid ⟨⟨0x20, 4⟩, .grouped⟩ lastIterators
  obtain ⟨missing, -, null', -⟩ := endIterator_iff_invalid ⟨⟨0x20, 5⟩, .grouped⟩ lastIterators
  have written : IteratorHandle.summary ⟨⟨0x10, 4⟩, .grouped⟩ lastIterators =
      .ok "iterator = \x7b 7 \x7d" := by decide +kernel
  obtain ⟨-, text⟩ := valid rfl
  obtain ⟨element, r, hvalue, hr, same⟩ := text _ written
  have braces : "iterator = \x7b " ++ "7" ++ " \x7d" = "iterator = \x7b " ++ r ++ " \x7d" := same
  refine ⟨⟨element, hvalue, ?_⟩, fun h => ?_, unmapped.mpr (null ⟨0x20, 1⟩ rfl rfl),
    missing.mpr (null' ⟨0x20, 1⟩ rfl rfl)⟩
  · obtain rfl : "7" = r :=
      (String.append_right_inj _).mp ((String.append_left_inj _).mp braces)
    exact hr
  · have invalid := ended.mp h
    cases invalid

end Postmortem
