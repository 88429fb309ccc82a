import Postmortem.Proofs.Bucket.BrokenChains
import Postmortem.Proofs.Container.Limit
import Postmortem.Proofs.Group.Positions
import Postmortem.Proofs.Growth.Readings

/-!
# Traversals while an image grows

A traversal is made of readings, so each of its calls is kept as they are, and calls that are kept
keep two traversals in step.  What has to be seen is that a call never gets over a curable fault:
the first one met among its readings is its answer.

* `Entry.Final` — an entry that growth does not change.
* `KeepsEntries` — the entries of a traversal are kept, up to the first that is not final.
* **`keepsEntries_of_calls`** — this holds if it holds of single calls.  The lemmas after it are
  about those: rounds and calls of a bucket walk, searches and calls of a group walk, calls for
  elements and for children.
* `Inspection.result` — what an inspection comes to, without its log.
* **`growth_keeps_decoded`** — whatever was decoded of an image is decoded of what it grows into.
-/

namespace Postmortem

variable {α β σ : Type}

/-! ## Calls -/

/-- The entry is no curable fault. -/
def Entry.Final (entry : Entry α) : Prop :=
  ∀ fault, entry = .fault fault → ¬ fault.Curable

/-- The second answer is the first, unless that is a curable fault. -/
def KeepsAnswer (answer answer' : Entry α × σ) : Prop :=
  answer.1.Final → answer' = answer

/-- The second traversal gives the entries of the first, up to its first curable fault. -/
def KeepsEntries (next next' : σ → Entry α × σ) (s : σ) : Prop :=
  ∀ n, (∀ k ≤ n, (entryAt next s k).Final) → entryAt next' s n = entryAt next s n

@[simp] lemma final_item (a : α) : (Entry.item a).Final := by
  simp [Entry.Final]

@[simp] lemma final_done : (Entry.done : Entry α).Final := by
  simp [Entry.Final]

@[simp] lemma final_fault_iff {fault : Fault} :
    (Entry.fault fault : Entry α).Final ↔ ¬ fault.Curable := by
  simp [Entry.Final]

/-- **Calls that are kept keep two traversals in step.**  They are in the same state as long as no
entry was a curable fault. -/
lemma keepsEntries_of_calls {next next' : σ → Entry α × σ}
    (calls : ∀ s, KeepsAnswer (next s) (next' s)) (s : σ) : KeepsEntries next next' s := by
  intro n final
  induction n generalizing s with
  | zero => exact congrArg Prod.fst (calls s (final 0 (Nat.le_refl 0)))
  | succ n ih =>
      rw [entryAt_succ, entryAt_succ, calls s (final 0 (Nat.zero_le _))]
      exact ih (next s).2 fun k hk => final (k + 1) (Nat.succ_le_succ hk)

/-- The search has not met a curable fault. -/
def Landing.Final : Landing → Prop
  | .unreadable _ fault => ¬ fault.Curable
  | .slot _ | .sentinel _ => True

/-- The round has not met a curable fault. -/
def BucketWalk.Round.Final : BucketWalk.Round → Prop
  | .settled entry _ => entry.Final
  | .onward _ => True

/-! ## Inspections without their log -/

namespace Inspection

/-- What an inspection comes to, without its log. -/
def result (x : Inspection α) : Reading α :=
  x.run.value

@[simp] lemma result_bind (x : Inspection α) (f : α → Inspection β) :
    result (x >>= f) = result x >>= fun a => result (f a) := by
  rw [result, ExceptT.run_bind, Logged.value_bind, result]
  cases x.run.value <;> rfl

@[simp] lemma result_reading (r : Reading α) : result (liftM r : Inspection α) = r := rfl

end Inspection

/-! ## The text of pairs -/

/-- What is read after an answer: nothing after the end or a fault, else what the value leads to. -/
def readOn (nothing : β) (onward : α → σ → Reading β) : Entry α × σ → Reading β
  | (.item a, s) => onward a s
  | (.fault fault, _) => .error fault
  | (.done, _) => .ok nothing

lemma KeepsAnswer.readOn {answer answer' : Entry α × σ} (h : KeepsAnswer answer answer')
    {nothing : β} {f f' : α → σ → Reading β} (onward : ∀ a s, Keeps (f a s) (f' a s)) :
    Keeps (readOn nothing f answer) (readOn nothing f' answer') := by
  obtain ⟨entry, s⟩ := answer
  cases entry with
  | item a =>
      rw [h (final_item a)]
      exact onward a s
  | fault fault =>
      by_cases curable : fault.Curable
      · exact .of_curable curable _
      · rw [h (final_fault_iff.mpr curable)]
        exact .refl _
  | done =>
      rw [h final_done]
      exact .refl _

namespace Children

lemma result_next (c : Children) (image : Image) :
    Inspection.result (liftM (c.next image)) = .ok (c.call image) := rfl

/-- A call that asks for an element hands its fault on, whether the limit is reached or not. -/
lemma final_element {image : Image} {c : Children} (stage : c.stage = .between)
    (final : (c.call image).1.Final) : (c.elements.call image).1.Final := by
  intro fault given
  by_cases reached : c.limit = some c.visited
  · rw [call_at_limit stage reached, given] at final
    exact final_fault_iff.mp final
  · rw [call_of_between stage reached, given] at final
    exact final_fault_iff.mp final

/-- A pair is two calls, and the text of what each of them gives. -/
lemma result_renderPairs_succ (image : Image) (bound : ℕ) (c : Children) :
    Inspection.result (renderPairs image (bound + 1) c) =
      readOn [] (fun key c => image.renderChild key >>= fun key =>
        readOn [] (fun value c => image.renderChild value >>= fun value =>
          Inspection.result (renderPairs image bound c) >>= fun pairs =>
            pure (pairText key value :: pairs)) (c.call image)) (c.call image) := by
  rw [renderPairs, Inspection.result_bind, result_next, ok_bind]
  rcases c.call image with ⟨key | fault | _, rest⟩
  · simp only [Inspection.result_bind, Inspection.result_reading]
    refine bind_congr fun text => ?_
    rw [result_next, ok_bind]
    rcases rest.call image with ⟨value | fault | _, rest⟩
    · simp only [Inspection.result_bind, Inspection.result_reading]
      rfl
    · rfl
    · rfl
  · rfl
  · rfl

end Children

/-! ## Buckets -/

namespace Image.Extends

variable {image image' : Image} (grown : image.Extends image')

include grown

lemma pendingNode (w : BucketWalk) : Keeps (w.pendingNode image) (w.pendingNode image') := by
  rw [BucketWalk.pendingNode, BucketWalk.pendingNode]
  cases w.stage with
  | following link => exact grown.followLink link
  | _ => exact .refl _

lemma visit (w : BucketWalk) (node : Object) (final : (w.visit image node).Final) :
    w.visit image' node = w.visit image node := by
  rw [BucketWalk.visit] at final ⊢
  rw [BucketWalk.visit]
  cases linked : image.field node "next" with
  | error fault =>
      rw [linked] at final
      rw [(grown.field node "next").error linked (final_fault_iff.mp final)]
  | ok link =>
      rw [(grown.field node "next").ok linked]
      cases held : Postmortem.nodeValue image node with
      | error fault =>
          rw [linked, held] at final
          simp only [(grown.nodeValue node).error held (final_fault_iff.mp final)]
      | ok value => simp only [(grown.nodeValue node).ok held]

lemma openBucket (w : BucketWalk) (final : (w.openBucket image).Final) :
    w.openBucket image' = w.openBucket image := by
  rw [BucketWalk.openBucket] at final ⊢
  rw [BucketWalk.openBucket]
  split at final
  · next inside =>
    rw [if_pos inside, if_pos inside]
    cases opened : image.field (w.table.bucket w.opened) "next" with
    | error fault =>
        rw [opened] at final
        rw [(grown.field _ "next").error opened (final_fault_iff.mp final)]
    | ok link => rw [(grown.field _ "next").ok opened]
  · next all => rw [if_neg all, if_neg all]

lemma round (w : BucketWalk) (final : (w.round image).Final) : w.round image' = w.round image := by
  rw [BucketWalk.round] at final ⊢
  rw [BucketWalk.round]
  cases pending : w.pendingNode image with
  | error fault =>
      rw [pending] at final
      rw [(grown.pendingNode w).error pending (final_fault_iff.mp final)]
  | ok found =>
      rw [pending] at final
      rw [(grown.pendingNode w).ok pending]
      cases found with
      | some node => exact grown.visit w node final
      | none => exact grown.openBucket w final

/-- The rounds of a call are kept up to the one that settles it. -/
lemma advance (w : BucketWalk) : KeepsAnswer (w.advance image) (w.advance image') := by
  induction w using BucketWalk.advance.induct image with
  | case1 w entry walk step =>
      intro final
      rw [BucketWalk.advance_settled step] at final ⊢
      exact BucketWalk.advance_settled ((grown.round w (by rwa [step])).trans step)
  | case2 w walk step ih =>
      rw [BucketWalk.advance_onward step,
        BucketWalk.advance_onward ((grown.round w (by rw [step]; trivial)).trans step)]
      exact ih

lemma bucketCall (w : BucketWalk) : KeepsAnswer (w.next image) (w.next image') := by
  rw [BucketWalk.next, BucketWalk.next]
  cases w.stage with
  | ended => exact fun _ => rfl
  | _ => exact grown.advance w

/-! ## Groups -/

/-- A search goes up to the limit of memory, and that does not come down. -/
lemma searchFrom (t : GroupTable) (group : ℕ) (final : (t.searchFrom image group).value.Final) :
    (t.searchFrom image' group).value = (t.searchFrom image group).value := by
  induction group using GroupTable.searchFrom.induct t image with
  | case1 group fault unreadable =>
      rw [GroupTable.searchFrom_of_unreadable unreadable] at final ⊢
      rw [GroupTable.searchFrom_of_unreadable ((grown.control t group).error unreadable final)]
  | case2 group control read landing found =>
      rw [GroupTable.searchFrom_of_landing read found,
        GroupTable.searchFrom_of_landing ((grown.control t group).ok read) found]
  | case3 group control read unmarked below ih =>
      have below' : 0 < t.shape.size ∧ t.groupAddress group < image'.memory.limit :=
        ⟨below.1, Nat.lt_of_lt_of_le below.2 grown.limit_le⟩
      rw [GroupTable.value_searchFrom_of_unmarked read unmarked, if_pos below] at final ⊢
      rw [GroupTable.value_searchFrom_of_unmarked ((grown.control t group).ok read) unmarked,
        if_pos below', ih final]
  | case4 group control read unmarked above =>
      rw [GroupTable.value_searchFrom_of_unmarked read unmarked, if_neg above] at final
      exact absurd .endless final

lemma searchAfter (t : GroupTable) (slot : Slot) (final : (t.searchAfter image slot).value.Final) :
    (t.searchAfter image' slot).value = (t.searchAfter image slot).value := by
  rw [GroupTable.searchAfter] at final ⊢
  rw [GroupTable.searchAfter]
  cases read : t.control image slot.group with
  | error fault =>
      rw [read] at final
      rw [(grown.control t slot.group).error read final]
  | ok control =>
      rw [read] at final
      rw [(grown.control t slot.group).ok read]
      cases found : t.landing? slot.group control ((t.marked control).after slot.offset) with
      | some landing => simp only [found]
      | none =>
          simp only [found, Logged.value_bind] at final ⊢
          exact grown.searchFrom t (slot.group + 1) final

lemma visitSlot (w : GroupWalk) (slot : Slot) :
    KeepsAnswer (w.visit image slot) (w.visit image' slot) := by
  rw [GroupWalk.visit, GroupWalk.visit]
  cases read : w.table.payload image slot with
  | error fault =>
      intro final
      rw [(grown.payload w.table slot).error read (final_fault_iff.mp final)]
  | ok element =>
      rw [(grown.payload w.table slot).ok read]
      exact fun _ => rfl

/-- Where a search that is kept comes to rest, the walk is kept. -/
lemma land (w : GroupWalk) (offset : ℕ) {landing landing' : Landing}
    (search : landing.Final → landing' = landing) :
    KeepsAnswer (w.land image offset landing) (w.land image' offset landing') := by
  intro final
  cases landing with
  | slot slot =>
      rw [search trivial]
      exact grown.visitSlot w slot final
  | sentinel group =>
      rw [search trivial]
      rfl
  | unreadable group fault =>
      rw [search (final_fault_iff.mp final)]
      rfl

lemma groupCall (w : GroupWalk) : KeepsAnswer (w.call image) (w.call image') := by
  rw [GroupWalk.call, GroupWalk.call, GroupWalk.next, GroupWalk.next]
  cases w.stage with
  | fresh =>
      dsimp only
      cases read : w.table.control image 0 with
      | error fault =>
          intro final
          rw [(grown.control w.table 0).error read (final_fault_iff.mp final)]
      | ok control =>
          rw [(grown.control w.table 0).ok read]
          dsimp only
          split
          · exact grown.visitSlot w ⟨0, 0⟩
          · exact grown.land w 0 (grown.searchAfter w.table ⟨0, 0⟩)
  | standing slot => exact grown.land w slot.offset (grown.searchAfter w.table slot)
  | _ => exact fun _ => rfl

/-! ## Elements and children -/

lemma elementsCall (elements : Elements) :
    KeepsAnswer (elements.call image) (elements.call image') := by
  intro final
  cases elements with
  | buckets walk =>
      have call := grown.bucketCall walk final
      simp only [Elements.call, Elements.next, call]
  | groups walk =>
      have call : (walk.next image').value = (walk.next image).value := grown.groupCall walk final
      simp only [Elements.call, Elements.next, Logged.value_bind, call]

lemma within (c : Children) (entry : Entry Object) :
    KeepsAnswer (c.within image entry).value (c.within image' entry).value := by
  cases entry with
  | item element =>
      rw [Children.within, Children.within, Logged.value_pure, Logged.value_pure, Children.split,
        Children.split]
      cases split : Children.halves image c.kind c.visited element with
      | error fault =>
          intro final
          rw [(grown.halves c.kind c.visited element).error split (final_fault_iff.mp final)]
      | ok pair =>
          rw [(grown.halves c.kind c.visited element).ok split]
          exact fun _ => rfl
  | _ => exact fun _ => rfl

lemma childrenCall (c : Children) : KeepsAnswer (c.call image) (c.call image') := by
  intro final
  cases stage : c.stage with
  | closed => rw [Children.call_of_closed stage, Children.call_of_closed stage]
  | halfway second => rw [Children.call_of_halfway stage, Children.call_of_halfway stage]
  | between =>
      have same := grown.elementsCall c.elements (Children.final_element stage final)
      by_cases reached : c.limit = some c.visited
      · rw [Children.call_at_limit stage reached, Children.call_at_limit stage reached, same]
      · rw [Children.call_of_between stage reached] at final ⊢
        rw [Children.call_of_between stage reached, same]
        exact grown.within _ _ final

lemma bucketStart (container : Object) :
    Keeps (BucketWalk.start image container) (BucketWalk.start image' container) :=
  .bind (grown.bucketTable container) fun _ => .refl _

lemma groupStart (container : Object) :
    Keeps (GroupWalk.start image container) (GroupWalk.start image' container) :=
  .bind (grown.groupTable container) fun _ => .refl _

lemma elements (c : Container) : Keeps (c.elements image) (c.elements image') := by
  rw [Container.elements, Container.elements]
  cases c.classification.family with
  | bucket => exact .bind (grown.bucketStart c.object) fun _ => .refl _
  | grouped => exact .bind (grown.groupStart c.object) fun _ => .refl _

lemma children (c : Container) (limit : Option ℕ) :
    Keeps (c.children image limit) (c.children image' limit) :=
  .bind (grown.elements c) fun _ => .refl _

/-! ## Containers as text -/

lemma elementsBound_le (elements : Elements) : elements.bound image ≤ elements.bound image' := by
  cases elements with
  | buckets walk =>
      refine Nat.mul_le_mul_left _ (Nat.succ_le_succ ?_)
      exact Nat.mul_le_mul grown.limit_le grown.size_le
  | groups walk => exact Nat.mul_le_mul_left _ grown.limit_le

lemma childrenBound_le (c : Children) : c.bound image ≤ c.bound image' := by
  rw [Children.bound, Children.bound]
  cases c.limit with
  | some limit => exact Nat.le_refl limit
  | none => exact grown.elementsBound_le c.elements

lemma renderChild (child : Child) : Keeps (image.renderChild child) (image'.renderChild child) := by
  rw [Image.renderChild, Image.renderChild]
  cases child.value with
  | object object => exact grown.render object
  | ordinal n => exact .refl _

lemma renderPairs {bound bound' : ℕ} (more : bound ≤ bound') (c : Children) :
    Keeps (Children.renderPairs image bound c).result
      (Children.renderPairs image' bound' c).result := by
  induction bound generalizing bound' c with
  | zero => exact .of_curable .endless _
  | succ bound ih =>
      cases bound' with
      | zero => exact absurd more (Nat.not_succ_le_zero bound)
      | succ bound' =>
          rw [Children.result_renderPairs_succ, Children.result_renderPairs_succ]
          refine (grown.childrenCall c).readOn fun key c => ?_
          refine .bind (grown.renderChild key) fun _ => ?_
          refine (grown.childrenCall c).readOn fun value c => ?_
          refine .bind (grown.renderChild value) fun _ => ?_
          exact .bind (ih (Nat.le_of_succ_le_succ more) c) fun _ => .refl _

lemma containerText (c : Container) (limit : Option ℕ) :
    Keeps (c.render image limit).result (c.render image' limit).result := by
  simp only [Container.render, Inspection.result_bind, Inspection.result_reading]
  refine .bind (grown.containerSummary c) fun _ => ?_
  refine .bind (grown.children c limit) fun children => ?_
  refine .bind (grown.renderPairs ?_ children) fun _ => .refl _
  exact Nat.succ_le_succ (grown.childrenBound_le children)

end Image.Extends

/-! ## Growth -/

/-- All that is decoded of the first image is decoded of the second.  A result in particular is the
same, as `Keeps.ok` says, and so is each element that comes before a fault. -/
structure KeepsDecoded (image image' : Image) : Prop where
  bytes : ∀ address length, Keeps (image.readBytes address length) (image'.readBytes address length)
  field : ∀ o name, Keeps (image.field o name) (image'.field o name)
  unsigned : ∀ o, Keeps (image.readUnsigned o) (image'.readUnsigned o)
  text : ∀ o, Keeps (image.render o) (image'.render o)
  container : ∀ o, Keeps (Container.ofObject image o) (Container.ofObject image' o)
  length : ∀ c : Container, Keeps (c.length image) (c.length image')
  containerSummary : ∀ c : Container, Keeps (c.summary image) (c.summary image')
  containerText : ∀ (c : Container) (limit : Option ℕ),
    Keeps (c.render image limit).result (c.render image' limit).result
  iterator : ∀ o, Keeps (IteratorHandle.ofObject image o) (IteratorHandle.ofObject image' o)
  value : ∀ i : IteratorHandle, Keeps (i.value image) (i.value image')
  iteratorSummary : ∀ i : IteratorHandle, Keeps (i.summary image) (i.summary image')
  bucketStart : ∀ o, Keeps (BucketWalk.start image o) (BucketWalk.start image' o)
  bucketEntries : ∀ walk : BucketWalk, KeepsEntries (·.next image) (·.next image') walk
  groupStart : ∀ o, Keeps (GroupWalk.start image o) (GroupWalk.start image' o)
  groupEntries : ∀ walk : GroupWalk,
    KeepsEntries (GroupWalk.call image) (GroupWalk.call image') walk
  children : ∀ (c : Container) (limit : Option ℕ),
    Keeps (c.children image limit) (c.children image' limit)
  childEntries : ∀ c : Children, KeepsEntries (Children.call image) (Children.call image') c

/-- **An image that grows keeps all that was decoded of it.**  Bytes are mapped where none were,
types are added, and ids without a type are given one; whatever was read before is read again, and a
traversal gives again what it gave before its first curable fault, the end included. -/
theorem growth_keeps_decoded {image image' : Image}
    (growth : Relation.ReflTransGen Image.Grows image image') : KeepsDecoded image image' := by
  have grown := extends_of_growth growth
  exact
    { bytes := grown.readBytes
      field := grown.field
      unsigned := grown.readUnsigned
      text := grown.render
      container := grown.container
      length := grown.length
      containerSummary := grown.containerSummary
      containerText := grown.containerText
      iterator := grown.iterator
      value := grown.value
      iteratorSummary := grown.iteratorSummary
      bucketStart := grown.bucketStart
      bucketEntries := keepsEntries_of_calls grown.bucketCall
      groupStart := grown.groupStart
      groupEntries := keepsEntries_of_calls grown.groupCall
      children := grown.children
      childEntries := keepsEntries_of_calls grown.childrenCall }

/-- The table with the dangling chain, once the missing node is mapped and more types are known. -/
def mendedChain : Image :=
  { danglingChain with
    memory :=
      { segments :=
          [⟨0x10, #[0, 0, 0, 0, 0, 0, 0, 0x20, 0, 0, 0, 0, 0, 0, 0, 3]⟩,
            ⟨0x20, #[0, 0, 0, 0, 0, 0, 0, 0x40, 0, 0, 0, 0, 0, 0, 0, 0,
              0, 0, 0, 0, 0, 0, 0, 0x50]⟩,
            ⟨0x40, #[0, 0, 0, 0, 0, 0, 0, 0]⟩,
            ⟨0x50, #[0, 0, 0, 0, 0, 0, 9, 0]⟩,
            ⟨0x900, #[0, 0, 0, 0, 0, 0, 0, 0]⟩]
        apart := by decide
        bounded := by decide }
    types := danglingChain.types.declare.2.define 10 (.plain "int" 4 .signed) }

theorem mendedChain_kept :
    ∃ walk, BucketWalk.start mendedChain ⟨0x10, 9⟩ = .ok walk ∧
      entryAt (·.next mendedChain) walk 2 = .item ⟨0x908, 5⟩ ∧
      entryAt (·.next danglingChain) walk 3 = .fault (.unmapped 0x900 8) ∧
      entryAt (·.next mendedChain) walk 3 = .done := by
  let walk : BucketWalk := ⟨⟨0x20, 1, 8, 3⟩, 0, .between⟩
  have unmapped : ∀ i < 8, danglingChain.memory.byteAt? (0x900 + i) = none := by decide +kernel
  have mapped : Image.Grows danglingChain { danglingChain with memory := mendedChain.memory } := by
    refine @Image.Grows.map _ 0x900 (List.replicate 8 0) _ (fun x above below => ?_) rfl
    obtain ⟨i, rfl⟩ := Nat.exists_eq_add_of_le above
    exact unmapped i (Nat.lt_of_add_lt_add_left below)
  have growth : Relation.ReflTransGen Image.Grows danglingChain mendedChain :=
    .tail (.tail (.single mapped) .declare) (.define rfl (.plain "int" 4 .signed))
  have start : BucketWalk.start danglingChain ⟨0x10, 9⟩ = .ok walk := rfl
  have given : ∀ k ≤ 2, ∃ value ∈ [⟨0x48, 5⟩, ⟨0x58, 5⟩, ⟨0x908, 5⟩],
      entryAt (·.next danglingChain) walk k = .item value := by decide +kernel
  have final : ∀ k ≤ 2, (entryAt (·.next danglingChain) walk k).Final := by
    intro k hk
    obtain ⟨value, -, hvalue⟩ := given k hk
    rw [hvalue]
    exact final_item value
  have kept := growth_keeps_decoded growth
  refine ⟨walk, (kept.bucketStart ⟨0x10, 9⟩).ok start, ?_, by decide +kernel, by decide +kernel⟩
  rw [kept.bucketEntries walk 2 final]
  decide +kernel

end Postmortem
