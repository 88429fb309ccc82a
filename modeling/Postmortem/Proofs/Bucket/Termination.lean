import Postmortem.Proofs.Bucket.BrokenChains
import Postmortem.Proofs.TypeTable.Lookups

/-!
# A bucket walk ends unless a chain is cyclic

A chain is followed with no counter, and nothing in the walk remembers the nodes it has met.  What
bounds it is the memory: to go on from a node its link must be read, and the links of different
nodes lie at different mapped addresses.  Only the last node of a chain need not be mapped at all.

* `AcyclicNodes` — the lookups of a node's value come to their end.
* `SettlesIn` — a call takes so many rounds, each of which comes to its end.
* `OnTrack`, `proceeds_round` — the walk goes from links to nodes, and a round comes to its end;
  `exists_settlesIn` bounds the rounds of a call by the buckets that are not open yet.
* `Path.length_le` — a path through different nodes has at most one node more than there are mapped
  bytes.
* `endsWithin_between` — a walk whose chains are bounded ends.
* **`bucketWalk_ends`** — all of it together.
-/

namespace Postmortem

variable {image : Image} {node : TypeId} {link last : Object} {nodes : List Object}

/-! ## Values -/

/-- No type that the lookup of a node's value goes into is its own base. -/
structure AcyclicNodes (types : TypeTable) (node : TypeId) : Prop where
  below : TypeTable.AcyclicBelow types.HasBase node
  belowBuffer : ∀ buffer, types.member node "buf" = .ok buffer →
    TypeTable.AcyclicBelow types.HasBase buffer.type

/-- The value of a node is looked up in two steps, each of which comes to its end. -/
lemma AcyclicNodes.nodeValue_ne_endless (acyclic : AcyclicNodes image.types node) (address : ℕ) :
    nodeValue image ⟨address, node⟩ ≠ .error .endless := by
  intro failed
  rcases bind_eq_error.mp failed with failed | ⟨buffer, found, failed⟩
  · rcases bind_eq_error.mp failed with failed | ⟨place, -, failed⟩
    · exact TypeTable.member_ne_endless acyclic.below failed
    · contradiction
  · obtain ⟨place, hplace, rfl⟩ := Image.field_eq_ok.mp found
    rcases bind_eq_error.mp failed with failed | ⟨value, -, failed⟩
    · exact TypeTable.member_ne_endless (acyclic.belowBuffer place hplace) failed
    · contradiction

/-! ## Rounds -/

namespace BucketWalk

variable {table : BucketTable} {w : BucketWalk}

/-- So many rounds of a call, each of which comes to its end, lead to its answer. -/
inductive SettlesIn (image : Image) : ℕ → BucketWalk → Entry Object × BucketWalk → Prop
  | settled {w w' : BucketWalk} {entry : Entry Object} (h : w.round image = .settled entry w')
      (reached : entry ≠ .fault .endless) : SettlesIn image 1 w (entry, w')
  | onward {rounds : ℕ} {w w' : BucketWalk} {answer : Entry Object × BucketWalk}
      (h : w.round image = .onward w') (rest : SettlesIn image rounds w' answer) :
      SettlesIn image (rounds + 1) w answer

lemma SettlesIn.ne_endless {rounds : ℕ} {answer : Entry Object × BucketWalk}
    (settles : SettlesIn image rounds w answer) : answer.1 ≠ .fault .endless := by
  induction settles with
  | settled _ reached => exact reached
  | onward _ _ ih => exact ih

/-- A walk goes through its table, from links to nodes. -/
structure OnTrack (image : Image) (node : TypeId) (table : BucketTable) (w : BucketWalk) :
    Prop where
  table_eq : w.table = table
  typed : ∀ link, w.stage = .following link → image.types.target link.type = .ok node

lemma onTrack_ofTable (image : Image) (node : TypeId) (table : BucketTable) :
    OnTrack image node table (ofTable table) :=
  ⟨rfl, nofun⟩

/-- A round comes to its end and leaves the walk on its track. -/
def Proceeds (image : Image) (node : TypeId) (table : BucketTable) : Round → Prop
  | .settled entry walk => entry ≠ .fault .endless ∧ OnTrack image node table walk
  | .onward walk => OnTrack image node table walk

lemma proceeds_fail {fault : Fault} (on : OnTrack image node table w) (reached : fault ≠ .endless) :
    Proceeds image node table (w.finish (.fault fault)) :=
  ⟨fun same => reached (Entry.fault.inj same), on.table_eq, nofun⟩

lemma proceeds_visit (links : PointsTo image.types node node)
    (acyclic : AcyclicNodes image.types node) (on : OnTrack image node table w) (address : ℕ) :
    Proceeds image node table (w.visit image ⟨address, node⟩) := by
  obtain ⟨link, linked, typed⟩ := links.exists_link address
  rw [visit, linked]
  cases held : nodeValue image ⟨address, node⟩ with
  | error fault =>
      refine proceeds_fail on ?_
      rintro rfl
      exact acyclic.nodeValue_ne_endless address held
  | ok value =>
      refine ⟨by simp, on.table_eq, fun link hlink => ?_⟩
      obtain rfl := Stage.following.inj hlink
      exact typed

lemma proceeds_openBucket (heads : PointsTo image.types node table.bucketType)
    (on : OnTrack image node table w) : Proceeds image node table (w.openBucket image) := by
  obtain rfl := on.table_eq
  rw [openBucket]
  split
  · obtain ⟨head, linked, typed⟩ := heads.exists_link (w.table.bucket w.opened).address
    have linked : image.field (w.table.bucket w.opened) "next" = .ok head := linked
    rw [linked]
    refine ⟨rfl, fun link hlink => ?_⟩
    obtain rfl := Stage.following.inj hlink
    exact typed
  · exact ⟨by simp, rfl, by simp⟩

/-- **A round comes to its end**, whatever the memory holds. -/
lemma proceeds_round (heads : PointsTo image.types node table.bucketType)
    (links : PointsTo image.types node node) (acyclic : AcyclicNodes image.types node)
    (on : OnTrack image node table w) : Proceeds image node table (w.round image) := by
  rw [round, pendingNode]
  cases hstage : w.stage with
  | between | ended => exact proceeds_openBucket heads on
  | following link =>
      dsimp only
      rw [followLink]
      cases read : image.readAddress link with
      | error fault =>
          refine proceeds_fail on ?_
          rintro rfl
          exact Image.readAddress_ne_endless read
      | ok address =>
          rw [ok_bind]
          by_cases null : address = 0
          · rw [if_pos null]
            exact proceeds_openBucket heads on
          · rw [if_neg null, on.typed link hstage]
            exact proceeds_visit links acyclic on address

/-- **A call takes at most one round more than there are buckets to open**, and leaves the walk on
its track.  The induction is on the number of those buckets. -/
lemma exists_settlesIn (heads : PointsTo image.types node table.bucketType)
    (links : PointsTo image.types node node) (acyclic : AcyclicNodes image.types node)
    (on : OnTrack image node table w) :
    (∃ rounds ≤ w.remaining + 1, SettlesIn image rounds w (w.advance image)) ∧
      OnTrack image node table (w.advance image).2 := by
  induction h : w.remaining using Nat.strong_induction_on generalizing w with
  | _ remaining ih =>
      have proceeds := proceeds_round heads links acyclic on
      cases hround : w.round image with
      | settled entry w' =>
          rw [hround] at proceeds
          rw [advance_settled hround]
          exact ⟨⟨1, by omega, .settled hround proceeds.1⟩, proceeds.2⟩
      | onward w' =>
          rw [hround] at proceeds
          have fewer := remaining_of_round hround
          obtain ⟨⟨rounds, hrounds, settles⟩, stays⟩ := ih w'.remaining (by omega) proceeds rfl
          rw [advance_onward hround]
          exact ⟨⟨rounds + 1, by omega, .onward hround settles⟩, stays⟩

lemma exists_settlesIn_next (heads : PointsTo image.types node table.bucketType)
    (links : PointsTo image.types node node) (acyclic : AcyclicNodes image.types node)
    (on : OnTrack image node table w) :
    (w.stage = .ended ∧ w.next image = (.done, w) ∨
      ∃ rounds ≤ w.remaining + 1, SettlesIn image rounds w (w.next image)) ∧
    OnTrack image node table (w.next image).2 := by
  rw [next]
  cases w.stage with
  | ended => exact ⟨.inl ⟨rfl, rfl⟩, on⟩
  | between | following link =>
      obtain ⟨settles, stays⟩ := exists_settlesIn heads links acyclic on
      exact ⟨.inr settles, stays⟩

lemma onTrack_afterCalls (heads : PointsTo image.types node table.bucketType)
    (links : PointsTo image.types node node) (acyclic : AcyclicNodes image.types node) (n : ℕ) :
    OnTrack image node table (afterCalls (·.next image) (ofTable table) n) := by
  induction n with
  | zero => exact onTrack_ofTable image node table
  | succ n ih =>
      rw [afterCalls_succ]
      exact (exists_settlesIn_next heads links acyclic ih).2

end BucketWalk

/-! ## Nodes -/

/-- To go on from a node its link was read. -/
lemma Path.mapped (links : PointsTo image.types node node)
    (typed : image.types.target link.type = .ok node) (path : Path image link nodes last) :
    ∃ offset, ∀ o ∈ nodes.dropLast, o.address + offset ∈ addresses image.memory.segments := by
  obtain ⟨offset, linked⟩ := links.exists_offset
  refine ⟨offset, ?_⟩
  induction path with
  | here link => simp
  | @node link next last address type nodes read nonnull typed' hlink rest ih =>
      obtain rfl : type = node := Except.ok.inj (typed'.symm.trans typed)
      obtain ⟨next', hlink', address_eq, typedNext⟩ := linked address
      obtain rfl : next' = next := Except.ok.inj (hlink'.symm.trans hlink)
      cases rest with
      | here => simp
      | node read' nonnull' typed'' hlink'' rest' =>
          rw [List.dropLast_cons_cons, List.forall_mem_cons]
          refine ⟨?_, ih typedNext⟩
          rw [← address_eq]
          exact Image.mem_addresses_of_readAddress read'

/-- **A path through different nodes is hardly longer than the memory.** -/
lemma Path.length_le (links : PointsTo image.types node node)
    (typed : image.types.target link.type = .ok node) (path : Path image link nodes last)
    (distinct : (nodes.map Object.address).Nodup) : nodes.length ≤ image.memory.length + 1 := by
  obtain ⟨offset, mapped⟩ := path.mapped links typed
  have sublist : (nodes.dropLast.map Object.address).Nodup :=
    distinct.sublist ((List.dropLast_sublist nodes).map _)
  have shifted : ((nodes.dropLast.map Object.address).map (· + offset)).Nodup :=
    sublist.map (add_left_injective offset)
  have bounded := Memory.length_le_of_nodup shifted fun x hx => by
    simp only [List.map_map, List.mem_map, Function.comp_apply] at hx
    obtain ⟨o, ho, rfl⟩ := hx
    exact mapped o ho
  simp only [List.length_map, List.length_dropLast] at bounded
  omega

/-- A path that cannot be continued has all nodes that any path from its first link has. -/
lemma Path.sublist {last' : Object} {nodes' : List Object} (path : Path image link nodes last)
    (stuck : ∀ address, image.readAddress last = .ok address → address = 0)
    (other : Path image link nodes' last') : nodes'.Sublist nodes := by
  induction path generalizing nodes' with
  | here link =>
      cases other with
      | here => exact .refl _
      | node read nonnull _ _ _ => exact absurd (stuck _ read) nonnull
  | @node link next last address type nodes read nonnull typed linked rest ih =>
      cases other with
      | here => exact List.nil_sublist _
      | @node _ next' _ address' type' nodes' read' nonnull' typed' linked' rest' =>
          obtain rfl : address' = address := Except.ok.inj (read'.symm.trans read)
          obtain rfl : type' = type := Except.ok.inj (typed'.symm.trans typed)
          obtain rfl : next' = next := Except.ok.inj (linked'.symm.trans linked)
          exact (ih stuck rest').cons_cons _

/-! ## The whole walk -/

namespace BucketWalk

variable {table : BucketTable} {opened longest bound : ℕ}

lemma next_of_valueless {next : Object} {address : ℕ} {fault : Fault}
    (read : image.readAddress link = .ok address) (nonnull : address ≠ 0)
    (typed : image.types.target link.type = .ok node)
    (linked : image.field ⟨address, node⟩ "next" = .ok next)
    (valueless : nodeValue image ⟨address, node⟩ = .error fault) :
    (⟨table, opened, .following link⟩ : BucketWalk).next image =
      (.fault fault, ⟨table, opened, .ended⟩) := by
  refine advance_settled ?_
  simp [round, pendingNode, followLink, visit, finish, read, nonnull, typed, linked, valueless,
    pure, Except.pure]

/-- **What following a link can do.**  It gives a fault; or it leads nowhere, to the next bucket; or
it gives the value of a node whose own link is followed next. -/
lemma next_following (table : BucketTable) (opened : ℕ) (links : PointsTo image.types node node)
    (acyclic : AcyclicNodes image.types node) (typed : image.types.target link.type = .ok node) :
    (∃ fault, fault ≠ .endless ∧ (⟨table, opened, .following link⟩ : BucketWalk).next image =
      (.fault fault, ⟨table, opened, .ended⟩)) ∨
    (⟨table, opened, .following link⟩ : BucketWalk).next image =
      (⟨table, opened, .between⟩ : BucketWalk).next image ∨
    ∃ address next value,
      (∀ nodes last, Path image next nodes last →
        Path image link (⟨address, node⟩ :: nodes) last) ∧
      image.types.target next.type = .ok node ∧
      (⟨table, opened, .following link⟩ : BucketWalk).next image =
        (.item value, ⟨table, opened, .following next⟩) := by
  cases read : image.readAddress link with
  | error fault =>
      refine .inl ⟨fault, ?_, next_of_unreadable read⟩
      rintro rfl
      exact absurd read Image.readAddress_ne_endless
  | ok address =>
      by_cases null : address = 0
      · exact .inr (.inl (next_of_null (null ▸ read)))
      · obtain ⟨next, linked, typedNext⟩ := links.exists_link address
        cases held : nodeValue image ⟨address, node⟩ with
        | error fault =>
            refine .inl ⟨fault, ?_, next_of_valueless read null typed linked held⟩
            rintro rfl
            exact acyclic.nodeValue_ne_endless address held
        | ok value =>
            exact .inr (.inr ⟨address, next, value, fun _ _ => .node read null typed linked,
              typedNext, next_of_node read null typed linked held⟩)

/-- A walk that follows a link gives at most as many values as the longest path has nodes, and then
what it gives between buckets.  The induction is on that length. -/
lemma endsWithin_following (links : PointsTo image.types node node)
    (acyclic : AcyclicNodes image.types node) (typed : image.types.target link.type = .ok node)
    (short : ∀ nodes last, Path image link nodes last → nodes.length ≤ longest)
    (after : EndsWithin (·.next image) (⟨table, opened, .between⟩ : BucketWalk) bound) :
    EndsWithin (·.next image) (⟨table, opened, .following link⟩ : BucketWalk)
      (longest + bound) := by
  induction longest using Nat.strong_induction_on generalizing link with
  | _ longest ih =>
      rcases next_following table opened links acyclic typed with ⟨fault, reached, hcall⟩ | hcall |
        ⟨address, next, value, extends_path, typedNext, hcall⟩
      · exact .fault hcall rfl reached
      · exact (after.congr hcall).mono (Nat.le_add_left _ _)
      · have one := short _ _ (extends_path [] next (.here next))
        obtain ⟨rest, rfl⟩ := Nat.exists_eq_add_of_le' one
        have shorter : ∀ nodes last, Path image next nodes last → nodes.length ≤ rest :=
          fun nodes last path => Nat.le_of_succ_le_succ (short _ _ (extends_path _ _ path))
        rw [Nat.add_right_comm]
        exact .cons hcall (ih rest (Nat.lt_succ_self _) typedNext shorter)

/-- With `closed` buckets still to open, the walk gives no more than their longest paths. -/
lemma endsWithin_between {closed : ℕ} (heads : PointsTo image.types node table.bucketType)
    (links : PointsTo image.types node node) (acyclic : AcyclicNodes image.types node)
    (all : opened + closed = table.count)
    (short : ∀ i < table.count, ∀ head nodes last,
      image.field (table.bucket i) "next" = .ok head → Path image head nodes last →
      nodes.length ≤ longest) :
    EndsWithin (·.next image) (⟨table, opened, .between⟩ : BucketWalk) (closed * longest) := by
  induction closed generalizing opened with
  | zero => exact .done (next_of_all_opened (Nat.le_of_eq all.symm)) rfl
  | succ closed ih =>
      have inside : opened < table.count := by omega
      obtain ⟨head, linked, typed⟩ := heads.exists_link (table.bucket opened).address
      rw [Nat.succ_mul, Nat.add_comm]
      exact (endsWithin_following links acyclic typed (fun nodes last => short opened inside head
        nodes last linked) (ih (by omega))).congr (next_of_bucket inside linked)

end BucketWalk

/-- **A bucket walk ends unless a chain is cyclic.**  Buckets and nodes have links to nodes, and no
type that the lookup of a node's value goes into is its own base.  Whatever the memory holds, every
call comes to its end after at most one round more than there are buckets to open.  If no chain
passes through the same address twice, the walk gives at most one value for each bucket and mapped
byte, and one more for each bucket; then it gives a fault or the end. -/
theorem bucketWalk_ends {image : Image} {container : Object} {walk : BucketWalk}
    (start : BucketWalk.start image container = .ok walk) {node : TypeId}
    (heads : PointsTo image.types node walk.table.bucketType)
    (links : PointsTo image.types node node) (acyclic : AcyclicNodes image.types node) :
    (∀ n w, afterCalls (·.next image) walk n = w →
      w.stage = .ended ∧ w.next image = (.done, w) ∨
        ∃ rounds ≤ walk.table.count - w.opened + 1,
          BucketWalk.SettlesIn image rounds w (w.next image)) ∧
    ((∀ i < walk.table.count, ∀ head nodes last,
        image.field (walk.table.bucket i) "next" = .ok head → Path image head nodes last →
        (nodes.map Object.address).Nodup) →
      EndsWithin (·.next image) walk (walk.table.count * (image.memory.length + 1))) := by
  obtain ⟨table, -, hwalk⟩ := bind_eq_ok.mp start
  obtain rfl : BucketWalk.ofTable table = walk := Except.ok.inj hwalk
  refine ⟨?_, fun distinct => ?_⟩
  · rintro n w rfl
    have on := BucketWalk.onTrack_afterCalls heads links acyclic n
    have settles := (BucketWalk.exists_settlesIn_next heads links acyclic on).1
    rwa [BucketWalk.remaining, on.table_eq] at settles
  · refine BucketWalk.endsWithin_between heads links acyclic (Nat.zero_add _)
      fun i hi head nodes last linked path => ?_
    have typed : image.types.target head.type = .ok node := HasNext.of_field heads linked
    exact path.length_le links typed (distinct i hi _ _ _ linked path)

theorem danglingChain_ends :
    ∃ walk, BucketWalk.start danglingChain ⟨0x10, 9⟩ = .ok walk ∧
      (∃ rounds ≤ 4, BucketWalk.SettlesIn danglingChain rounds walk (walk.next danglingChain)) ∧
      EndsWithin (·.next danglingChain) walk (3 * (56 + 1)) := by
  let walk : BucketWalk := ⟨⟨0x20, 1, 8, 3⟩, 0, .between⟩
  have start : BucketWalk.start danglingChain ⟨0x10, 9⟩ = .ok walk := rfl
  have heads : PointsTo danglingChain.types 4 1 := ⟨⟨0, 3⟩, rfl, rfl⟩
  have links : PointsTo danglingChain.types 4 4 := ⟨⟨0, 3⟩, rfl, rfl⟩
  -- a node has a bucket for its base
  have acyclic : danglingChain.types.AcyclicBases :=
    @TypeTable.acyclicBases_of_lt _ (fun id => if id = 4 then 1 else 0) (by decide)
  obtain ⟨settles, ends⟩ := bucketWalk_ends start heads links
    ⟨acyclic.acyclicBelow _, fun _ _ => acyclic.acyclicBelow _⟩
  -- the longest paths from the three heads: to a null link, to another, and to unmapped memory
  have first : Path danglingChain ⟨0x20, 3⟩ [⟨0x40, 4⟩] ⟨0x40, 3⟩ :=
    .node rfl (by decide) rfl rfl (.here _)
  have third : Path danglingChain ⟨0x30, 3⟩ [⟨0x50, 4⟩, ⟨0x900, 4⟩] ⟨0x900, 3⟩ :=
    .node rfl (by decide) rfl rfl (.node rfl (by decide) rfl rfl (.here _))
  have stuck {last : Object} (null : danglingChain.readAddress last = .ok 0) (address : ℕ)
      (read : danglingChain.readAddress last = .ok address) : address = 0 :=
    Except.ok.inj (read.symm.trans null)
  refine ⟨walk, start, (settles 0 walk rfl).resolve_left (fun finished => nomatch finished.1),
    ends ?_⟩
  intro i hi head nodes last linked path
  match i, hi with
  | 0, _ =>
      obtain rfl : ⟨0x20, 3⟩ = head := Except.ok.inj linked
      exact List.Nodup.sublist ((first.sublist (stuck rfl) path).map _) (by decide)
  | 1, _ =>
      obtain rfl : ⟨0x28, 3⟩ = head := Except.ok.inj linked
      exact List.Nodup.sublist (((Path.here _).sublist (stuck rfl) path).map _) (by decide)
  | 2, _ =>
      obtain rfl : ⟨0x30, 3⟩ = head := Except.ok.inj linked
      exact List.Nodup.sublist ((third.sublist nofun path).map _) (by decide)

/-- The table with the dangling chain, but for its nodes, which have themselves for a base and no
`buf`. -/
def selfBasedNodes : Image :=
  { danglingChain with
    types := danglingChain.types.define 4
      (.plain "node" 12 (.record [⟨"next", 0, 3, false⟩, ⟨"node", 0, 4, true⟩])) }

/-- The first call meets a node, and the lookup of its value never ends. -/
theorem selfBasedNodes_do_not_answer :
    ∃ walk, BucketWalk.start selfBasedNodes ⟨0x10, 9⟩ = .ok walk ∧
      PointsTo selfBasedNodes.types 4 walk.table.bucketType ∧ PointsTo selfBasedNodes.types 4 4 ∧
      (∀ depth, selfBasedNodes.types.findMember "buf" depth 4 = .error .endless) ∧
      entryAt (·.next selfBasedNodes) walk 0 = .fault .endless ∧
      (∀ rounds, ¬ BucketWalk.SettlesIn selfBasedNodes rounds walk (walk.next selfBasedNodes)) ∧
      ∀ bound, ¬ EndsWithin (·.next selfBasedNodes) walk bound := by
  let walk : BucketWalk := ⟨⟨0x20, 1, 8, 3⟩, 0, .between⟩
  have unanswered : entryAt (·.next selfBasedNodes) walk 0 = .fault .endless := by decide +kernel
  have endless : selfBasedNodes.types.member 4 "buf" = .error .endless := by decide +kernel
  exact ⟨walk, rfl, ⟨⟨0, 3⟩, rfl, rfl⟩, ⟨⟨0, 3⟩, rfl, rfl⟩,
    TypeTable.member_eq_endless_iff.mp endless, unanswered,
    fun rounds settles => settles.ne_endless unanswered,
    fun bound ends => ends.entryAt_ne_endless 0 unanswered⟩

end Postmortem
