import Crdt.Rga.Integrate

/-! The pending queue, and whole passes over it.

`Inv` is the invariant of a replica between the steps of a call: the indexes hold the
integrated forest, and the waiting sets are the pending nodes by parent. `Settled` adds
that no pending node could be integrated, which is what a call leaves behind. The node
a replica knows under an identifier, integrated or pending, is `known`; draining the
queue only moves nodes from one side to the other (`integrateReady_spec`). -/
namespace Crdt.Rga

open Sequence Forest MapLoop Option Replica List

variable {V : Type} {pkg : Package V} {r r' : Replica V} {id : Position} {item : Node V}
  {ids : List Position}

/-- The node known under an identifier. -/
def Replica.known (r : Replica V) (id : Position) : Option (Node V) := r.nodes[id]?.or r.pending[id]?

/-- The waiting sets are the pending nodes by parent. -/
structure Replica.Queued (r : Replica V) : Prop where
  disjoint : ∀ id ∈ r.pending, id ∉ r.nodes
  valid : ∀ (id : Position) (item : Node V), r.pending[id]? = some item →
    id.valid = true ∧ (item.parent = .zero ∨ item.parent.valid = true)
  waiting : ∀ p x : Position, x ∈ r.waitingByParent[p]?.getD ∅ ↔ parentOf r.pending x = some p
  nonempty : ∀ (p : Position) w, r.waitingByParent[p]? = some w → w.isEmpty = false

structure Replica.Inv (r : Replica V) : Prop where
  indexed : Indexed r.nodes r.tombstones r.sequence r.children
  queued : r.Queued

theorem Replica.Queued.congr (h : r.Queued) (hp : r'.pending = r.pending)
    (hw : r'.waitingByParent = r.waitingByParent) (hn : ∀ x ∈ r.pending, x ∉ r'.nodes) : r'.Queued := by
  refine ⟨?_, ?_, ?_, ?_⟩
  · rw [hp]
    exact hn
  · rw [hp]
    exact h.valid
  · rw [hp, hw]
    exact h.waiting
  · rw [hw]
    exact h.nonempty

/-- A parent a node can be integrated below. -/
def Replica.Reached (r : Replica V) (p : Position) : Prop := p = .zero ∨ p ∈ r.nodes

/-- No pending node could be integrated. -/
def Replica.Settled (r : Replica V) : Prop := ∀ id p, parentOf r.pending id = some p → ¬ r.Reached p

theorem not_mem_of_known (hid : r.known id = none) : id ∉ r.nodes ∧ id ∉ r.pending := by
  simp only [Replica.known, or_eq_none_iff] at hid
  exact ⟨not_mem_iff.mpr hid.1, not_mem_iff.mpr hid.2⟩

theorem Replica.Inv.take (h : r.Inv) {t : Position → Option (Node V)}
    (hix : Indexed r'.nodes r'.tombstones r'.sequence r'.children) (hp : r'.pending = r.pending)
    (hw : r'.waitingByParent = r.waitingByParent) (hnew : ∀ {x item}, t x = some item → r.known x = none)
    (hnodes : ∀ x : Position, r'.nodes[x]? = (t x).or r.nodes[x]?) :
    r'.Inv ∧ ∀ x, r'.known x = (r.known x).or (t x) := by
  refine ⟨⟨hix, h.queued.congr hp hw fun x hx hx' => ?_⟩, fun x => ?_⟩
  · obtain ⟨item, hitem⟩ := mem_iff.mp hx'
    rw [hnodes] at hitem
    rcases or_eq_some_iff.mp hitem with ht | ⟨-, hn⟩
    · exact (not_mem_of_known (hnew ht)).2 hx
    · exact h.queued.disjoint x hx (mem_iff.mpr ⟨item, hn⟩)
  · rw [Replica.known, hnodes, hp]
    cases ht : t x with
    | none =>
      rw [none_or, or_none]
      rfl
    | some item => rw [hnew ht, some_or, some_or, none_or]

theorem known_of_pending (h : r.Queued) (hid : r.pending[id]? = some item) : r.known id = some item := by
  have := h.disjoint id (mem_iff.mpr ⟨item, hid⟩)
  rw [Replica.known, not_mem_iff.mp this, hid]
  rfl

theorem getElem?_newNodes (r : Replica V) (nodes : TagMap (Node V)) (x : Position) :
    (nodes.filter fun id _ => !r.nodes.contains id && !r.pending.contains id)[x]? =
      if (r.known x).isNone then nodes[x]? else none := by
  have hk : (!r.nodes.contains x && !r.pending.contains x) = (r.known x).isNone := by
    rw [Std.ExtTreeMap.contains_eq_isSome_getElem?, Std.ExtTreeMap.contains_eq_isSome_getElem?,
      Replica.known]
    cases r.nodes[x]? <;> cases r.pending[x]? <;> rfl
  rw [Std.ExtTreeMap.getElem?_filter', hk]
  cases nodes[x]? <;> cases (r.known x).isNone <;> rfl

theorem parentOf_eq_none (h : id ∉ r.pending) : parentOf r.pending id = none := by
  rw [parentOf, not_mem_iff.mp h]
  rfl

/-! ### Into the queue and out of it -/

theorem enqueuePending_spec (pkg : Package V) (h : r.Inv) (hn : id ∉ r.nodes) (hp : id ∉ r.pending)
    (hv : id.valid = true) (hpv : item.parent = .zero ∨ item.parent.valid = true) :
    (r.enqueuePending pkg id item).Inv := by
  have hq := h.queued
  refine ⟨h.indexed, ⟨fun x hx => ?_, fun x it hx => ?_, fun p x => ?_, fun p w hw => ?_⟩⟩
  · rw [enqueuePending, mem_insert] at hx
    rcases hx with rfl | hx
    · exact hn
    · exact hq.disjoint x hx
  · simp only [enqueuePending, get?_insert] at hx
    split_ifs at hx with he
    · cases hx
      subst he
      exact ⟨hv, hpv⟩
    · exact hq.valid x it hx
  · simp only [enqueuePending, get?_insert, parentOf_insert]
    by_cases hpar : item.parent = p
    · subst hpar
      rw [if_pos rfl, getD_some, TagSet.mem_insert, hq.waiting]
      split_ifs with he
      · simp [he]
      · simp [he]
    rw [if_neg hpar, hq.waiting]
    split_ifs with he
    · subst he
      simp [parentOf_eq_none hp, hpar]
    · rfl
  simp only [enqueuePending, get?_insert] at hw
  split_ifs at hw with he
  · cases hw
    simp
  · exact hq.nonempty p w hw

theorem dequeuePending_spec (h : r.Queued) (hid : r.pending[id]? = some item)
    (nodes : TagMap (Node V)) (hnodes : ∀ x, x ∈ nodes ↔ x = id ∨ x ∈ r.nodes)
    (s : SequenceIndex) (ch : ChildIndex) :
    {r.dequeuePending pkg id item with nodes, sequence := s, children := ch}.Queued := by
  have hparent : parentOf r.pending id = some item.parent := by simp [parentOf, hid]
  refine ⟨fun x hx hx' => ?_, fun x it hx => ?_, fun p x => ?_, fun p w hw => ?_⟩
  · have hx : id ≠ x ∧ x ∈ r.pending := by
      simpa [dequeuePending] using hx
    rcases (hnodes x).mp hx' with rfl | hx'
    · exact hx.1 rfl
    · exact h.disjoint x hx.2 hx'
  · simp only [dequeuePending, getElem?_erase] at hx
    split_ifs at hx
    exact h.valid x it hx
  · simp only [dequeuePending, parentOf_erase]
    have hmem : ∀ y, y ∈ (r.waitingByParent[item.parent]?.getD ∅).erase id ↔
        id ≠ y ∧ parentOf r.pending y = some item.parent := fun y => by
      rw [TagSet.mem_erase, h.waiting]
    by_cases hpar : item.parent = p
    · subst hpar
      have hx : x ∈ (r.waitingByParent[item.parent]?.getD ∅).erase id ↔
          (if id = x then none else parentOf r.pending x) = some item.parent := by
        rw [hmem]
        split_ifs with he <;> simp [he]
      rw [← hx]
      split_ifs with hempty
      · rw [getElem?_erase, if_pos rfl, Std.ExtTreeSet.isEmpty_iff.mp hempty]
        rfl
      · rw [get?_insert, if_pos rfl]
        rfl
    have hw : (if ((r.waitingByParent[item.parent]?.getD ∅).erase id).isEmpty = true then
        r.waitingByParent.erase item.parent else r.waitingByParent.insert item.parent
          ((r.waitingByParent[item.parent]?.getD ∅).erase id))[p]? = r.waitingByParent[p]? := by
      split_ifs
      · rw [getElem?_erase, if_neg hpar]
      · rw [get?_insert, if_neg hpar]
    rw [hw, h.waiting]
    split_ifs with he
    · subst he
      simp [hparent, hpar]
    · rfl
  · simp only [dequeuePending] at hw
    split_ifs at hw with hempty
    · rw [getElem?_erase] at hw
      split_ifs at hw
      exact h.nonempty p w hw
    rw [get?_insert] at hw
    split_ifs at hw
    · cases hw
      simpa using hempty
    · exact h.nonempty p w hw

/-- What a step that integrates one node does. -/
structure Integrates (r r' : Replica V) (id : Position) (item : Node V) : Prop where
  inv : r'.Inv
  nodes : r'.nodes = r.nodes.insert id item
  pending : r'.pending = r.pending.erase id
  tombstones : r'.tombstones = r.tombstones
  version : r'.version = r.version

theorem integratePending_spec (pkg : Package V) (h : r.Inv) (hid : r.pending[id]? = some item)
    (hp : r.Reached item.parent) : ∃ r', (let r := r.dequeuePending pkg id item
      integrateNode pkg {r with nodes := r.nodes.insert id item} id item) = some r' ∧
      Integrates r r' id item := by
  have hn := h.queued.disjoint id (mem_iff.mpr ⟨item, hid⟩)
  have hv := (h.queued.valid id item hid).1
  obtain ⟨s', ch', hint, hix⟩ := integrateNode_spec pkg
    (r := {r.dequeuePending pkg id item with nodes := r.nodes.insert id item}) item h.indexed hn hv hp
  refine ⟨_, hint, ⟨hix, ?_⟩, rfl, rfl, rfl, rfl⟩
  refine dequeuePending_spec h.queued hid _ (fun x => ?_) s' ch'
  rw [mem_insert, eq_comm]

section
variable (hi : Integrates r r' id item)
include hi

theorem Integrates.known (hid : r.known id = some item) (x : Position) : r'.known x = r.known x := by
  unfold Replica.known at hid ⊢
  rw [hi.nodes, hi.pending, get?_insert, getElem?_erase]
  split_ifs with he
  · subst he
    rw [hid]
    rfl
  · rfl

theorem Integrates.parentOf_pending (x : Position) :
    parentOf r'.pending x = if id = x then none else parentOf r.pending x := by
  rw [hi.pending, parentOf_erase]

theorem Integrates.reached (p : Position) : r'.Reached p ↔ r.Reached p ∨ p = id := by
  unfold Replica.Reached
  rw [hi.nodes, mem_insert, eq_comm (a := id)]
  tauto

end

/-! ### Draining -/

/-- What a pass over the queue leaves as it was. -/
structure Drains (r r' : Replica V) : Prop where
  inv : r'.Inv
  settled : r'.Settled
  known : ∀ x, r'.known x = r.known x
  tombstones : r'.tombstones = r.tombstones
  version : r'.version = r.version

theorem mem_sortedWaitingIDs (h : r.Queued) (p x : Position) :
    x ∈ sortedWaitingIDs r.waitingByParent[p]? ↔ parentOf r.pending x = some p := by
  rw [sortedWaitingIDs, Std.ExtTreeSet.mem_toList, h.waiting]

theorem nodup_sortedWaitingIDs (w : Option TagSet) : (sortedWaitingIDs w).Nodup :=
  (w.getD ∅).ordered_toList.imp fun h => ((Tag.compare_eq_lt_iff _ _).mp h).ne

section
variable (pkg : Package V) {recheck : Replica V → Node V → Bool}
  (hrecheck : ∀ r item, r.Reached item.parent → recheck r item = true)
include hrecheck

theorem integrateReadyLoop_spec {n : Nat}
    {ready : List Position} (changed : Bool) (h : r.Inv) (hnodup : ready.Nodup)
    (hready : ∀ x, x ∈ ready ↔ ∃ p, parentOf r.pending x = some p ∧ r.Reached p) (hn : r.pending.size ≤ n) :
    ∃ r', integrateReadyLoop pkg recheck n r ready changed =
        some (r', changed || !ready.isEmpty) ∧ Drains r r' := by
  induction n generalizing r ready changed with
  | zero =>
    have hempty : r.pending = ∅ := Std.ExtTreeMap.eq_empty_iff_size_eq_zero.mpr (by omega)
    have : ready = [] := eq_nil_iff_forall_not_mem.mpr fun x hx => by
      obtain ⟨p, hp, _⟩ := (hready x).mp hx
      simp [hempty, parentOf] at hp
    subst this
    refine ⟨r, by simp [integrateReadyLoop], h, fun x p hp => ?_, fun _ => rfl, rfl, rfl⟩
    simp [hempty, parentOf] at hp
  | succ n ih =>
    cases ready with
    | nil =>
      refine ⟨r, by simp [integrateReadyLoop], h, fun x p hp hr => ?_, fun _ => rfl, rfl, rfl⟩
      have := (hready x).mpr ⟨p, hp, hr⟩
      simp at this
    | cons id ready =>
      obtain ⟨hidr, hnodup⟩ := nodup_cons.mp hnodup
      obtain ⟨p, hparent, hreach⟩ := (hready id).mp (by simp)
      obtain ⟨item, hitem, rfl⟩ := parentOf_eq_some.mp hparent
      obtain ⟨r₁, hint, hi⟩ := integratePending_spec pkg h hitem hreach
      have hidn := h.queued.disjoint id (mem_iff.mpr ⟨item, hitem⟩)
      have hidz := Tag.ne_zero_of_valid (h.queued.valid id item hitem).1
      have hsize : r₁.pending.size ≤ n := by
        rw [hi.pending, Std.ExtTreeMap.size_erase]
        have hmem : r.pending.contains id = true := by
          exact mem_iff.mpr ⟨item, hitem⟩
        rw [if_pos hmem]
        omega
      have hnodup' : (ready ++ sortedWaitingIDs r₁.waitingByParent[id]?).Nodup := by
        refine nodup_append.mpr ⟨hnodup, nodup_sortedWaitingIDs _, ?_⟩
        rintro x hx _ hx' rfl
        rw [mem_sortedWaitingIDs hi.inv.queued, hi.parentOf_pending] at hx'
        obtain ⟨q, hq, hqr⟩ := (hready x).mp (by simp [hx])
        split_ifs at hx'
        rw [hq] at hx'
        cases hx'
        exact hqr.elim hidz hidn
      have hready' : ∀ x, x ∈ ready ++ sortedWaitingIDs r₁.waitingByParent[id]? ↔
          ∃ p, parentOf r₁.pending x = some p ∧ r₁.Reached p := by
        intro x
        rw [mem_append, mem_sortedWaitingIDs hi.inv.queued]
        simp only [hi.parentOf_pending, hi.reached]
        have hx := hready x
        by_cases he : id = x
        · subst he
          simp [hidr]
        simp only [if_neg he]
        have hx' : x ∈ ready ↔ ∃ p, parentOf r.pending x = some p ∧ r.Reached p := by
          rw [← hx]
          simp [Ne.symm he]
        rw [hx']
        constructor
        · rintro (⟨p, hp, hr⟩ | hp)
          · exact ⟨p, hp, .inl hr⟩
          · exact ⟨id, hp, .inr rfl⟩
        rintro ⟨p, hp, hr | rfl⟩
        · exact .inl ⟨p, hp, hr⟩
        · exact .inr hp
      obtain ⟨r', hloop, hd⟩ := ih true hi.inv hnodup' hready' hsize
      refine ⟨r', ?_, hd.inv, hd.settled, fun x => ?_, hd.tombstones.trans hi.tombstones,
        hd.version.trans hi.version⟩
      · simp only [integrateReadyLoop, hitem, hrecheck r item hreach, Bool.not_true,
          Bool.false_eq_true, if_false]
        rw [hint]
        simpa using hloop
      · rw [hd.known, hi.known (known_of_pending h.queued hitem)]

theorem integrateReady_spec (h : r.Inv) :
    ∃ r' changed, r.integrateReady pkg recheck = some (r', changed) ∧ Drains r r' := by
  have hq := h.queued
  have hmem : ∀ x, (x ∈ (r.waitingByParent.keys.filter fun parent =>
      !parent.valid || r.nodes.contains parent).flatMap fun parent =>
        sortedWaitingIDs r.waitingByParent[parent]?) ↔
      ∃ p, parentOf r.pending x = some p ∧ r.Reached p := by
    intro x
    simp only [mem_flatMap, List.mem_filter, Std.ExtTreeMap.mem_keys, mem_sortedWaitingIDs hq,
      Bool.or_eq_true, Bool.not_eq_true', Std.ExtTreeMap.contains_iff_mem]
    constructor
    · rintro ⟨p, ⟨_, hp⟩, hx⟩
      obtain ⟨item, hitem, rfl⟩ := parentOf_eq_some.mp hx
      refine ⟨_, hx, hp.imp (fun hinv => ?_) id⟩
      exact (hq.valid x item hitem).2.resolve_right (by simp [hinv])
    rintro ⟨p, hx, hp⟩
    refine ⟨p, ⟨?_, hp.imp (fun hz => by rw [hz]; rfl) id⟩, hx⟩
    have hw := (hq.waiting p x).mpr hx
    by_contra hnot
    rw [not_mem_iff.mp hnot] at hw
    simp at hw
  have hnodup : ((r.waitingByParent.keys.filter fun parent =>
      !parent.valid || r.nodes.contains parent).flatMap fun parent =>
        sortedWaitingIDs r.waitingByParent[parent]?).Nodup := by
    refine nodup_flatMap.mpr ⟨fun p _ => nodup_sortedWaitingIDs _, ?_⟩
    refine (r.waitingByParent.nodup_keys.filter _).pairwise_of_forall_ne ?_
    intro p _ q _ hpq x hx hx'
    rw [mem_sortedWaitingIDs hq] at hx hx'
    rw [hx] at hx'
    exact hpq (some.inj hx')
  obtain ⟨r', hloop, hd⟩ := integrateReadyLoop_spec pkg hrecheck false h hnodup hmem (Nat.le_refl _)
  exact ⟨r', _, hloop, hd⟩

end

/-! ### Tombstones -/

theorem shown_insert (tombstones : TagSet) (id : Position) :
    shown (tombstones.insert id) = Function.update (shown tombstones) id false := by
  funext p
  by_cases hp : p = id
  · subst hp
    simp [shown]
  rw [Function.update_of_ne hp]
  have hne : (id.compare p == .eq) = false := by simpa using Ne.symm hp
  simp [shown, hne]

/-- What a pass over tombstones leaves as it was. -/
structure Buries (r r' : Replica V) (ids : List Position) : Prop where
  inv : r'.Inv
  nodes : r'.nodes = r.nodes
  pending : r'.pending = r.pending
  version : r'.version = r.version
  tombstones : ∀ x, x ∈ r'.tombstones ↔ x ∈ r.tombstones ∨ x ∈ ids

theorem applyTombstones_spec (h : r.Inv) (ids : List Position) :
    ∃ r' changed, r.applyTombstones ids = some (r', changed) ∧ Buries r r' ids := by
  induction ids generalizing r with
  | nil => exact ⟨r, false, rfl, h, rfl, rfl, rfl, by simp⟩
  | cons id ids ih =>
    by_cases hid : r.tombstones.contains id = true
    · obtain ⟨r', changed, happ, hb⟩ := ih h
      refine ⟨r', changed, by simp [applyTombstones, hid, happ], hb.inv, hb.nodes, hb.pending,
        hb.version, fun x => ?_⟩
      rw [hb.tombstones, mem_cons]
      refine ⟨fun hx => hx.imp_right .inr, ?_⟩
      rintro (hx | rfl | hx)
      · exact .inl hx
      · exact .inl (by simpa using hid)
      · exact .inr hx
    obtain ⟨l, hl⟩ := h.indexed.holds
    obtain ⟨s', hs', hl', hkept, hpairs⟩ := SequenceIndex.setVisible_spec hl id false
    rw [← shown_insert] at hl'
    have h' : Replica.Inv {r with tombstones := r.tombstones.insert id, sequence := s'} :=
      ⟨⟨h.indexed.forested, ⟨l, hl'⟩, h.indexed.kids.kept hkept hpairs⟩,
        h.queued.congr rfl rfl h.queued.disjoint⟩
    obtain ⟨r', changed, happ, hb⟩ := ih h'
    refine ⟨r', true, ?_, hb.inv, hb.nodes, hb.pending, hb.version, fun x => ?_⟩
    · simp only [applyTombstones, hid, Bool.false_eq_true, if_false, hs', bind_eq_bind, bind_some, happ]
      rfl
    rw [hb.tombstones, TagSet.mem_insert, mem_cons, eq_comm]
    tauto

theorem Buries.settled (hb : Buries r r' ids) (h : r.Settled) : r'.Settled := by
  intro id p hp
  rw [hb.pending] at hp
  unfold Replica.Reached
  rw [hb.nodes]
  exact h id p hp

theorem Buries.known (hb : Buries r r' ids) (x : Position) : r'.known x = r.known x := by
  unfold Replica.known
  rw [hb.nodes, hb.pending]

/-! ### The empty replica -/

theorem newReplica_spec (V : Type) : ∃ r, newReplica V = some r ∧ r.Inv ∧ r.Settled ∧
    r.nodes = ∅ ∧ r.pending = ∅ ∧ r.tombstones = ∅ := by
  obtain ⟨s, hs, hl, hsingle⟩ := SequenceIndex.newSequenceIndex_spec (shown ∅) (by simp)
  have hkids : ∀ p, kidsOf (∅ : TagMap (Node V)) p = [] := fun p => by simp [kidsOf]
  have hmarks : marksOf (∅ : TagMap (Node V)) = [.enter .zero, .exit .zero] := by
    simp [marksOf, walk]
  have hsib : ∀ x, newChildIndex.siblings s x = [] := fun x => by
    simp [ChildIndex.siblings, newChildIndex, hsingle]
  refine ⟨_, by rw [newReplica, hs]; rfl, ⟨⟨⟨by simp, by simp⟩, ⟨_, hmarks ▸ hl⟩, ?_⟩, ?_⟩, ?_, rfl, rfl, rfl⟩
  · refine ⟨fun p x hx => ?_, fun p x hx q hq => ?_, fun p x hx => ?_, fun p hp => ?_,
      fun p => by simp [newChildIndex]⟩
    · rw [hsib, hkids]
      rfl
    · rw [hsib] at hq
      simp at hq
    · exact fun _ => hsingle x
    · simp [newChildIndex] at hp
  · refine ⟨by simp, by simp, fun p x => ?_, by simp⟩
    simp [parentOf]
  · intro id p hp
    simp [parentOf] at hp

/-! ### What a settled replica is -/

/-- The integrated nodes are those whose parent chain arrives at the root. -/
theorem mem_nodes_iff_rooted (h : r.Inv) (hs : r.Settled) :
    id ∈ r.nodes ↔ Rooted (fun x => (r.known x).map Node.parent) .zero id := by
  refine (Rooted.iff_of_split (fun x => x ∈ r.nodes) (fun x hx => ?_) ?_).symm
  · refine (h.indexed.forested.rooted x hx).mono fun x y hxy => ?_
    obtain ⟨item, hitem, rfl⟩ := parentOf_eq_some.mp hxy
    simp [Replica.known, hitem]
  intro x y hxy hx
  have hx' : r.nodes[x]? = none := not_mem_iff.mp hx
  have hp : parentOf r.pending x = some y := by
    simpa [Replica.known, hx', parentOf] using hxy
  have := hs x y hp
  unfold Replica.Reached at this
  tauto

/-- What a settled replica knows determines what it has integrated and what is pending,
whatever the payloads are. -/
theorem map_of_known {W : Type} {r' : Replica W} (f : V → W) (h : r.Inv)
    (hs : r.Settled) (h' : r'.Inv) (hs' : r'.Settled)
    (hknown : ∀ x, r'.known x = (r.known x).map (Node.map f)) :
    r'.nodes = r.nodes.map (fun _ => Node.map f) ∧ r'.pending = r.pending.map (fun _ => Node.map f) := by
  have hmem : ∀ x, x ∈ r.nodes ↔ x ∈ r'.nodes := fun x => by
    rw [mem_nodes_iff_rooted h hs, mem_nodes_iff_rooted h' hs']
    simp only [hknown, Option.map_map]
    rfl
  have hsplit : ∀ x : Position, r'.nodes[x]? = r.nodes[x]?.map (Node.map f) ∧
      r'.pending[x]? = r.pending[x]?.map (Node.map f) := by
    intro x
    have hk := hknown x
    unfold Replica.known at hk
    by_cases hx : x ∈ r.nodes
    · have hp : x ∉ r.pending := fun hp => h.queued.disjoint x hp hx
      have hp' : x ∉ r'.pending := fun hp => h'.queued.disjoint x hp ((hmem x).mp hx)
      rw [not_mem_iff.mp hp, not_mem_iff.mp hp', or_none, or_none] at hk
      exact ⟨hk, by rw [not_mem_iff.mp hp, not_mem_iff.mp hp']; rfl⟩
    have hx' : x ∉ r'.nodes := fun hx' => hx ((hmem x).mpr hx')
    rw [not_mem_iff.mp hx, not_mem_iff.mp hx'] at hk
    exact ⟨by rw [not_mem_iff.mp hx, not_mem_iff.mp hx']; rfl, by simpa using hk⟩
  exact ⟨Std.ExtTreeMap.ext_getElem? fun x => by rw [(hsplit x).1, Std.ExtTreeMap.getElem?_map],
    Std.ExtTreeMap.ext_getElem? fun x => by rw [(hsplit x).2, Std.ExtTreeMap.getElem?_map]⟩

theorem eq_of_known (h : r.Inv) (hs : r.Settled) (h' : r'.Inv) (hs' : r'.Settled)
    (hknown : ∀ x, r'.known x = r.known x) : r'.nodes = r.nodes ∧ r'.pending = r.pending := by
  have hmap : ∀ m : TagMap (Node V), m.map (fun _ => Node.map id) = m := fun m =>
    Std.ExtTreeMap.ext_getElem? fun x => by
      rw [Std.ExtTreeMap.getElem?_map]
      cases m[x]? <;> rfl
  obtain ⟨hn, hp⟩ := map_of_known id h hs h' hs' fun x => by
    rw [hknown]
    cases r.known x <;> rfl
  exact ⟨hn.trans (hmap _), hp.trans (hmap _)⟩

/-- The depth-first traversal of a forest from its root, greatest siblings first. -/
def traversal (nodes : TagMap (Node V)) : List Position :=
  preorder (kidsOf nodes) (nodes.size + 1) .zero

/-- The visible positions: the traversal without the root and the tombstoned positions. -/
def projection (nodes : TagMap (Node V)) (tombstones : TagSet) : List Position :=
  (traversal nodes).filter (shown tombstones)

/-- The payloads have no part in the order. -/
theorem projection_map {W : Type} (f : V → W) (nodes : TagMap (Node V)) (tombstones : TagSet) :
    projection (nodes.map fun _ => Node.map f) tombstones = projection nodes tombstones := by
  have hkids : kidsOf (nodes.map fun _ => Node.map f) = kidsOf nodes := kidsOf_congr fun x => by
    rw [parentOf, Std.ExtTreeMap.getElem?_map, Option.map_map]
    rfl
  rw [projection, projection, traversal, traversal, hkids, Std.ExtTreeMap.size_map]

theorem visiblePositions_spec (h : r.Inv) :
    r.sequence.visiblePositions = some (projection r.nodes r.tombstones) := by
  obtain ⟨l, hl⟩ := h.indexed.holds
  rw [hl.visiblePositions rfl (shown_zero _), marksOf, SequenceIndex.visibleOf_eq_preorder]
  rfl

end Crdt.Rga
