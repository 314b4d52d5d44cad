import Crdt.Tree.Project

/-! What a call does to a tree.

A delta comes in as a whole or is refused (`applyDelta_cases`), and so it is with every other
call. Each one that changes the nodes or the tombstones moves the version on (`Moves`), so that a
cache of the current version is what a new walk would give (`Reachable.sound`). This needs that
`Add` is called with the root or a valid parent, and that the version does not wrap (`Meets`). -/
namespace Crdt.Tree

open Clock Rga MapLoop ORTree List

variable {t t' other : ORTree} {d : Delta} {millis : Int64} {nodes : TagMap StoredNode}
  {value : List UInt8}

/-! ### Deltas -/

structure Valid (d : Delta) : Prop where
  nodes : WellFormed d.nodes
  loopless : ∀ (id : NodeID) (node : StoredNode), d.nodes[id]? = some node → id ≠ node.parent
  tombstones : ∀ id ∈ d.tombstones, id.valid = true

theorem validate_iff : validate d = .ok () ↔ Valid d := by
  unfold validate
  constructor
  · intro h
    split_ifs at h with hn ht
    simp only [Bool.not_eq_true, any_toList, Bool.or_eq_false_iff, Bool.not_eq_false', decide_eq_false_iff_not,
      Bool.and_eq_false_imp, decide_eq_true_eq] at hn
    refine ⟨fun id node hnode => ⟨(hn id node hnode).1.1, ?_⟩, fun id node hnode => (hn id node hnode).1.2,
      fun id hid => ?_⟩
    · by_cases hz : node.parent = .zero
      · exact .inl hz
      · exact .inr ((hn id node hnode).2 hz)
    · have ht : d.tombstones.toList.all Tag.valid = true := by simpa using ht
      exact all_eq_true.mp ht id (Std.ExtTreeSet.mem_toList.mpr hid)
  intro h
  rw [if_neg, if_neg]
  · simp only [Bool.not_eq_true', Bool.not_eq_false, all_eq_true]
    exact fun id hid => h.tombstones id (Std.ExtTreeSet.mem_toList.mp hid)
  rw [Bool.not_eq_true, any_toList]
  intro id node hnode
  obtain ⟨hv, hpar⟩ := h.nodes id node hnode
  simp only [hv, h.loopless id node hnode, Bool.not_true, decide_false, Bool.false_or, Bool.and_eq_false_imp,
    decide_eq_true_eq, Bool.not_eq_false']
  exact hpar.resolve_left

/-! ### Joins -/

theorem fst_takeNode (acc : TagMap StoredNode × Bool) (p : NodeID × StoredNode) :
    (takeNode acc p).1 = if acc.1[p.1]? = none then acc.1.insert p.1 p.2 else acc.1 := by
  unfold takeNode
  rw [Std.ExtTreeMap.contains_eq_isSome_getElem?]
  cases acc.1[p.1]? <;> rfl

theorem getElem?_takeNode (nodes incoming : TagMap StoredNode) (flag : Bool) (id : NodeID) :
    (incoming.toList.foldl takeNode (nodes, flag)).1[id]? = nodes[id]?.or incoming[id]? := by
  have hfst : (incoming.toList.foldl takeNode (nodes, flag)).1 = incoming.toList.foldl (fun nodes p =>
      if nodes[p.1]? = none then nodes.insert p.1 p.2 else nodes) nodes :=
    (foldl_hom Prod.fst fun acc p => (fst_takeNode acc p).symm).symm
  rw [hfst]
  refine (getElem?_foldl_insertIf (fun _ _ current => current = none) (fun node => node) incoming nodes id).trans ?_
  cases nodes[id]? <;> cases incoming[id]? <;> rfl

/-- A loop that notes every change has changed nothing if none was noted. -/
theorem foldl_same {α β : Type} {f : α × Bool → β → α × Bool} (hf : ∀ acc b, f acc b = acc ∨ (f acc b).2 = true)
    (l : List β) (acc : α × Bool) (h : (l.foldl f acc).2 = false) : l.foldl f acc = acc := by
  induction l generalizing acc with
  | nil => rfl
  | cons b l ih =>
    rw [foldl_cons] at h ⊢
    rcases hf acc b with hsame | hnoted
    · rw [hsame] at h ⊢
      exact ih acc h
    · rw [ih _ h, hnoted] at h
      cases h

/-- Go ranges over the nodes in any order, and the loop ends with the same. -/
theorem foldl_takeNode_perm {nodes : TagMap StoredNode} {l : List (NodeID × StoredNode)}
    (hp : l.Perm nodes.toList) (acc : TagMap StoredNode × Bool) :
    l.foldl takeNode acc = nodes.toList.foldl takeNode acc := by
  refine hp.foldl_eq' (fun p hx q hy acc => ?_) acc
  by_cases he : p.1 = q.1
  · have hx := mem_toList.mp (hp.mem_iff.mp hx)
    rw [he, mem_toList.mp (hp.mem_iff.mp hy)] at hx
    rw [Prod.ext he (Option.some.inj hx).symm]
  have hcomm : (acc.1.insert p.1 p.2).insert q.1 q.2 = (acc.1.insert q.1 q.2).insert p.1 p.2 :=
    Std.ExtTreeMap.ext_getElem? fun id => by grind [get?_insert]
  unfold takeNode
  split_ifs <;> simp_all [Std.ExtTreeMap.contains_insert]

theorem mem_takeTombstone (l : List NodeID) (acc : TagSet × Bool) (id : NodeID) :
    id ∈ (l.foldl takeTombstone acc).1 ↔ id ∈ acc.1 ∨ id ∈ l := by
  have hstep : ∀ (acc : TagSet × Bool) x, id ∈ (takeTombstone acc x).1 ↔ id ∈ acc.1 ∨ x = id := by
    intro acc x
    rw [takeTombstone]
    split_ifs with hc
    · exact (or_iff_left_of_imp fun h => h ▸ Std.ExtTreeSet.contains_iff_mem.mp hc).symm
    · rw [TagSet.mem_insert, or_comm]
  refine (foldl_iff (P := fun acc : TagSet × Bool => id ∈ acc.1) hstep l acc).trans ?_
  simp

/-- A step that leaves the nodes and tombstones alone, or moves the version on. -/
structure Moves (t t' : ORTree) : Prop where
  count : t'.visibleCount = t.visibleCount ∧ t'.visibleCountVersion = t.visibleCountVersion
  ids : t'.visibleIDs = t.visibleIDs ∧ t'.visibleIDsVersion = t.visibleIDsVersion
  version : (t'.version = t.version ∧ t'.nodes = t.nodes ∧ t'.tombstones = t.tombstones) ∨
    t'.version = t.version + 1

theorem Moves.refl (t : ORTree) : Moves t t := ⟨⟨rfl, rfl⟩, ⟨rfl, rfl⟩, .inl ⟨rfl, rfl, rfl⟩⟩

theorem moves_join (t : ORTree) (d : Delta) : Moves t (t.join d) := by
  refine ⟨⟨rfl, rfl⟩, ⟨rfl, rfl⟩, ?_⟩
  unfold join
  dsimp only
  cases hc : (d.tombstones.toList.foldl takeTombstone (t.tombstones,
      (d.nodes.toList.foldl takeNode (t.nodes, false)).2)).2 with
  | true => exact .inr rfl
  | false =>
    have ht := foldl_same (fun acc id => by unfold takeTombstone; split_ifs <;> simp) _ _ hc
    rw [ht] at hc
    have hn := foldl_same (fun acc p => by unfold takeNode; split_ifs <;> simp) _ _ hc
    exact .inl ⟨rfl, congrArg Prod.fst hn, congrArg Prod.fst ht⟩

/-- What an accepted delta does. -/
structure Joined (t : ORTree) (d : Delta) (t' : ORTree) : Prop where
  valid : Valid d
  nodes : ∀ id : NodeID, t'.nodes[id]? = t.nodes[id]?.or d.nodes[id]?
  tombstones : ∀ id, id ∈ t'.tombstones ↔ id ∈ t.tombstones ∨ id ∈ d.tombstones
  moves : Moves t t'
  replicaID : t'.clock.replicaID = t.clock.replicaID

theorem joined_join (hv : Valid d) {clock : HLC} (hclock : clock.replicaID = t.clock.replicaID) :
    Joined t d (join {t with clock} d) := by
  refine ⟨hv, getElem?_takeNode t.nodes d.nodes false, fun id => ?_, ?_, hclock⟩
  · rw [← Std.ExtTreeSet.mem_toList (t := d.tombstones)]
    exact mem_takeTombstone d.tombstones.toList (t.tombstones, _) id
  · have := moves_join {t with clock} d
    exact ⟨this.count, this.ids, this.version⟩

theorem joined_of_subsumed (hv : Valid d) (hs : treeDeltaSubsumed t.nodes t.tombstones d = true) :
    Joined t d t := by
  obtain ⟨hn, ht⟩ := Bool.and_eq_true_iff.mp hs
  refine ⟨hv, fun id => ?_, fun id => ?_, Moves.refl t, rfl⟩
  · cases hd : d.nodes[id]? with
    | none => simp
    | some node =>
      have := of_decide_eq_true (all_toList.mp hn id node hd)
      simp [this]
  refine (or_iff_left_of_imp fun hid => ?_).symm
  have := all_eq_true.mp ht id (Std.ExtTreeSet.mem_toList.mpr hid)
  exact Std.ExtTreeSet.contains_iff_mem.mp this

/-- The checks of `ApplyDelta` on the limits of the tree. -/
structure Within (t : ORTree) (d : Delta) : Prop where
  values : ∀ (id : NodeID) (node : StoredNode), d.nodes[id]? = some node →
    (node.value.length : Int) ≤ t.options.maxValueBytes
  nodes : (t.nodes.size : Int) + newTreeNodes d.nodes t.nodes ≤ t.options.maxNodes
  tombstones : (t.tombstones.size : Int) + newTreeTombstones d.tombstones t.tombstones ≤
    t.options.maxTombstones

/-- A delta comes in as a whole, or the call is refused; with a valid delta within the limits that
agrees and closes no cycle, only the clock refuses. -/
theorem applyDelta_cases (t : ORTree) (d : Delta) (millis : Int64) :
    (∃ t', t.applyDelta d millis = (t', .ok ()) ∧ Joined t d t') ∨
      ∃ err, t.applyDelta d millis = (t, .error err) ∧ (Valid d → Within t d →
          (∀ (id : NodeID) (node node' : StoredNode), d.nodes[id]? = some node → t.nodes[id]? = some node' →
            node' = node) → acyclic d.nodes t.nodes = true → ∃ e, err = .clock e) := by
  unfold applyDelta
  rcases hv : validate d with err | ⟨⟩
  · refine .inr ⟨err, rfl, fun hd => ?_⟩
    cases (validate_iff.mpr hd).symm.trans hv
  have hvalid := validate_iff.mp hv
  split_ifs with hvalue hagree hsub hlimit hacyclic
  · refine .inr ⟨_, rfl, fun _ hw => ?_⟩
    obtain ⟨p, hp, hlt⟩ := any_eq_true.mp hvalue
    have := hw.values p.1 p.2 (mem_toList.mp hp)
    rw [decide_eq_true_eq] at hlt
    omega
  · refine .inr ⟨_, rfl, fun _ _ ha => ?_⟩
    rw [any_toList_ne.mpr fun id node' node hn hd => ha id node node' hd hn] at hagree
    cases hagree
  · exact .inl ⟨t, rfl, joined_of_subsumed hvalid hsub⟩
  · refine .inr ⟨_, rfl, fun _ hw => ?_⟩
    have h₁ := hw.nodes
    have h₂ := hw.tombstones
    simp only [Bool.or_eq_true, decide_eq_true_eq] at hlimit
    omega
  · exact .inr ⟨_, rfl, fun _ _ _ hc => by simp [hc] at hacyclic⟩
  cases greatest d with
  | none => exact .inl ⟨_, rfl, joined_join hvalid rfl⟩
  | some tag =>
    rcases hw : t.clock.witness tag millis with ⟨clock, err | ⟨⟩⟩
    · obtain rfl := HLC.witness_error hw
      simp only [hw]
      exact .inr ⟨_, rfl, fun _ _ _ _ => ⟨err, rfl⟩⟩
    · simp only [hw]
      exact .inl ⟨_, rfl, joined_join hvalid (HLC.witness_ok hw).1⟩

theorem joined_of_ok (h : t.applyDelta d millis = (t', .ok ())) : Joined t d t' := by
  rcases applyDelta_cases t d millis with ⟨t'', he, hj⟩ | ⟨err, he, -⟩
  · rw [h] at he
    cases he
    exact hj
  · rw [h] at he
    cases he

/-! ### Trees that can be walked -/

structure Formed (t : ORTree) : Prop where
  replicaID : Tag.valid ⟨t.clock.replicaID, 0, 0⟩ = true
  nodes : WellFormed t.nodes
  tombstones : ∀ id ∈ t.tombstones, id.valid = true

section
variable {state : Clock.State} {options : Options} (h : newFromClockWithOptions state options = .ok t)
include h

theorem newFromClockWithOptions_ok : Tag.valid ⟨t.clock.replicaID, 0, 0⟩ = true ∧
      t = {replicaID := state.replicaID, clock := t.clock, options} := by
  unfold newFromClockWithOptions at h
  split_ifs at h with hid hopt
  split at h
  · cases h
  rename_i clock hc
  cases h
  have hs := HLC.newHLCFromState_ok hc
  have hid : Tag.valid ⟨state.replicaID, 0, 0⟩ = true := by simpa using hid
  rw [← hs] at hid
  exact ⟨hid, rfl⟩

theorem formed_fresh : Formed t := by
  obtain ⟨hid, he⟩ := newFromClockWithOptions_ok h
  refine ⟨hid, fun id node hnode => ?_, fun id hm => ?_⟩
  · rw [he] at hnode
    simp at hnode
  · rw [he] at hm
    simp at hm

end

theorem WellFormed.insert (h : WellFormed nodes) {id parent : NodeID}
    (hid : id.valid = true) (hp : parent = .zero ∨ parent.valid = true) :
    WellFormed (nodes.insert id ⟨parent, value⟩) := by
  intro x node hx
  rw [get?_insert] at hx
  split_ifs at hx with he
  · cases hx
    exact ⟨he ▸ hid, hp⟩
  · exact h x node hx

theorem Formed.joined (h : Formed t) (hj : Joined t d t') : Formed t' := by
  refine ⟨hj.replicaID ▸ h.replicaID, fun id node hnode => ?_, fun id hid => ?_⟩
  · rw [hj.nodes] at hnode
    rcases Option.or_eq_some_iff.mp hnode with hnode | ⟨-, hnode⟩
    · exact h.nodes id node hnode
    · exact hj.valid.nodes id node hnode
  rcases (hj.tombstones id).mp hid with hid | hid
  · exact h.tombstones id hid
  · exact hj.valid.tombstones id hid

/-- A node that was added. -/
structure Added (t : ORTree) (parent : NodeID) (value : List UInt8) (id : NodeID) (d : Delta)
    (t' : ORTree) : Prop where
  valid : id.valid = true
  nodes : t'.nodes = t.nodes.insert id ⟨parent, value⟩
  tombstones : t'.tombstones = t.tombstones
  delta : d = {nodes := (∅ : TagMap StoredNode).insert id ⟨parent, value⟩}
  moves : Moves t t'
  replicaID : t'.clock.replicaID = t.clock.replicaID

theorem Formed.add_cases (h : Formed t) (parent : NodeID) (value : List UInt8) (millis : Int64) :
    (∃ t' id d, t.add parent value millis = (t', .ok (id, d)) ∧ Added t parent value id d t') ∨
      ∃ err, t.add parent value millis = (t, .error err) := by
  unfold add
  split_ifs
  · exact .inr ⟨_, rfl⟩
  · exact .inr ⟨_, rfl⟩
  · exact .inr ⟨_, rfl⟩
  rcases hn : t.clock.now millis with ⟨clock, err | id⟩
  · obtain rfl := HLC.now_error hn
    exact .inr ⟨_, rfl⟩
  obtain ⟨rfl, hr, -⟩ := HLC.now_ok hn
  have hvalid : clock.tag.valid = true := by
    have := h.replicaID
    rwa [← hr] at this
  exact .inl ⟨_, _, _, rfl, hvalid, rfl, rfl, rfl, ⟨⟨rfl, rfl⟩, ⟨rfl, rfl⟩, .inr rfl⟩, hr⟩

theorem Formed.added (h : Formed t) {parent id : NodeID}
    (ha : Added t parent value id d t') (hp : parent = .zero ∨ parent.valid = true) : Formed t' := by
  refine ⟨ha.replicaID ▸ h.replicaID, ?_, ?_⟩
  · rw [ha.nodes]
    exact h.nodes.insert ha.valid hp
  · rw [ha.tombstones]
    exact h.tombstones

theorem remove_cases (t : ORTree) (id : NodeID) (millis : Int64) :
    (∃ t' d, t.remove id millis = (t', .ok d) ∧ Joined t d t') ∨
      ∃ err, t.remove id millis = (t, .error err) := by
  unfold remove
  split_ifs
  · exact .inr ⟨_, rfl⟩
  · exact .inr ⟨_, rfl⟩
  dsimp only
  rcases applyDelta_cases t {tombstones := (∅ : TagSet).insert id} millis with
    ⟨t', he, hj⟩ | ⟨err, he, -⟩
  · rw [he]
    exact .inl ⟨t', _, rfl, hj⟩
  · rw [he]
    exact .inr ⟨err, rfl⟩

/-- What the decoder lets through to `UnmarshalBinary`. -/
def Decoded (d : Delta) : Prop := validate d = .ok () ∧ acyclic d.nodes ∅ = true

/-- A state that took the place of another. -/
structure Installed (t : ORTree) (d : Delta) (t' : ORTree) : Prop where
  nodes : t'.nodes = d.nodes
  tombstones : t'.tombstones = d.tombstones
  moves : Moves t t'
  replicaID : t'.clock.replicaID = t.clock.replicaID

theorem install_cases (t : ORTree) (d : Delta) (millis : Int64) :
    (∃ t', t.install d millis = (t', .ok ()) ∧ Installed t d t') ∨
      ∃ err, t.install d millis = (t, .error err) := by
  unfold install
  split_ifs
  · exact .inr ⟨_, rfl⟩
  dsimp only
  cases greatest d with
  | none => exact .inl ⟨_, rfl, rfl, rfl, ⟨⟨rfl, rfl⟩, ⟨rfl, rfl⟩, .inr rfl⟩, rfl⟩
  | some tag =>
    rcases hw : t.clock.witness tag millis with ⟨clock, err | ⟨⟩⟩
    · obtain rfl := HLC.witness_error hw
      simp only [hw]
      exact .inr ⟨_, rfl⟩
    · simp only [hw]
      exact .inl ⟨_, rfl, rfl, rfl, ⟨⟨rfl, rfl⟩, ⟨rfl, rfl⟩, .inr rfl⟩, (HLC.witness_ok hw).1⟩

theorem Formed.installed (h : Formed t) (hd : Decoded d) (hi : Installed t d t') : Formed t' := by
  have hv := validate_iff.mp hd.1
  refine ⟨hi.replicaID ▸ h.replicaID, ?_, ?_⟩
  · rw [hi.nodes]
    exact hv.nodes
  · rw [hi.tombstones]
    exact hv.tombstones

theorem moves_drop (t : ORTree) (compact : List NodeID) : Moves t (t.drop compact) := by
  refine ⟨⟨rfl, rfl⟩, ⟨rfl, rfl⟩, ?_⟩
  cases compact with
  | nil => exact .inl ⟨rfl, rfl, rfl⟩
  | cons tag compact => exact .inr (by simp [ORTree.drop])

theorem of_getElem?_foldl_erase {id : NodeID} {node : StoredNode}
    (compact : List NodeID) (h : (compact.foldl (fun nodes tag => nodes.erase tag) nodes)[id]? = some node) :
    nodes[id]? = some node := by
  induction compact generalizing nodes with
  | nil => exact h
  | cons tag compact ih =>
    have := ih h
    rw [getElem?_erase] at this
    split_ifs at this
    exact this

theorem mem_of_mem_foldl_erase {tombstones : TagSet} {id : NodeID} (compact : List NodeID)
    (h : id ∈ compact.foldl (fun tombstones tag => tombstones.erase tag) tombstones) : id ∈ tombstones := by
  induction compact generalizing tombstones with
  | nil => exact h
  | cons tag compact ih => exact (TagSet.mem_erase.mp (ih h)).2

theorem Formed.drop (h : Formed t) (compact : List NodeID) : Formed (t.drop compact) :=
  ⟨h.replicaID, fun id node hnode => h.nodes id node (of_getElem?_foldl_erase compact hnode),
    fun id hid => h.tombstones id (mem_of_mem_foldl_erase compact hid)⟩

theorem compactTombstones_cases (t : ORTree) (tags : List NodeID) :
    (∃ compact, t.compactTombstones tags = (t.drop compact, .ok compact.length)) ∨
      ∃ err, t.compactTombstones tags = (t, .error err) := by
  unfold compactTombstones
  split_ifs
  · exact .inr ⟨_, rfl⟩
  dsimp only
  split
  · exact .inr ⟨_, rfl⟩
  · exact .inl ⟨_, rfl⟩

theorem compactEligibleTombstones_cases (t : ORTree) (tags : List NodeID) :
    (∃ compact, t.compactEligibleTombstones tags = (t.drop compact, .ok compact.length)) ∨
      ∃ err, t.compactEligibleTombstones tags = (t, .error err) := by
  unfold compactEligibleTombstones
  split_ifs
  · exact .inr ⟨_, rfl⟩
  · exact .inl ⟨_, rfl⟩

/-! ### Calls in a row -/

inductive Call
  | add (parent : NodeID) (value : List UInt8)
  | remove (id : NodeID)
  | applyDelta (delta : Delta)
  | merge (other : ORTree)
  | install (delta : Delta)
  | compactTombstones (tags : List NodeID)
  | compactEligibleTombstones (tags : List NodeID)
  | visibleNodes
  | state

/-- The tree after a call and whether it was refused; `none` is a walk that does not end. -/
def ORTree.call (t : ORTree) (millis : Int64) : Call → Option (ORTree × Except Err Unit)
  | .add parent value => some ((t.add parent value millis).map id (Except.map fun _ => ()))
  | .remove id => some ((t.remove id millis).map (fun t => t) (Except.map fun _ => ()))
  | .applyDelta delta => some (t.applyDelta delta millis)
  | .merge other => some (t.merge other millis)
  | .install delta => some (t.install delta millis)
  | .compactTombstones tags => some ((t.compactTombstones tags).map id (Except.map fun _ => ()))
  | .compactEligibleTombstones tags =>
    some ((t.compactEligibleTombstones tags).map id (Except.map fun _ => ()))
  | .visibleNodes => t.visibleNodes.map fun r => (r.1, .ok ())
  | .state => t.state.map fun r => (r.1, .ok ())

/-- What a call needs: a parent is the root or a valid ID, and the version can move on. -/
structure Meets (t : ORTree) (c : Call) : Prop where
  parent : ∀ parent value, c = .add parent value → parent = .zero ∨ parent.valid = true
  version : t.version ≠ maxUint64

/-- The states of a tree after calls that meet the condition, those that failed included. -/
inductive Reachable : ORTree → Prop
  | fresh {state : Clock.State} {options : Options} {t : ORTree}
      (h : newFromClockWithOptions state options = .ok t) : Reachable t
  | call {t t' : ORTree} {c : Call} {millis : Int64} {r : Except Err Unit} (ht : Reachable t)
      (hd : ∀ d, c = .install d → Decoded d) (hc : Meets t c) (h : t.call millis c = some (t', r)) :
    Reachable t'

/-- A cache of the current version is what a new walk would give. -/
structure Sound (t : ORTree) : Prop extends Formed t where
  countLe : t.visibleCountVersion ≤ t.version
  count : t.visibleCountVersion = t.version →
    countVisible t.nodes t.tombstones = some t.visibleCount
  idsLe : t.visibleIDsVersion ≤ t.version
  ids : t.visibleIDsVersion = t.version → visibleNodeIDs t.nodes t.tombstones = some t.visibleIDs

theorem le_and_ne_of_succ {cached version : UInt64} (hle : cached ≤ version) (hv : version ≠ maxUint64) :
    cached ≤ version + 1 ∧ cached ≠ version + 1 := by
  have hmax : version.toNat ≠ 2 ^ 64 - 1 := fun he =>
    hv (UInt64.toNat_inj.mp (he.trans toNat_maxUint64.symm))
  have hsucc : (version + 1).toNat = version.toNat + 1 := by
    have := version.toNat_lt
    rw [UInt64.toNat_add, UInt64.toNat_one, Nat.mod_eq_of_lt (by omega)]
  have hle := UInt64.le_iff_toNat_le.mp hle
  refine ⟨UInt64.le_iff_toNat_le.mpr (by omega), fun he => ?_⟩
  have := congrArg UInt64.toNat he
  omega

theorem Sound.moves (h : Sound t) (hv : t.version ≠ maxUint64) (hm : Moves t t') (hf : Formed t') :
    Sound t' := by
  obtain ⟨⟨hc, hcv⟩, ⟨hi, hiv⟩, ⟨hver, hn, ht⟩ | hver⟩ := hm
  · refine ⟨hf, ?_, fun he => ?_, ?_, fun he => ?_⟩
    · rw [hcv, hver]
      exact h.countLe
    · rw [hn, ht, hc]
      exact h.count (by rw [← hcv, ← hver, he])
    · rw [hiv, hver]
      exact h.idsLe
    · rw [hn, ht, hi]
      exact h.ids (by rw [← hiv, ← hver, he])
  -- both caches are of an older version now
  obtain ⟨hcle, hcne⟩ := le_and_ne_of_succ h.countLe hv
  obtain ⟨hile, hine⟩ := le_and_ne_of_succ h.idsLe hv
  refine ⟨hf, ?_, fun he => ?_, ?_, fun he => ?_⟩
  · rwa [hcv, hver]
  · rw [hcv, hver] at he
    exact absurd he hcne
  · rwa [hiv, hver]
  · rw [hiv, hver] at he
    exact absurd he hine

theorem sound_fresh {state : Clock.State} {options : Options}
    (h : newFromClockWithOptions state options = .ok t) : Sound t := by
  have hf := formed_fresh h
  obtain ⟨-, he⟩ := newFromClockWithOptions_ok h
  have hcount : countVisible ∅ ∅ = some 0 := by decide +kernel
  have hids : visibleNodeIDs ∅ ∅ = some [] := by decide +kernel
  rw [he] at hf ⊢
  exact ⟨hf, le_rfl, fun _ => hcount, le_rfl, fun _ => hids⟩

theorem Sound.visibleNodes_eq (h : Sound t) {ids : List NodeID}
    (hids : visibleNodeIDs t.nodes t.tombstones = some ids) :
    t.visibleNodes = some ({t with visibleIDs := ids, visibleIDsVersion := t.version},
      nodesForVisibleIDs ids t.nodes) := by
  unfold visibleNodes
  by_cases hv : t.visibleIDsVersion = t.version
  · have := h.ids hv
    rw [hids] at this
    cases this
    rw [if_pos hv]
    cases t
    dsimp only at hv
    subst hv
    rfl
  · rw [if_neg hv, hids]
    rfl

theorem Sound.state_eq (h : Sound t) {count : Nat} (hcount : countVisible t.nodes t.tombstones = some count) :
    t.state = some ({t with visibleCount := count, visibleCountVersion := t.version}, count,
      t.tombstones.size) := by
  unfold state
  by_cases hv : t.visibleCountVersion = t.version
  · have := h.count hv
    rw [hcount] at this
    cases this
    rw [if_pos hv]
    cases t
    dsimp only at hv
    subst hv
    rfl
  · rw [if_neg hv, hcount]
    rfl

theorem Formed.walks (h : Formed t) : ∃ ids, visibleNodeIDs t.nodes t.tombstones = some ids ∧
    Projects t.nodes t.tombstones ids ∧ countVisible t.nodes t.tombstones = some ids.length := by
  obtain ⟨ids, hids, hp⟩ := visibleNodeIDs_spec h.nodes t.tombstones
  exact ⟨ids, hids, hp, countVisible_eq h.nodes hp⟩

theorem Sound.call (h : Sound t) {c : Call} (hd : ∀ d, c = .install d → Decoded d) (hc : Meets t c)
    {r : Except Err Unit} (hcall : t.call millis c = some (t', r)) : Sound t' := by
  have hjoined : ∀ {d t'}, Joined t d t' → Sound t' := fun hj =>
    h.moves hc.version hj.moves (h.toFormed.joined hj)
  have hdrop : ∀ compact, Sound (t.drop compact) := fun compact =>
    h.moves hc.version (moves_drop t compact) (h.toFormed.drop compact)
  obtain ⟨ids, hids, -, hcount⟩ := h.toFormed.walks
  cases c with
  | add parent value =>
    rcases h.toFormed.add_cases parent value millis with ⟨u, id, d, he, ha⟩ | ⟨err, he⟩ <;>
      simp only [ORTree.call, he] at hcall <;> cases hcall
    · exact h.moves hc.version ha.moves (h.toFormed.added ha (hc.parent parent value rfl))
    · exact h
  | remove id =>
    rcases remove_cases t id millis with ⟨u, d, he, hj⟩ | ⟨err, he⟩ <;>
      simp only [ORTree.call, he] at hcall <;> cases hcall
    · exact hjoined hj
    · exact h
  | applyDelta d =>
    rcases applyDelta_cases t d millis with ⟨u, he, hj⟩ | ⟨err, he, -⟩ <;>
      simp only [ORTree.call, he] at hcall <;> cases hcall
    · exact hjoined hj
    · exact h
  | merge other =>
    rcases applyDelta_cases t ⟨other.nodes, other.tombstones⟩ millis with ⟨u, he, hj⟩ | ⟨err, he, -⟩ <;>
      simp only [ORTree.call, ORTree.merge, he] at hcall <;> cases hcall
    · exact hjoined hj
    · exact h
  | install d =>
    rcases install_cases t d millis with ⟨u, he, hi⟩ | ⟨err, he⟩ <;>
      simp only [ORTree.call, he] at hcall <;> cases hcall
    · exact h.moves hc.version hi.moves (h.toFormed.installed (hd d rfl) hi)
    · exact h
  | compactTombstones tags =>
    rcases compactTombstones_cases t tags with ⟨compact, he⟩ | ⟨err, he⟩ <;>
      simp only [ORTree.call, he] at hcall <;> cases hcall
    · exact hdrop compact
    · exact h
  | compactEligibleTombstones tags =>
    rcases compactEligibleTombstones_cases t tags with ⟨compact, he⟩ | ⟨err, he⟩ <;>
      simp only [ORTree.call, he] at hcall <;> cases hcall
    · exact hdrop compact
    · exact h
  | visibleNodes =>
    simp only [ORTree.call, h.visibleNodes_eq hids] at hcall
    cases hcall
    exact ⟨⟨h.replicaID, h.nodes, h.tombstones⟩, h.countLe, h.count, le_rfl, fun _ => hids⟩
  | state =>
    simp only [ORTree.call, h.state_eq hcount] at hcall
    cases hcall
    exact ⟨⟨h.replicaID, h.nodes, h.tombstones⟩, le_rfl, fun _ => hcount, h.idsLe, h.ids⟩

theorem Reachable.sound (h : Reachable t) : Sound t := by
  induction h with
  | fresh hnew => exact sound_fresh hnew
  | call _ hd hc hcall ih => exact ih.call hd hc hcall

end Crdt.Tree
