import Crdt.Rga.Traversal
import Crdt.Text.Compact
import Crdt.Text.Converge

/-! The index in every reachable state.

A replica changes through deltas, through the installation of decoded states and through
compaction, and an edit moves its clock. `Reachable` are the states such calls lead to,
whether they succeed or fail, and `Reachable.inv` carries the invariant through all of
them: the treap, the linked list and the depth-first marks of the integrated forest are
one sequence. -/
namespace Crdt.Text

open Clock Rga Sequence Forest

/-! ### Installing a state -/

/-- Replace what the replica has by a decoded complete state. -/
def RGA.installState (r : RGA) (nodes : TagMap (Node Rune)) (tombstones : TagSet) (millis : Int64) :
    Option (RGA × Except Err Unit) :=
  if nodes.size > r.options.maxNodes ∨ tombstones.size > r.options.maxTombstones then
    some (r, .error .resourceLimit)
  else do
    match ← buildSequence package nodes tombstones with
    | none => return (r, .error .invalidDelta)
    | some (sequence, children) =>
      match r.witnessGreatest {nodes, tombstones} millis with
      | (r, .error err) => return (r, .error err)
      | (r, .ok ()) =>
        return ({r with
          nodes, tombstones, pending := ∅, waitingByParent := ∅, pendingBytes := 0, sequence, children
          version := r.version + 1}, .ok ())

/-- What a successful installation does. -/
structure Installed (r r' : RGA) (nodes : TagMap (Node Rune)) (tombstones : TagSet) : Prop where
  inv : r'.Inv
  nodes : r'.nodes = nodes
  tombstones : r'.tombstones = tombstones
  pending : r'.pending = ∅
  options : r'.options = r.options

variable {nodes : TagMap (Node Rune)} {tombstones : TagSet} {millis : Int64} {r r' : RGA}

theorem installState_cases
    {res : Except Err Unit} (h : r.installState nodes tombstones millis = some (r', res)) :
    (∃ err, res = .error err) ∧ r' = r ∨ res = .ok () ∧ nodes.size ≤ r.options.maxNodes ∧
      tombstones.size ≤ r.options.maxTombstones ∧ ∃ clock sequence children,
        r.witnessGreatest {nodes, tombstones} millis = ({r with clock}, .ok ()) ∧ r' = {r with
          clock, nodes, tombstones, pending := ∅, waitingByParent := ∅, pendingBytes := 0, sequence, children
          version := r.version + 1} := by
  unfold RGA.installState at h
  split_ifs at h with hlimit
  · cases h
    exact .inl ⟨⟨_, rfl⟩, rfl⟩
  rw [not_or, not_lt, not_lt] at hlimit
  obtain ⟨built, -, h⟩ := Option.bind_eq_some_iff.mp h
  split at h
  · cases h
    exact .inl ⟨⟨_, rfl⟩, rfl⟩
  rcases witnessGreatest_spec r {nodes, tombstones} millis with ⟨clock, hw⟩ | ⟨err, hw⟩
  · rw [hw] at h
    cases h
    exact .inr ⟨rfl, hlimit.1, hlimit.2, clock, _, _, hw, rfl⟩
  rw [hw] at h
  cases h
  exact .inl ⟨⟨_, rfl⟩, rfl⟩

theorem installState_spec (r : RGA) (hv : Delta.Valid {nodes, tombstones}) (millis : Int64) :
    ∃ r' res, r.installState nodes tombstones millis = some (r', res) ∧
      (res = .ok () ∧ Installed r r' nodes tombstones ∨ (∃ err, res = .error err) ∧ r' = r) := by
  unfold RGA.installState
  split_ifs
  · exact ⟨r, _, rfl, .inr ⟨⟨_, rfl⟩, rfl⟩⟩
  obtain ⟨res, hbuild, _, hix⟩ := buildSequence_spec package nodes (fun x hx => by
      obtain ⟨item, hitem⟩ := MapLoop.mem_iff.mp hx
      exact (hv.nodes.valid x item hitem).1) tombstones
  rw [hbuild]
  rcases res with _ | ⟨s, ch⟩
  · exact ⟨r, _, rfl, .inr ⟨⟨_, rfl⟩, rfl⟩⟩
  rcases witnessGreatest_spec r {nodes, tombstones} millis with ⟨clock, hw⟩ | ⟨err, hw⟩
  · simp only [hw]
    refine ⟨_, _, rfl, .inl ⟨rfl, ⟨hix s ch rfl, ?_⟩, rfl, rfl, rfl, rfl⟩⟩
    refine ⟨by simp, by simp, fun p x => ?_, by simp⟩
    simp [parentOf]
  · simp only [hw]
    exact ⟨r, _, rfl, .inr ⟨⟨_, rfl⟩, rfl⟩⟩

theorem settled_of_empty {r : Replica Rune} (h : r.pending = ∅) : r.Settled := fun x p hx => by
  rw [h] at hx
  simp [parentOf] at hx

/-! ### Reachable states -/

/-- The states of a replica. A decoder hands over only nodes and tombstones that pass the
checks on a delta, and an edit moves the clock in one of the `moves` before its delta is applied. -/
inductive Reachable (moves : HLC → HLC → Prop) : RGA → Prop
  | new {state : Clock.State} {options : Options} {r : RGA} :
      newFromClockWithOptions state options = some (.ok r) → Reachable moves r
  | tick {r : RGA} {clock : HLC} : Reachable moves r → moves r.clock clock → Reachable moves {r with clock}
  | applyDelta {r r' : RGA} {delta : Delta} {millis : Int64} {res : Except Err Unit} :
      Reachable moves r → r.applyDelta delta millis = some (r', res) → Reachable moves r'
  | installState {r r' : RGA} {nodes : TagMap (Node Rune)} {tombstones : TagSet} {millis : Int64}
      {res : Except Err Unit} : Reachable moves r → validateDelta {nodes, tombstones} = .ok () →
      r.installState nodes tombstones millis = some (r', res) → Reachable moves r'
  | compactTombstones {r r' : RGA} {tags : List Position} {res : Except Err Nat} :
      Reachable moves r → r.compactTombstones tags = some (r', res) → Reachable moves r'
  | compactEligibleTombstones {r r' : RGA} {tags : List Position} {res : Except Err Nat} :
      Reachable moves r → r.compactEligibleTombstones tags = some (r', res) → Reachable moves r'

/-- Wherever its edits move the clock. -/
abbrev Live : RGA → Prop := Reachable fun _ _ => True

section Calls
variable {r r' : RGA} {tags : List Position}

variable (h : r.Inv ∧ r.Settled) {res : Except Err Unit} {millis : Int64}
include h

theorem inv_of_applyDelta {delta : Delta}
    (happ : r.applyDelta delta millis = some (r', res)) : r'.Inv ∧ r'.Settled := by
  rcases ends_of_run (applyDelta_spec h.1 h.2 delta millis) happ with ⟨_, ha⟩ | ⟨_, rfl⟩
  · exact ⟨ha.joins.inv, ha.joins.settled⟩
  · exact h

theorem inv_of_installState (hv : validateDelta {nodes, tombstones} = .ok ())
    (happ : r.installState nodes tombstones millis = some (r', res)) : r'.Inv ∧ r'.Settled := by
  rcases ends_of_run (installState_spec r (validateDelta_eq_ok.mp hv) millis) happ with ⟨_, hi⟩ | ⟨_, rfl⟩
  · exact ⟨hi.inv, settled_of_empty hi.pending⟩
  · exact h

variable {res : Except Err Nat}

theorem inv_of_compactTombstones
    (happ : r.compactTombstones tags = some (r', res)) : r'.Inv ∧ r'.Settled := by
  rcases ends_of_run (compactTombstones_spec h.1 tags) happ with ⟨_, _, hc⟩ | ⟨_, rfl⟩
  · exact ⟨hc.inv, hc.settled⟩
  · exact h

theorem inv_of_compactEligibleTombstones
    (happ : r.compactEligibleTombstones tags = some (r', res)) : r'.Inv ∧ r'.Settled := by
  rcases ends_of_run (compactEligibleTombstones_spec h.1 h.2 tags) happ with ⟨_, _, hc⟩ | ⟨_, rfl⟩
  · exact ⟨hc.inv, hc.settled⟩
  · exact h

end Calls

variable {r : RGA} {ds : List Delta} {moves : HLC → HLC → Prop}

theorem Reachable.inv (h : Reachable moves r) : r.Inv ∧ r.Settled := by
  induction h with
  | new hnew =>
    have hh := newFromClockWithOptions_spec hnew
    exact ⟨hh.inv, hh.settled⟩
  | tick _ _ ih => exact ih
  | applyDelta _ happ ih => exact inv_of_applyDelta ih happ
  | installState _ hv happ ih => exact inv_of_installState ih hv happ
  | compactTombstones _ happ ih => exact inv_of_compactTombstones ih happ
  | compactEligibleTombstones _ happ ih => exact inv_of_compactEligibleTombstones ih happ

/-! ### One sequence -/

/-- The three structures of an index are the sequence `l`, which carries the marks of the
forest, and its caches are exact. -/
structure OneSequence (r : RGA) (l : List MarkerRef) (t : BinaryTree MarkerRef) : Prop where
  root : r.sequence.root = t.top
  inorder : t.inorder = l
  linked : Linked r.sequence.markers none t
  counted : Counted r.sequence.markers t
  chain : Chain r.sequence.markers none l none
  marks : l.map r.sequence.label = marksOf r.nodes
  visible : ∀ m ∈ l, (r.sequence.markers m).visible = true ↔
    m.side = .entry ∧ r.sequence.position m.pair ≠ .zero ∧ r.sequence.position m.pair ∉ r.tombstones

theorem oneSequence_of_inv (h : r.Inv) : ∃ l t, OneSequence r l t := by
  obtain ⟨l, hl⟩ := h.indexed.holds
  obtain ⟨t, ht, hin, hroot⟩ := hl.rep.tree
  refine ⟨l, t, hroot, hin, ht.linked, ht.counted, hl.rep.chain, hl.labels, fun m hm => ?_⟩
  rw [hl.visible m hm]
  simp only [shown, Bool.and_eq_true, beq_iff_eq, decide_eq_true_eq, Bool.not_eq_true',
    TagSet.contains_eq_false]

/-- The marks before a position are those of the positions before it. -/
theorem visibleRank_traversal (h : r.Inv) {p : Position} (hp : p ∈ r.nodes) :
    ∃ pair before after, r.sequence.pair p = some pair ∧ traversal r.nodes = before ++ p :: after ∧
      visibleRank r.sequence.fuel r.sequence.markers ⟨pair, .entry⟩ =
        some (before.filter (shown r.tombstones)).length := by
  obtain ⟨l, hl⟩ := h.indexed.holds
  have henter : .enter p ∈ marksOf r.nodes := h.indexed.forested.enter_mem_marksOf.mpr (.inr hp)
  obtain ⟨pair, hpair⟩ := hl.exists_pair_iff.mpr henter
  obtain ⟨mb, ma, hm⟩ := List.append_of_mem henter
  refine ⟨pair, mb.filterMap Mark.entered, ma.filterMap Mark.entered, hpair, ?_, ?_⟩
  · rw [traversal_eq, hm, List.filterMap_append]
    rfl
  · rw [hl.visibleRank hpair hm, SequenceIndex.visibleOf_eq_filter]

/-- Sequence index refinement. In every reachable state the in-order traversal of the
treap, the linked list and the depth-first marks of the integrated forest are one
sequence with exact caches; so the queries read the projection of the forest. -/
theorem index_refines_forest {r : RGA} (h : Live r) :
    (∃ l t, OneSequence r l t) ∧ (traversal r.nodes).Nodup ∧
      r.positions = some (projection r.nodes r.tombstones) ∧
      r.len = (projection r.nodes r.tombstones).length ∧
      (∀ k : Nat, r.sequence.visibleAt k = some (projection r.nodes r.tombstones)[k]?) ∧
      ∀ p ∈ r.nodes, ∃ pair before after, r.sequence.pair p = some pair ∧
        traversal r.nodes = before ++ p :: after ∧
        visibleRank r.sequence.fuel r.sequence.markers ⟨pair, .entry⟩ =
          some (before.filter (shown r.tombstones)).length := by
  obtain ⟨hinv, _⟩ := h.inv
  obtain ⟨l, hl⟩ := hinv.indexed.holds
  have hproj : SequenceIndex.visibleOf (shown r.tombstones) (marksOf r.nodes) =
      projection r.nodes r.tombstones := SequenceIndex.visibleOf_eq_preorder ..
  refine ⟨oneSequence_of_inv hinv, nodup_traversal hinv.indexed.forested, visiblePositions_spec hinv,
    ?_, fun k => ?_, fun p hp => visibleRank_traversal hinv hp⟩
  · rw [RGA.len, hl.visibleCount, hproj]
  · rw [hl.visibleAt, hproj]
    simp

theorem reachable_newWith {replicaID : List UInt8} (h : newWith replicaID ds = some r) : Reachable moves r :=
  newWith_induct (P := fun _ => Reachable moves) .new .applyDelta h

/-- A chain of three whose last two nodes are tombstoned, after compaction: one node. -/
theorem index_refines_forest_compacted :
    let a : Tag := ⟨[1], 5, 0⟩
    let b : Tag := ⟨[1], 6, 0⟩
    let c : Tag := ⟨[1], 7, 0⟩
    let d : Delta :=
      { nodes := (((∅ : TagMap (Node Rune)).insert a ⟨.zero, 97⟩).insert b ⟨a, 98⟩).insert c ⟨b, 99⟩
        tombstones := ((∅ : TagSet).insert b).insert c }
    ∃ r r', newWith [7] [d] = some r ∧ Live r ∧ r.compactEligibleTombstones [b, c] = some (r', .ok 2) ∧
      r'.positions = some [a] ∧ (∃ l t, OneSequence r' l t) := by
  intro a b c d
  have h : ((newWith [7] [d]).bind fun r => (r.compactEligibleTombstones [b, c]).bind fun p =>
      if p.2.toOption = some 2 then p.1.positions else none) = some [a] := by decide +kernel
  obtain ⟨r, hr, h⟩ := Option.bind_eq_some_iff.mp h
  obtain ⟨⟨r', res⟩, hc, h⟩ := Option.bind_eq_some_iff.mp h
  split_ifs at h with hn
  rcases res with err | n
  · cases hn
  cases hn
  have hlive : Live r := reachable_newWith hr
  exact ⟨r, r', hr, hlive, hc, h, (index_refines_forest (hlive.compactEligibleTombstones hc)).1⟩

end Crdt.Text
