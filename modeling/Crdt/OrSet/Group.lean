import Crdt.Gc.Coordinator
import Crdt.OrSet.State

/-! A group of OR-Sets whose tombstones are collected.

The members of the group add and remove, merge each other's state, and deliver each other's deltas.
A member reports the tombstones it has; a report reaches the coordinator some time later, once, more
than once or never, and may collect the tombstones of another member. The group also records the
tags that were issued, with their elements, the tags that were collected, and how many deltas
were made before the last collection: those are retired. -/
namespace Crdt.OrSet

open Clock Gc

variable {ι T : Type} [DecidableEq ι] [LinearOrder T]

/-- `TombstoneTags` -/
def ORSet.tombstoneTags (s : ORSet T) : List Tag := s.tombstones.toList

inductive CollectErr
  | coordinator (err : Gc.Err)
  | target (err : Err)
deriving DecidableEq, Repr

/-- `AcknowledgeAndCompactTarget`, which is also `AcknowledgeAndCompact`, for an OR-Set. -/
def acknowledgeAndCompactTarget (c : Coordinator) (groupID : List UInt8) (member : Member) (epoch : UInt64)
    (tombstones : List Tag) (target : ORSet T) : Coordinator × ORSet T × Except CollectErr Nat :=
  match validateTombstones tombstones with
  | .error err => (c, target, .error (.coordinator err))
  | .ok () =>
    let candidates := target.tombstoneTags
    match c.acknowledgeLocked groupID member epoch tombstones with
    | (c, .error err) => (c, target, .error (.coordinator err))
    | (c, .ok ()) =>
      match target.compactTombstones (c.stableTombstonesLocked candidates) with
      | (target, .error err) => (c, target, .error (.target err))
      | (target, .ok removed) => (c, target, .ok removed)

structure Group (ι T : Type) [LinearOrder T] where
  name : ι → Member
  sets : ι → ORSet T
  coordinator : Coordinator
  /-- Every delta that an add or a remove has returned. -/
  deltas : List (ORSetDelta T) := []
  /-- As many of them are older than the last collection. -/
  retired : Nat := 0
  reports : List (ι × List Tag) := []
  issued : List (T × Tag) := []
  collected : List Tag := []

inductive Call (ι T : Type)
  | add (i : ι) (element : T) (millis : Int64)
  | remove (i : ι) (element : T)
  | merge (i j : ι) (millis : Int64)
  /-- `ApplyDelta` of the delta with this number. -/
  | deliver (i : ι) (n : Nat) (millis : Int64)
  | report (i : ι)
  /-- `Acknowledge` of the report with this number. -/
  | acknowledge (n : Nat)
  /-- `AcknowledgeAndCompactTarget` of the report with this number. -/
  | collect (n : Nat) (target : ι)
  | prune (tags : List Tag)
deriving DecidableEq, Repr

def Call.collects : Call ι T → Bool
  | .collect _ _ => true
  | _ => false

/-- The physical reading of the call, if there is one. -/
def Call.millis : Call ι T → Int64
  | .add _ _ millis | .merge _ _ millis | .deliver _ _ millis => millis
  | _ => 0

/-- The error of a call. -/
def errorOf {ε α : Type} : Except ε α → Option ε
  | .ok _ => none
  | .error err => some err

namespace Group

def put (g : Group ι T) (i : ι) (s : ORSet T) : Group ι T := {g with sets := Function.update g.sets i s}

/-- One call, and the error that its OR-Set returned. -/
def step (g : Group ι T) : Call ι T → Group ι T × Option Err
  | .add i element millis =>
    match (g.sets i).add element millis with
    | (s, .error err) => (g.put i s, some err)
    | (s, .ok delta) =>
      ({g.put i s with deltas := g.deltas ++ [delta], issued := g.issued ++ [(element, s.clock.tag)]}, none)
  | .remove i element =>
    let (s, delta) := (g.sets i).remove element
    ({g.put i s with deltas := g.deltas ++ [delta]}, none)
  | .merge i j millis =>
    let (s, res) := (g.sets i).merge (g.sets j) millis
    (g.put i s, errorOf res)
  | .deliver i n millis =>
    match g.deltas[n]? with
    | none => (g, none)
    | some delta =>
      let (s, res) := (g.sets i).applyDelta delta millis
      (g.put i s, errorOf res)
  | .report i => ({g with reports := g.reports ++ [(i, (g.sets i).tombstoneTags)]}, none)
  | .acknowledge n =>
    match g.reports[n]? with
    | none => (g, none)
    | some (i, tags) =>
      let c := g.coordinator
      ({g with coordinator := (c.acknowledge c.groupID (g.name i) c.epoch tags).1}, none)
  | .collect n target =>
    match g.reports[n]? with
    | none => (g, none)
    | some (i, tags) =>
      let c := g.coordinator
      let (c, s, _) := acknowledgeAndCompactTarget c c.groupID (g.name i) c.epoch tags (g.sets target)
      let removed := (g.sets target).tombstoneTags.filter fun tag => !s.tombstones.contains tag
      ({g.put target s with
        coordinator := c
        retired := if removed.isEmpty then g.retired else g.deltas.length
        collected := g.collected ++ removed}, none)
  | .prune tags =>
    let c := g.coordinator
    ({g with coordinator := (c.pruneAcknowledgements c.groupID c.epoch tags).1}, none)

/-- A run, with the error of each call. -/
def run (g : Group ι T) : List (Call ι T) → Group ι T × List (Call ι T × Option Err)
  | [] => (g, [])
  | call :: rest =>
    let (g, err) := g.step call
    let (g, outcomes) := g.run rest
    (g, (call, err) :: outcomes)

/-- No delta that was made before a collection is delivered after it. -/
def Disciplined (g : Group ι T) : List (Call ι T) → Prop
  | [] => True
  | call :: rest => (∀ i n millis, call = .deliver i n millis → g.retired ≤ n) ∧ (g.step call).1.Disciplined rest

end Group

/-- The calls of a run without those that collect. -/
def withoutCollection (calls : List (Call ι T)) : List (Call ι T) := calls.filter (!·.collects)

/-- A call that was refused because there is no timestamp left, not because of its reading. -/
def Exhausted (outcome : Call ι T × Option Err) : Prop :=
  outcome.2 = some (.clock .clockExhausted) ∧ 0 ≤ outcome.1.millis

/-- A new coordinator, and a new OR-Set for each of its members, with a replica ID of its own. -/
structure Founded (g : Group ι T) : Prop where
  coordinator : ∃ groupID members, newCoordinator groupID members = .ok g.coordinator
  members : ∀ m, m ∈ g.coordinator.members ↔ ∃ i, g.name i = m
  names : Function.Injective g.name
  sets : ∀ i, ∃ state codecID, newORSetFromClock state codecID = .ok (g.sets i)
  distinct : Function.Injective fun i => (g.sets i).replicaID
  blank : g = {name := g.name, sets := g.sets, coordinator := g.coordinator}

end Crdt.OrSet
