import Crdt.Tag

/-! The tombstone collection coordinator.

Members of the current view report the tombstones they have; the coordinator retains the reports
of each of them and, beside them, a count for every tag and the number of all retained records. A
tag is stable if its count is the number of members. The counts are never recomputed: a report
adds one for each tag it has not had before, a prune deletes the counts with the records, and a
new view starts from nothing. -/
namespace Crdt.Gc

open MapLoop

abbrev Member := List UInt8

/-- A Go map from strings to empty structs. -/
abbrev MemberSet := Std.ExtTreeSet Member compare

inductive Err
  | invalidMembership
  | invalidGroup
  | groupMismatch
  | unknownMember
  | staleMembership
  | invalidTag
  | membershipGroupMismatch
  | membershipRollback
deriving DecidableEq, Repr

structure Membership where
  groupID : List UInt8
  epoch : UInt64
  members : List Member
deriving DecidableEq, Repr

structure Coordinator where
  groupID : List UInt8
  epoch : UInt64
  members : MemberSet
  acknowledgements : ByteMap TagSet := ∅
  acknowledgementCounts : TagMap Nat := ∅
  acknowledgementEntries : Int := 0

def validateTombstones (tombstones : List Tag) : Except Err Unit :=
  if tombstones.all Tag.valid then .ok () else .error .invalidTag

/-- The loop of `validateMembers`. -/
def addMembers : List Member → MemberSet → Except Err MemberSet
  | [], memberSet => .ok memberSet
  | member :: rest, memberSet =>
    if blank member || memberSet.contains member then .error .invalidMembership
    else addMembers rest (memberSet.insert member)

def validateMembers (members : List Member) : Except Err MemberSet :=
  if members.isEmpty then .error .invalidMembership else addMembers members ∅

def newCoordinator (groupID : List UInt8) (members : List Member) : Except Err Coordinator :=
  if blank groupID then .error .invalidGroup
  else
    match validateMembers members with
    | .error err => .error err
    | .ok members => .ok {groupID, epoch := 1, members}

def newCoordinatorAtMembership (membership : Membership) : Except Err Coordinator :=
  if membership.epoch = 0 then .error .invalidMembership
  else if membership.groupID = [] then .error .invalidGroup
  else
    match validateMembers membership.members with
    | .error err => .error err
    | .ok members => .ok {groupID := membership.groupID, epoch := membership.epoch, members}

def sameMembers (left right : MemberSet) : Bool :=
  left.size = right.size && left.toList.all right.contains

namespace Coordinator

variable (c : Coordinator)

/-- The tags that a member has acknowledged and that are still retained. -/
def retained (member : Member) : TagSet := c.acknowledgements[member]?.getD ∅

/-- A new view: the reports of the old one are gone. -/
def view (epoch : UInt64) (members : MemberSet) : Coordinator :=
  {groupID := c.groupID, epoch, members}

def replaceMembership (members : List Member) : Coordinator × Except Err Membership :=
  match validateMembers members with
  | .error err => (c, .error err)
  | .ok memberSet =>
    if c.epoch = 0xFFFFFFFFFFFFFFFF then (c, .error .invalidMembership)
    else (c.view (c.epoch + 1) memberSet, .ok ⟨c.groupID, c.epoch + 1, memberSet.toList⟩)

def installMembership (membership : Membership) : Coordinator × Except Err Unit :=
  if membership.epoch = 0 then (c, .error .invalidMembership)
  else
    match validateMembers membership.members with
    | .error err => (c, .error err)
    | .ok members =>
      if membership.groupID ≠ c.groupID then (c, .error .membershipGroupMismatch)
      else if membership.epoch < c.epoch then (c, .error .membershipRollback)
      else if membership.epoch = c.epoch then
        if sameMembers c.members members then (c, .ok ()) else (c, .error .membershipRollback)
      else (c.view membership.epoch members, .ok ())

/-- Record one tag of one member, once. -/
def acknowledgeTag (member : Member) (c : Coordinator) (tag : Tag) : Coordinator :=
  if (c.retained member).contains tag then c
  else {c with
    acknowledgements := c.acknowledgements.insert member ((c.retained member).insert tag)
    acknowledgementCounts :=
      c.acknowledgementCounts.insert tag (c.acknowledgementCounts[tag]?.getD 0 + 1)
    acknowledgementEntries := c.acknowledgementEntries + 1}

def acknowledgeLocked (groupID : List UInt8) (member : Member) (epoch : UInt64)
    (tombstones : List Tag) : Coordinator × Except Err Unit :=
  if groupID ≠ c.groupID then (c, .error .groupMismatch)
  else if epoch ≠ c.epoch then (c, .error .staleMembership)
  else if !c.members.contains member then (c, .error .unknownMember)
  else
    let c := {c with acknowledgements := c.acknowledgements.insert member (c.retained member)}
    (tombstones.foldl (acknowledgeTag member) c, .ok ())

def acknowledge (groupID : List UInt8) (member : Member) (epoch : UInt64)
    (tombstones : List Tag) : Coordinator × Except Err Unit :=
  match validateTombstones tombstones with
  | .error err => (c, .error err)
  | .ok () => c.acknowledgeLocked groupID member epoch tombstones

/-- Whether tags are exactly those that have a count. -/
def prunesAllAcknowledgementTagsLocked (tags : List Tag) : Bool :=
  !(tags.length < c.acknowledgementCounts.size) &&
    tags.all c.acknowledgementCounts.contains &&
    (tags.foldl (fun seen tag => seen.insert tag) (∅ : TagSet)).size = c.acknowledgementCounts.size

/-- Delete a tag from the records of one member. -/
def pruneMember (tag : Tag) (acc : ByteMap TagSet × Int) (p : Member × TagSet) : ByteMap TagSet × Int :=
  if p.2.contains tag then (acc.1.insert p.1 (p.2.erase tag), acc.2 + 1) else acc

/-- Delete a tag from the records of all members, and its count. -/
def pruneTag (acc : Coordinator × Int) (tag : Tag) : Coordinator × Int :=
  let swept := acc.1.acknowledgements.toList.foldl (pruneMember tag) (acc.1.acknowledgements, acc.2)
  ({acc.1 with
    acknowledgements := swept.1
    acknowledgementCounts := acc.1.acknowledgementCounts.erase tag}, swept.2)

def pruneAcknowledgements (groupID : List UInt8) (epoch : UInt64) (tags : List Tag) :
    Coordinator × Except Err Int :=
  match validateTombstones tags with
  | .error err => (c, .error err)
  | .ok () =>
    if groupID ≠ c.groupID then (c, .error .groupMismatch)
    else if epoch ≠ c.epoch then (c, .error .staleMembership)
    else if c.prunesAllAcknowledgementTagsLocked tags then
      ({c with acknowledgements := ∅, acknowledgementCounts := ∅, acknowledgementEntries := 0},
        .ok c.acknowledgementEntries)
    else
      let (c, removed) := tags.foldl pruneTag (c, 0)
      ({c with acknowledgementEntries := c.acknowledgementEntries - removed}, .ok removed)

def stableTombstonesLocked (candidates : List Tag) : List Tag :=
  candidates.filter fun tag => c.acknowledgementCounts[tag]?.getD 0 = c.members.size

end Coordinator

end Crdt.Gc
