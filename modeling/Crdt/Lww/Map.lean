import Crdt.Lww.Table

/-! The last-writer-wins map.

A map keeps one entry for every key it has heard of, deletions included, and beside the
entries an index from tags to keys. The greater tag wins. A call first makes all its checks,
against the index among others, and then runs through the incoming entries once; every
overwriting takes the old tag out of the index and puts the new one in. -/
namespace Crdt.Lww

open Clock MapLoop

abbrev Key := List UInt8

structure MapEntry where
  tag : Tag
  present : Bool
  value : List UInt8
deriving DecidableEq, Repr

abbrev Entries := ByteMap MapEntry

structure MapOptions where
  maxEntries : Int
  maxKeyBytes : Int
  maxValueBytes : Int
deriving DecidableEq, Repr

def MapOptions.default : MapOptions := ⟨1048576, 1048576, 1048576⟩

def MapOptions.valid (o : MapOptions) : Bool :=
  o.maxEntries > 0 && o.maxKeyBytes > 0 && o.maxValueBytes > 0

structure LwwMap where
  replicaID : List UInt8
  clock : HLC
  options : MapOptions
  entries : Entries := ∅
  tags : TagMap Key := ∅

def newMapFromClockWithOptions (state : Clock.State) (options : MapOptions) : Except Err LwwMap :=
  if !(Tag.valid ⟨state.replicaID, 0, 0⟩) then .error .invalidReplicaID
  else if !options.valid then .error .resourceLimit
  else
    match newHLCFromState state with
    | .error err => .error (.clock err)
    | .ok clock => .ok {replicaID := state.replicaID, clock, options}

/-! ### Checks -/

/-- The loop of `validateMapEntries`; `owners` has the tags met so far. -/
def checkEntries : List (Key × MapEntry) → TagMap Key → Except Err Unit
  | [], _ => .ok ()
  | (key, entry) :: rest, owners =>
    if blank key || !entry.tag.valid || (!entry.present && !entry.value.isEmpty) then
      .error .invalidDelta
    else if (owners[entry.tag]?).any (· ≠ key) then .error .tagConflict
    else checkEntries rest (owners.insert entry.tag key)

def validateMapEntries (entries : Entries) : Except Err Unit := checkEntries entries.toList ∅

def validateMapWrite (key : Key) (value : List UInt8) (present : Bool) (options : MapOptions) :
    Except Err Unit :=
  if blank key || (key.length : Int) > options.maxKeyBytes then .error .invalidKey
  else if present && (value.length : Int) > options.maxValueBytes then .error .resourceLimit
  else .ok ()

def validateMapEntriesWithOptions (entries : Entries) (options : MapOptions) : Except Err Unit :=
  entries.toList.forM fun p => validateMapWrite p.1 p.2.value p.2.present options

def tagsCompatible (tags : TagMap Key) (entries : Entries) : Bool :=
  entries.toList.all fun p => !(tags[p.2.tag]?).any (· ≠ p.1)

/-- One tag for two different writes. -/
def mapEntriesConflict (left right : MapEntry) : Bool :=
  left.tag = right.tag && (left.present ≠ right.present || left.value ≠ right.value)

def mapEntriesSubsumed (existing incoming : Entries) : Bool :=
  incoming.toList.all fun p =>
    match existing[p.1]? with
    | none => false
    | some current => !(current.tag.compare p.2.tag = .lt || mapEntriesConflict current p.2)

def newMapEntries (incoming existing : Entries) : Nat :=
  incoming.toList.countP fun p => !existing.contains p.1

def greatestMapTag (entries : Entries) : Option Tag :=
  entries.toList.foldl (fun greatest p =>
    match greatest with
    | none => some p.2.tag
    | some g => if g.compare p.2.tag = .lt then some p.2.tag else some g) none

/-- An incoming entry replaces the current one. -/
def wins (current : Option MapEntry) (incoming : MapEntry) : Bool :=
  match current with
  | none => true
  | some entry => entry.tag.compare incoming.tag = .lt

/-! ### Calls -/

/-- The entries and the index of a map. -/
abbrev Store := Entries × TagMap Key

/-- Take one entry in if it wins. -/
def takeEntry (store : Store) (p : Key × MapEntry) : Store :=
  let current := store.1[p.1]?
  if wins current p.2 then
    let tags := match current with
      | some entry => store.2.erase entry.tag
      | none => store.2
    (store.1.insert p.1 p.2, tags.insert p.2.tag p.1)
  else store

namespace LwwMap

variable (m : LwwMap)

def applyOwnedMapEntries (entries : Entries) (millis : Int64) :
    LwwMap × Except Err Unit :=
  let taken (m : LwwMap) : LwwMap :=
    let store := entries.toList.foldl takeEntry (m.entries, m.tags)
    {m with entries := store.1, tags := store.2}
  match validateMapEntries entries with
  | .error err => (m, .error err)
  | .ok () =>
  match validateMapEntriesWithOptions entries m.options with
  | .error err => (m, .error err)
  | .ok () =>
  if !tagsCompatible m.tags entries then (m, .error .tagConflict)
  else if entries.toList.any fun p => (m.entries[p.1]?).any (mapEntriesConflict · p.2) then
    (m, .error .tagConflict)
  else if mapEntriesSubsumed m.entries entries then (m, .ok ())
  else if (m.entries.size : Int) + newMapEntries entries m.entries > m.options.maxEntries then
    (m, .error .resourceLimit)
  else
    match greatestMapTag entries with
    | none => (taken m, .ok ())
    | some tag =>
      match m.clock.witness tag millis with
      | (clock, .error err) => ({m with clock}, .error (.clock err))
      | (clock, .ok ()) => (taken {m with clock}, .ok ())

/-- `ApplyDelta`; a delta is its entries. -/
def applyDelta (delta : Entries) (millis : Int64) : LwwMap × Except Err Unit :=
  m.applyOwnedMapEntries delta millis

/-- `Merge` with another map. -/
def merge (m other : LwwMap) (millis : Int64) : LwwMap × Except Err Unit :=
  match validateMapEntries other.entries with
  | .error err => (m, .error err)
  | .ok () => m.applyOwnedMapEntries other.entries millis

def writeDelta (key : Key) (value : List UInt8) (present : Bool) (millis : Int64) :
    LwwMap × Except Err Entries :=
  match validateMapWrite key value present m.options with
  | .error err => (m, .error err)
  | .ok () =>
  if !m.entries.contains key && (m.entries.size : Int) ≥ m.options.maxEntries then
    (m, .error .resourceLimit)
  else
    match m.clock.now millis with
    | (clock, .error err) => ({m with clock}, .error (.clock err))
    | (clock, .ok tag) =>
      let m := {m with clock}
      if (m.tags[tag]?).any (· ≠ key) then (m, .error .tagConflict)
      else
        let incoming : MapEntry := ⟨tag, present, if present then value else []⟩
        let current := m.entries[key]?
        -- the source also deletes the zero tag from the index if the key is new
        let m :=
          if wins current incoming then
            {m with
              entries := m.entries.insert key incoming
              tags := (m.tags.erase ((current.map MapEntry.tag).getD .zero)).insert tag key}
          else m
        (m, .ok ((∅ : Entries).insert key incoming))

def setWithDelta (key : Key) (value : List UInt8) (millis : Int64) :
    LwwMap × Except Err Entries := m.writeDelta key value true millis

def deleteWithDelta (key : Key) (millis : Int64) : LwwMap × Except Err Entries :=
  m.writeDelta key [] false millis

/-- The index that `CompactTombstones` builds; `none` if two keys have one tag. -/
def byTag : List (Key × MapEntry) → TagMap Key → Option (TagMap Key)
  | [], index => some index
  | (key, entry) :: rest, index =>
    if (index[entry.tag]?).any (· ≠ key) then none else byTag rest (index.insert entry.tag key)

/-- The keys to compact; `none` if one of the tags is that of a live entry. -/
def compactKeys (entries : Entries) (index : TagMap Key) : List Tag → TagSet → Option (List Key)
  | [], _ => some []
  | tag :: rest, seen =>
    if seen.contains tag then compactKeys entries index rest seen
    else
      match index[tag]? with
      | none => compactKeys entries index rest (seen.insert tag)
      | some key =>
        if (entries[key]?).any MapEntry.present then none
        else do
          return key :: (← compactKeys entries index rest (seen.insert tag))

def dropKey (store : Store) (key : Key) : Store :=
  (store.1.erase key, store.2.erase (((store.1[key]?).map MapEntry.tag).getD .zero))

def compactTombstones (tags : List Tag) : LwwMap × Except Err Nat :=
  if !tags.all Tag.valid then (m, .error .unsafeCompaction)
  else
    match byTag m.entries.toList ∅ with
    | none => (m, .error .unsafeCompaction)
    | some index =>
      match compactKeys m.entries index tags ∅ with
      | none => (m, .error .unsafeCompaction)
      | some keys =>
        let store := keys.foldl dropKey (m.entries, m.tags)
        ({m with entries := store.1, tags := store.2}, .ok keys.length)

/-- `mapTagIndex` of entries that are valid -/
def tagIndex (entries : Entries) : TagMap Key :=
  entries.toList.foldl (fun tags p => tags.insert p.2.tag p.1) ∅

/-- What `UnmarshalBinary` does with decoded entries. -/
def install (entries : Entries) (millis : Int64) : LwwMap × Except Err Unit :=
  if (entries.size : Int) > m.options.maxEntries then (m, .error .resourceLimit) else
  match validateMapEntriesWithOptions entries m.options with
  | .error err => (m, .error err)
  | .ok () =>
  match validateMapEntries entries with
  | .error err => (m, .error err)
  | .ok () =>
    match greatestMapTag entries with
    | none => ({m with entries, tags := tagIndex entries}, .ok ())
    | some tag =>
      match m.clock.witness tag millis with
      | (clock, .error err) => ({m with clock}, .error (.clock err))
      | (clock, .ok ()) => ({m with clock, entries, tags := tagIndex entries}, .ok ())

end LwwMap

/-- The loop of `MapDelta.Merge`. -/
def mergeEntries : List (Key × MapEntry) → Entries → Except Err Entries
  | [], merged => .ok merged
  | (key, incoming) :: rest, merged =>
    let current := merged[key]?
    if current.any (mapEntriesConflict · incoming) then .error .tagConflict
    else mergeEntries rest (if wins current incoming then merged.insert key incoming else merged)

/-- `MapDelta.Merge` -/
def mergeDeltas (d other : Entries) : Except Err Entries :=
  match validateMapEntries d with
  | .error err => .error err
  | .ok () =>
  match validateMapEntries other with
  | .error err => .error err
  | .ok () =>
  match mergeEntries other.toList d with
  | .error err => .error err
  | .ok merged =>
    match validateMapEntries merged with
    | .error err => .error err
    | .ok () => .ok merged

end Crdt.Lww
