import Crdt.Clock.Hlc

/-! Tables of tagged entries.

The map and the set keep their entries in the same way: one entry for every key they have heard of,
deletions included, and beside the entries an index from tags to keys. The greater tag wins. A call
first makes all its checks, against the index among others, and then runs through the incoming entries
once; every overwriting takes the old tag out of the index and puts the new one in.

What an entry is, when it is malformed and which limits it has to keep is the only difference, and that
is what the `Rules` of a table say. -/
namespace Crdt.Lww

open Clock MapLoop

inductive Err
  | invalidReplicaID
  | invalidKey
  | invalidDelta
  | invalidSetDelta
  | tagConflict
  | resourceLimit
  | unsafeCompaction
  | clock (err : Clock.Err)
deriving DecidableEq, Repr

/-- What tells one kind of table from another. -/
structure Rules (O K E : Type) where
  tag : E → Tag
  present : E → Bool
  malformed : K → E → Bool
  /-- The error for a malformed entry. -/
  invalid : Err
  /-- One tag for two different writes. -/
  conflict : E → E → Bool
  /-- The limits on a single entry. -/
  allow : O → K → E → Except Err Unit
  maxEntries : O → Int
  valid_tag : ∀ {k e}, malformed k e = false → (tag e).valid = true
  conflict_self : ∀ e, conflict e e = false
  tag_of_conflict : ∀ {e e'}, conflict e e' = true → tag e = tag e'

structure Table (O : Type) {K : Type} (cmp : K → K → Ordering) (E : Type) where
  replicaID : List UInt8
  clock : HLC
  options : O
  entries : Std.ExtTreeMap K E cmp := ∅
  tags : TagMap K := ∅

/-- A local write: the entry that it makes of its tag. -/
structure Rules.Write {O K E : Type} (R : Rules O K E) where
  key : K
  entry : Tag → E
  tag_entry : ∀ t, R.tag (entry t) = t
  wellFormed : ∀ o t, t.valid = true → R.allow o key (entry .zero) = .ok () → R.malformed key (entry t) = false

/-- The entries and the index of a table. -/
abbrev Table.Store {K : Type} (cmp : K → K → Ordering) (E : Type) := Std.ExtTreeMap K E cmp × TagMap K

namespace Rules

variable {O K E : Type} {cmp : K → K → Ordering} [Std.TransCmp cmp] [DecidableEq K] (R : Rules O K E)

/-! ### Checks -/

/-- The loop that checks incoming entries; `owners` has the tags met so far. -/
def check : List (K × E) → TagMap K → Except Err Unit
  | [], _ => .ok ()
  | (key, entry) :: rest, owners =>
    if R.malformed key entry then .error R.invalid
    else if (owners[R.tag entry]?).any (· ≠ key) then .error .tagConflict
    else check rest (owners.insert (R.tag entry) key)

def validate (entries : Std.ExtTreeMap K E cmp) : Except Err Unit := R.check entries.toList ∅

def allows (options : O) (entries : Std.ExtTreeMap K E cmp) : Except Err Unit :=
  entries.toList.forM fun p => R.allow options p.1 p.2

def tagsCompatible (tags : TagMap K) (entries : Std.ExtTreeMap K E cmp) : Bool :=
  entries.toList.all fun p => !(tags[R.tag p.2]?).any (· ≠ p.1)

def subsumed (existing incoming : Std.ExtTreeMap K E cmp) : Bool :=
  incoming.toList.all fun p =>
    match existing[p.1]? with
    | none => false
    | some current => !((R.tag current).compare (R.tag p.2) = .lt || R.conflict current p.2)

def newEntries (incoming existing : Std.ExtTreeMap K E cmp) : Nat :=
  incoming.toList.countP fun p => !existing.contains p.1

def greatestTag (entries : Std.ExtTreeMap K E cmp) : Option Tag :=
  entries.toList.foldl (fun greatest p =>
    match greatest with
    | none => some (R.tag p.2)
    | some g => if g.compare (R.tag p.2) = .lt then some (R.tag p.2) else some g) none

/-- An incoming entry replaces the current one. -/
def wins (current : Option E) (incoming : E) : Bool :=
  match current with
  | none => true
  | some entry => (R.tag entry).compare (R.tag incoming) = .lt

/-! ### Calls -/

/-- Take one entry in if it wins. -/
def take (store : Table.Store cmp E) (p : K × E) : Table.Store cmp E :=
  let current := store.1[p.1]?
  if R.wins current p.2 then
    let tags := match current with
      | some entry => store.2.erase (R.tag entry)
      | none => store.2
    (store.1.insert p.1 p.2, tags.insert (R.tag p.2) p.1)
  else store

variable (t : Table O cmp E)

def apply (entries : Std.ExtTreeMap K E cmp) (millis : Int64) :
    Table O cmp E × Except Err Unit :=
  let taken (t : Table O cmp E) : Table O cmp E :=
    let store := entries.toList.foldl R.take (t.entries, t.tags)
    {t with entries := store.1, tags := store.2}
  match R.validate entries with
  | .error err => (t, .error err)
  | .ok () =>
  match R.allows t.options entries with
  | .error err => (t, .error err)
  | .ok () =>
  if !R.tagsCompatible t.tags entries then (t, .error .tagConflict)
  else if entries.toList.any fun p => (t.entries[p.1]?).any (R.conflict · p.2) then (t, .error .tagConflict)
  else if R.subsumed t.entries entries then (t, .ok ())
  else if (t.entries.size : Int) + newEntries entries t.entries > R.maxEntries t.options then
    (t, .error .resourceLimit)
  else
    match R.greatestTag entries with
    | none => (taken t, .ok ())
    | some tag =>
      match t.clock.witness tag millis with
      | (clock, .error err) => ({t with clock}, .error (.clock err))
      | (clock, .ok ()) => (taken {t with clock}, .ok ())

/-- A local write and its delta. -/
def write (w : R.Write) (millis : Int64) :
    Table O cmp E × Except Err (Std.ExtTreeMap K E cmp) :=
  match R.allow t.options w.key (w.entry .zero) with
  | .error err => (t, .error err)
  | .ok () =>
  if !t.entries.contains w.key && (t.entries.size : Int) ≥ R.maxEntries t.options then
    (t, .error .resourceLimit)
  else
    match t.clock.now millis with
    | (clock, .error err) => ({t with clock}, .error (.clock err))
    | (clock, .ok tag) =>
      let t := {t with clock}
      if (t.tags[tag]?).any (· ≠ w.key) then (t, .error .tagConflict)
      else
        let incoming := w.entry tag
        let current := t.entries[w.key]?
        -- the source also deletes the zero tag from the index if the key is new
        let t :=
          if R.wins current incoming then
            {t with
              entries := t.entries.insert w.key incoming
              tags := (t.tags.erase ((current.map R.tag).getD .zero)).insert tag w.key}
          else t
        (t, .ok ((∅ : Std.ExtTreeMap K E cmp).insert w.key incoming))

/-- The index that a compaction builds; `none` if two keys have one tag. -/
def byTag : List (K × E) → TagMap K → Option (TagMap K)
  | [], index => some index
  | (key, entry) :: rest, index =>
    if (index[R.tag entry]?).any (· ≠ key) then none else byTag rest (index.insert (R.tag entry) key)

/-- The keys to compact; `none` if one of the tags is that of a live entry. -/
def compactKeys (entries : Std.ExtTreeMap K E cmp) (index : TagMap K) : List Tag → TagSet → Option (List K)
  | [], _ => some []
  | tag :: rest, seen =>
    if seen.contains tag then compactKeys entries index rest seen
    else
      match index[tag]? with
      | none => compactKeys entries index rest (seen.insert tag)
      | some key =>
        if (entries[key]?).any R.present then none
        else do
          return key :: (← compactKeys entries index rest (seen.insert tag))

def dropKey (store : Table.Store cmp E) (key : K) : Table.Store cmp E :=
  (store.1.erase key, store.2.erase (((store.1[key]?).map R.tag).getD .zero))

def compactTombstones (tags : List Tag) : Table O cmp E × Except Err Nat :=
  if !tags.all Tag.valid then (t, .error .unsafeCompaction)
  else
    match R.byTag t.entries.toList ∅ with
    | none => (t, .error .unsafeCompaction)
    | some index =>
      match R.compactKeys t.entries index tags ∅ with
      | none => (t, .error .unsafeCompaction)
      | some keys =>
        let store := keys.foldl R.dropKey (t.entries, t.tags)
        ({t with entries := store.1, tags := store.2}, .ok keys.length)

/-- The index of entries that are valid. -/
def tagIndex (entries : Std.ExtTreeMap K E cmp) : TagMap K :=
  entries.toList.foldl (fun tags p => tags.insert (R.tag p.2) p.1) ∅

/-- What `UnmarshalBinary` does with decoded entries. -/
def install (entries : Std.ExtTreeMap K E cmp) (millis : Int64) :
    Table O cmp E × Except Err Unit :=
  if (entries.size : Int) > R.maxEntries t.options then (t, .error .resourceLimit) else
  match R.allows t.options entries with
  | .error err => (t, .error err)
  | .ok () =>
  match R.validate entries with
  | .error err => (t, .error err)
  | .ok () =>
    match R.greatestTag entries with
    | none => ({t with entries, tags := R.tagIndex entries}, .ok ())
    | some tag =>
      match t.clock.witness tag millis with
      | (clock, .error err) => ({t with clock}, .error (.clock err))
      | (clock, .ok ()) => ({t with clock, entries, tags := R.tagIndex entries}, .ok ())

/-- The loop over the entries of the other delta. -/
def mergeEntries : List (K × E) → Std.ExtTreeMap K E cmp → Except Err (Std.ExtTreeMap K E cmp)
  | [], merged => .ok merged
  | (key, incoming) :: rest, merged =>
    let current := merged[key]?
    if current.any (R.conflict · incoming) then .error .tagConflict
    else mergeEntries rest (if R.wins current incoming then merged.insert key incoming else merged)

/-- Two deltas in one. -/
def mergeDeltas (d other : Std.ExtTreeMap K E cmp) : Except Err (Std.ExtTreeMap K E cmp) :=
  match R.validate d with
  | .error err => .error err
  | .ok () =>
  match R.validate other with
  | .error err => .error err
  | .ok () =>
  match R.mergeEntries other.toList d with
  | .error err => .error err
  | .ok merged =>
    match R.validate merged with
    | .error err => .error err
    | .ok () => .ok merged

end Rules

/-- A call on a table; a merge with another table applies its entries. -/
inductive Rules.Call {O K E : Type} (R : Rules O K E) (cmp : K → K → Ordering)
  | write (w : R.Write)
  | apply (entries : Std.ExtTreeMap K E cmp)
  | install (entries : Std.ExtTreeMap K E cmp)
  | compactTombstones (tags : List Tag)

def Rules.call {O K E : Type} {cmp : K → K → Ordering} [Std.TransCmp cmp] [DecidableEq K]
    (R : Rules O K E) (t : Table O cmp E) (c : R.Call cmp) (millis : Int64) : Table O cmp E × Except Err Unit :=
  match c with
  | .write w => (R.write t w millis).map id (Except.map fun _ => ())
  | .apply entries => R.apply t entries millis
  | .install entries => R.install t entries millis
  | .compactTombstones tags => (R.compactTombstones t tags).map id (Except.map fun _ => ())

end Crdt.Lww
