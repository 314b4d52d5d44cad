import Crdt.Clock.Hlc

/-! The observed-remove set.

Every add of an element takes a tag of its own; a remove tombstones the tags that the replica
sees. The elements are of an arbitrary type; its order only stands for the order in which Go
ranges over a map. `joinState` works in place: it takes over the tombstones, then the adds, and
sweeps the destination only if there were tombstones to take. Whatever the path, a join leaves
the live tags of both sides that no side has removed (`joinState_spec`). -/
namespace Crdt.OrSet

open Clock List Std.ExtTreeSet

variable {T : Type} [LinearOrder T]

/-- The live tags of every element. -/
abbrev Adds (T : Type) [LinearOrder T] := Std.ExtTreeMap T TagSet compare

inductive Err
  | invalidCodec
  | codecMismatch
  | invalidDelta
  | invalidFrontier
  | clock (err : Clock.Err)
deriving DecidableEq, Repr

structure ORSetDelta (T : Type) [LinearOrder T] where
  adds : Adds T := ∅
  tombstones : TagSet := ∅

structure ORSet (T : Type) [LinearOrder T] where
  replicaID : List UInt8
  clock : HLC
  codecID : List UInt8
  elements : Adds T := ∅
  tombstones : TagSet := ∅

def newORSetFromClock (clockState : Clock.State) (codecID : List UInt8) : Except Err (ORSet T) :=
  if blank codecID then .error .invalidCodec
  else
    match newHLCFromState clockState with
    | .error err => .error (.clock err)
    | .ok clock => .ok {replicaID := clockState.replicaID, clock, codecID}

/-! ### Checks -/

def validateState (adds : Adds T) (tombstones : TagSet) : Except Err Unit :=
  if !(adds.toList.all fun p => p.2.toList.all Tag.valid) then .error .invalidDelta
  else if !tombstones.toList.all Tag.valid then .error .invalidDelta
  else .ok ()

/-- Add tags to those seen so far; `none` if one of them was seen before. -/
def seeTags : List Tag → TagSet → Option TagSet
  | [], seen => some seen
  | tag :: rest, seen => if seen.contains tag then none else seeTags rest (seen.insert tag)

def seeAdds : List (T × TagSet) → TagSet → Option TagSet
  | [], seen => some seen
  | (_, tags) :: rest, seen => do
    seeAdds rest (← seeTags tags.toList seen)

/-- A delta, but not a state, is also checked for tags that stand in it twice. -/
def validateDeltaState (adds : Adds T) (tombstones : TagSet) : Except Err Unit :=
  match validateState adds tombstones with
  | .error err => .error err
  | .ok () =>
    if adds.size > 1 || (adds.size > 0 && tombstones.size > 0) then
      match (seeAdds adds.toList ∅).bind (seeTags tombstones.toList) with
      | some _ => .ok ()
      | none => .error .invalidDelta
    else .ok ()

def greaterTag (greatest : Option Tag) (tag : Tag) : Option Tag :=
  match greatest with
  | none => some tag
  | some g => if g.compare tag = .lt then some tag else some g

def greatestStateTag (adds : Adds T) (tombstones : TagSet) : Option Tag :=
  tombstones.toList.foldl greaterTag
    (adds.toList.foldl (fun greatest p => p.2.toList.foldl greaterTag greatest) none)

/-! ### Joins -/

def addTag (adds : Adds T) (element : T) (tag : Tag) : Adds T :=
  adds.insert element ((adds[element]?.getD ∅).insert tag)

/-- Take over the tags of one element, except those that are tombstoned. -/
def joinTags (tombstones : TagSet) (element : T) (adds : Adds T) (tags : List Tag) : Adds T :=
  tags.foldl (fun adds tag => if tombstones.contains tag then adds else addTag adds element tag) adds

/-- Drop the tombstoned tags of one element, and the element if none is left. -/
def sweepElement (tombstones : TagSet) (adds : Adds T) (p : T × TagSet) : Adds T :=
  let tags := p.2.filter fun tag => !tombstones.contains tag
  if tags.isEmpty then adds.erase p.1 else adds.insert p.1 tags

def joinState (adds : Adds T) (tombstones : TagSet) (sourceAdds : Adds T) (sourceTombstones : TagSet) :
    Adds T × TagSet :=
  let tombstones := sourceTombstones.toList.foldl (fun s tag => s.insert tag) tombstones
  let adds := sourceAdds.toList.foldl (fun adds p => joinTags tombstones p.1 adds p.2.toList) adds
  if sourceTombstones.size = 0 then (adds, tombstones)
  else (adds.toList.foldl (sweepElement tombstones) adds, tombstones)

def subsumesState (adds : Adds T) (tombstones : TagSet) (sourceAdds : Adds T)
    (sourceTombstones : TagSet) : Bool :=
  sourceTombstones.toList.all tombstones.contains &&
    sourceAdds.toList.all fun p => p.2.toList.all fun tag =>
      tombstones.contains tag || (adds[p.1]?.getD ∅).contains tag

/-- `ORSetDelta.Merge` -/
def ORSetDelta.merge (d other : ORSetDelta T) : Except Err (ORSetDelta T) :=
  match validateDeltaState d.adds d.tombstones with
  | .error err => .error err
  | .ok () =>
    match validateDeltaState other.adds other.tombstones with
    | .error err => .error err
    | .ok () =>
      let (adds, tombstones) := joinState d.adds d.tombstones other.adds other.tombstones
      .ok {adds, tombstones}

namespace ORSet

variable (s : ORSet T)

/-- Take note of the greatest tag of what comes in, then join it. -/
def join (adds : Adds T) (tombstones : TagSet) (millis : Int64) :
    ORSet T × Except Err Unit :=
  let joined (s : ORSet T) : ORSet T :=
    let (elements, tombstones) := joinState s.elements s.tombstones adds tombstones
    {s with elements, tombstones}
  match greatestStateTag adds tombstones with
  | none => (joined s, .ok ())
  | some tag =>
    match s.clock.witness tag millis with
    | (clock, .error err) => ({s with clock}, .error (.clock err))
    | (clock, .ok ()) => (joined {s with clock}, .ok ())

def applyDelta (delta : ORSetDelta T) (millis : Int64) : ORSet T × Except Err Unit :=
  match validateDeltaState delta.adds delta.tombstones with
  | .error err => (s, .error err)
  | .ok () =>
    if subsumesState s.elements s.tombstones delta.adds delta.tombstones then (s, .ok ())
    else s.join delta.adds delta.tombstones millis

/-- `Merge` with another replica. -/
def merge (s other : ORSet T) (millis : Int64) : ORSet T × Except Err Unit :=
  if s.codecID ≠ other.codecID then (s, .error .codecMismatch) else
  match validateState other.elements other.tombstones with
  | .error err => (s, .error err)
  | .ok () =>
    if subsumesState s.elements s.tombstones other.elements other.tombstones then (s, .ok ())
    else s.join other.elements other.tombstones millis

def add (element : T) (millis : Int64) : ORSet T × Except Err (ORSetDelta T) :=
  match s.clock.now millis with
  | (clock, .error err) => ({s with clock}, .error (.clock err))
  | (clock, .ok tag) =>
    let s := {s with clock}
    if s.tombstones.contains tag then (s, .error .invalidDelta)
    else
      ({s with elements := addTag s.elements element tag},
        .ok {adds := (∅ : Adds T).insert element ((∅ : TagSet).insert tag)})

def remove (element : T) : ORSet T × ORSetDelta T :=
  let observed := s.elements[element]?.getD ∅
  if observed.size = 0 then (s, {})
  else
    ({s with
      elements := s.elements.erase element
      tombstones := observed.toList.foldl (fun s tag => s.insert tag) s.tombstones},
      {tombstones := observed})

/-- Forget the tombstones for which `acknowledged` holds. -/
def forget (acknowledged : Tag → Bool) : ORSet T :=
  {s with tombstones := s.tombstones.filter fun tag => !acknowledged tag}

def validFrontier (frontier : List (List UInt8 × Tag)) : Bool :=
  frontier.all fun p => !p.1.isEmpty && p.1 == p.2.replicaID && p.2.valid

/-- `Compact`. The frontier is a map from replica IDs, given by its entries. -/
def compact (stableFrontier : List (List UInt8 × Tag)) : ORSet T × Except Err Nat :=
  if !validFrontier stableFrontier then (s, .error .invalidFrontier)
  else
    let s' := s.forget fun tag => (stableFrontier.lookup tag.replicaID).any fun acknowledged =>
      tag.compare acknowledged != .gt
    (s', .ok (s.tombstones.size - s'.tombstones.size))

def compactTombstones (acknowledged : List Tag) : ORSet T × Except Err Nat :=
  if !acknowledged.all Tag.valid then (s, .error .invalidFrontier)
  else
    let s' := s.forget fun tag => acknowledged.contains tag
    (s', .ok (s.tombstones.size - s'.tombstones.size))

/-- What `UnmarshalBinary` does with a decoded state. -/
def install (adds : Adds T) (tombstones : TagSet) (millis : Int64) :
    ORSet T × Except Err Unit :=
  match greatestStateTag adds tombstones with
  | none => ({s with elements := adds, tombstones}, .ok ())
  | some tag =>
    match s.clock.witness tag millis with
    | (clock, .error err) => ({s with clock}, .error (.clock err))
    | (clock, .ok ()) => ({s with clock, elements := adds, tombstones}, .ok ())

/-- `Contains` -/
def contains (element : T) : Bool := (s.elements[element]?.getD ∅).size > 0

/-- `Elements` -/
def elementList : List T := s.elements.keys

end ORSet

/-! ### What a join leaves -/

/-- `tag` is a live add of `element`. -/
def Live (adds : Adds T) (element : T) (tag : Tag) : Prop := ∃ tags, adds[element]? = some tags ∧ tag ∈ tags

variable {adds sourceAdds : Adds T} {tombstones sourceTombstones : TagSet} {e : T} {t : Tag} {e' : T}
  {tags : List Tag}

theorem live_iff : Live adds e t ↔ t ∈ adds[e]?.getD ∅ := by
  cases h : adds[e]? with
  | none => simp [Live, h]
  | some tags => simp [Live, h]

@[simp] theorem not_live_empty : ¬ Live (∅ : Adds T) e t := by simp [Live]

theorem live_addTag {t' : Tag} : Live (addTag adds e' t') e t ↔ (e' = e ∧ t' = t) ∨ Live adds e t := by
  rw [live_iff, addTag, MapLoop.get?_insert]
  split_ifs with he
  · subst he
    simp [live_iff]
  · simp [he, live_iff]

theorem live_erase : Live (adds.erase e') e t ↔ e' ≠ e ∧ Live adds e t := by
  rw [live_iff, MapLoop.getElem?_erase]
  split_ifs with he
  · simp [he]
  · simp [he, live_iff]

/-- No element is kept without a tag. -/
def NoneEmpty (adds : Adds T) : Prop := ∀ (e : T) (tags : TagSet), adds[e]? = some tags → ∃ t, t ∈ tags

theorem NoneEmpty.addTag (h : NoneEmpty adds) {t' : Tag} : NoneEmpty (addTag adds e' t') := by
  intro e tags he
  rw [OrSet.addTag, MapLoop.get?_insert] at he
  split_ifs at he with hee
  · cases he
    exact ⟨t', TagSet.mem_insert.mpr (.inl rfl)⟩
  · exact h e tags he

theorem NoneEmpty.erase (h : NoneEmpty adds) : NoneEmpty (adds.erase e') := by
  intro e tags he
  rw [MapLoop.getElem?_erase] at he
  split_ifs at he
  exact h e tags he

theorem NoneEmpty.mem_iff (h : NoneEmpty adds) : e ∈ adds ↔ ∃ t, Live adds e t := by
  rw [MapLoop.mem_iff]
  constructor
  · rintro ⟨tags, htags⟩
    obtain ⟨t, ht⟩ := h e tags htags
    exact ⟨t, tags, htags, ht⟩
  · rintro ⟨t, tags, htags, _⟩
    exact ⟨tags, htags⟩

theorem live_joinTags : Live (joinTags tombstones e' adds tags) e t ↔
      Live adds e t ∨ (e' = e ∧ t ∈ tags ∧ t ∉ tombstones) := by
  have hstep : ∀ (adds : Adds T) tag, Live (if tombstones.contains tag then adds else addTag adds e' tag) e t ↔
      Live adds e t ∨ (e' = e ∧ tag ∉ tombstones) ∧ tag = t := by
    intro adds tag
    rw [← Std.ExtTreeSet.contains_iff_mem]
    split_ifs with hc
    · simp [hc]
    · simp [hc, live_addTag, or_comm]
  refine (MapLoop.foldl_iff (P := fun adds : Adds T => Live adds e t) hstep tags adds).trans ?_
  simp only [exists_eq_right_right]
  tauto

theorem NoneEmpty.joinTags (h : NoneEmpty adds) : NoneEmpty (joinTags tombstones e' adds tags) := by
  induction tags generalizing adds with
  | nil => exact h
  | cons tag tags ih =>
    rw [OrSet.joinTags, foldl_cons]
    split_ifs
    · exact ih h
    · exact ih h.addTag

theorem foldl_joinTags (tombstones : TagSet) (l : List (T × TagSet)) (adds : Adds T) :
    (∀ e t, Live (l.foldl (fun adds p => joinTags tombstones p.1 adds p.2.toList) adds) e t ↔
      Live adds e t ∨ ((∃ tags, (e, tags) ∈ l ∧ t ∈ tags) ∧ t ∉ tombstones)) ∧ (NoneEmpty adds →
      NoneEmpty (l.foldl (fun adds p => joinTags tombstones p.1 adds p.2.toList) adds)) := by
  refine ⟨fun e t => ?_, fun h => foldlRecOn l _ h fun _ h _ _ => h.joinTags⟩
  have hstep : ∀ (adds : Adds T) (p : T × TagSet), Live (joinTags tombstones p.1 adds p.2.toList) e t ↔ _ :=
    fun _ _ => live_joinTags
  refine (MapLoop.foldl_iff (P := fun adds : Adds T => Live adds e t) hstep l adds).trans ?_
  simp only [mem_toList]
  refine or_congr_right ⟨?_, fun ⟨⟨tags, hm, ht⟩, hn⟩ => ⟨(e, tags), hm, rfl, ht, hn⟩⟩
  rintro ⟨⟨_, tags⟩, hm, rfl, ht, hn⟩
  exact ⟨⟨tags, hm, ht⟩, hn⟩

theorem sweep_spec : (∀ e t, Live (adds.toList.foldl (sweepElement tombstones) adds) e t ↔
      Live adds e t ∧ t ∉ tombstones) ∧ NoneEmpty (adds.toList.foldl (sweepElement tombstones) adds) := by
  have hswept : ∀ e : T, (adds.toList.foldl (sweepElement tombstones) adds)[e]? =
      adds[e]?.elim adds[e]? fun tags =>
        let tags := tags.filter fun tag => !tombstones.contains tag
        if tags.isEmpty then none else some tags := by
    refine MapLoop.getElem?_foldl_touch (g := fun _ tags _ =>
      let tags := tags.filter fun tag => !tombstones.contains tag
      if tags.isEmpty then none else some tags) (fun acc e tags => ?_) (fun acc e tags a ha => ?_) adds adds
    · simp only [sweepElement]
      split_ifs <;> simp
    simp only [sweepElement]
    split_ifs
    · rw [MapLoop.getElem?_erase, if_neg ha.symm]
    · rw [MapLoop.get?_insert, if_neg ha.symm]
  have hmem : ∀ (tags : TagSet) t, t ∈ tags.filter (fun tag => !tombstones.contains tag) ↔
      t ∈ tags ∧ t ∉ tombstones := by
    intro tags t
    rw [TagSet.mem_filter, Bool.not_eq_true', TagSet.contains_eq_false]
  constructor
  · intro e t
    rw [live_iff, hswept]
    cases he : adds[e]? with
    | none => simp [Live, he]
    | some tags =>
      simp only [Live, he, Option.some.injEq, exists_eq_left', Option.elim_some]
      rw [← hmem]
      split_ifs with hempty
      · rw [Std.ExtTreeSet.isEmpty_iff] at hempty
        simp [hempty]
      · rfl
  intro e tags he
  rw [hswept] at he
  cases hadds : adds[e]? with
  | none => simp [hadds] at he
  | some ts =>
    simp only [hadds, Option.elim_some] at he
    split_ifs at he with hempty
    cases he
    by_contra hnone
    refine hempty (Std.ExtTreeSet.isEmpty_iff.mpr (ext_mem fun t => ?_))
    exact iff_of_false (fun ht => hnone ⟨t, ht⟩) (by simp)

/-- Live tags and tombstones have nothing in common. -/
def Apart (adds : Adds T) (tombstones : TagSet) : Prop := ∀ e t, Live adds e t → t ∉ tombstones

/-- `adds'` and `tombstones'` are what is left of two states when each removes what it has
tombstoned. -/
structure Joins (adds : Adds T) (tombstones : TagSet) (sourceAdds : Adds T) (sourceTombstones : TagSet)
    (adds' : Adds T) (tombstones' : TagSet) : Prop where
  tombstones : ∀ t, t ∈ tombstones' ↔ t ∈ tombstones ∨ t ∈ sourceTombstones
  live : ∀ e t, Live adds' e t ↔ (Live adds e t ∨ Live sourceAdds e t) ∧ t ∉ tombstones'
  noneEmpty : NoneEmpty adds → NoneEmpty adds'

theorem joinState_spec (h : Apart adds tombstones) : Joins adds tombstones sourceAdds sourceTombstones
      (joinState adds tombstones sourceAdds sourceTombstones).1
      (joinState adds tombstones sourceAdds sourceTombstones).2 := by
  unfold joinState
  obtain ⟨tombs, htombs⟩ : ∃ tombs, tombs =
    sourceTombstones.toList.foldl (fun s tag => s.insert tag) tombstones := ⟨_, rfl⟩
  have hmem : ∀ t, t ∈ tombs ↔ t ∈ tombstones ∨ t ∈ sourceTombstones := by
    intro t
    rw [htombs, TagSet.mem_foldl_insert, mem_toList, or_comm]
  obtain ⟨hlive, hne⟩ := foldl_joinTags tombs sourceAdds.toList adds
  have hlive' : ∀ e t, Live (sourceAdds.toList.foldl (fun adds p => joinTags tombs p.1 adds
      p.2.toList) adds) e t ↔ Live adds e t ∨ (Live sourceAdds e t ∧ t ∉ tombs) := by
    intro e t
    rw [hlive]
    simp only [MapLoop.mem_toList, Live]
  simp only [← htombs]
  split_ifs with hsize
  · -- no tombstones came in, so those of the destination need no sweep
    have hsame : ∀ t, t ∈ tombs ↔ t ∈ tombstones := by
      intro t
      rw [hmem, Std.ExtTreeSet.eq_empty_iff_size_eq_zero.mpr hsize]
      simp
    refine ⟨hmem, fun e t => ?_, hne⟩
    rw [hlive']
    constructor
    · rintro (hl | ⟨hl, hn⟩)
      · exact ⟨.inl hl, fun hm => h e t hl ((hsame t).mp hm)⟩
      · exact ⟨.inr hl, hn⟩
    rintro ⟨hl | hl, hn⟩
    · exact .inl hl
    · exact .inr ⟨hl, hn⟩
  · refine ⟨hmem, fun e t => ?_, fun _ => sweep_spec.2⟩
    rw [sweep_spec.1, hlive']
    tauto

/-- A join that is skipped would have changed nothing. -/
theorem subsumesState_spec (h : Apart adds tombstones)
    (hs : subsumesState adds tombstones sourceAdds sourceTombstones = true) :
    Joins adds tombstones sourceAdds sourceTombstones adds tombstones := by
  simp only [subsumesState, Bool.and_eq_true, all_eq_true, mem_toList,
    Std.ExtTreeSet.contains_iff_mem, Bool.or_eq_true] at hs
  obtain ⟨htombs, hadds⟩ := hs
  refine ⟨fun t => ?_, fun e t => ?_, fun hne => hne⟩
  · exact ⟨.inl, fun ht => ht.elim id (htombs t)⟩
  constructor
  · exact fun hl => ⟨.inl hl, h e t hl⟩
  rintro ⟨hl | ⟨tags, htags, ht⟩, hn⟩
  · exact hl
  · exact live_iff.mpr ((hadds (e, tags) (MapLoop.mem_toList.mpr htags) t ht).resolve_left hn)

end Crdt.OrSet
