import Crdt.Text.Sound

/-! Local edits.

A local insertion takes one tag for every rune from the replica's clock and makes a chain
of them below a position. The clock is ahead of every tag that the replica has seen
(`Sound`), so the chain goes right behind that position (`insertAfter_spec`), which for an
insertion at an offset is the visible position before it (`insertWithPredecessor_spec`).
A deletion takes out the positions it names and no other. -/
namespace Crdt.Text

open Clock Rga Sequence Forest MapLoop Option List

/-- One tag for every rune. The clock is read once for each; `i` counts the readings. -/
def nowChain (millis : Nat → Int64) : Nat → HLC → List Rune → HLC × Except Err (List (Position × Rune))
  | _, clock, [] => (clock, .ok [])
  | i, clock, value :: rest =>
    match clock.now (millis i) with
    | (clock, .error err) => (clock, .error (.clock err))
    | (clock, .ok id) =>
      match nowChain millis (i + 1) clock rest with
      | (clock, .error err) => (clock, .error err)
      | (clock, .ok chain) => (clock, .ok ((id, value) :: chain))

/-- The delta of a chain below `parent`. -/
def chainDelta (parent : Position) (chain : List (Position × Rune)) : Delta where
  nodes := growChain ∅ parent chain
  canonicalNodeIDs :=
    if chain.length ≥ resolvedRunFastPathMinNodes then chain.map Prod.fst else []

namespace RGA

variable (r : RGA)

/-- `prepareInsertWithPredecessor` without limits on the output. A string is its code
points; it is valid UTF-8 if they all are scalar values. -/
def prepareInsertWithPredecessor (offset : Int) (value : List Rune) (millis : Nat → Int64) :
    Option (RGA × Except Err (Delta × Position)) :=
  if offset < 0 then some (r, .error .range)
  else if !value.all validRune then some (r, .error .invalidText)
  else do
    let previous ← r.sequence.visibleAt (offset - 1)
    if offset > r.len then return (r, .error .range)
    let predecessor := previous.getD .zero
    if value = [] then return (r, .ok ({}, predecessor))
    match nowChain millis 0 r.clock value with
    | (clock, .error err) => return ({r with clock}, .error err)
    | (clock, .ok chain) => return ({r with clock}, .ok (chainDelta predecessor chain, predecessor))

def insertWithPredecessor (offset : Int) (value : List Rune) (millis : Nat → Int64) :
    Option (RGA × Except Err (Delta × Position)) := do
  match ← r.prepareInsertWithPredecessor offset value millis with
  | (r, .error err) => return (r, .error err)
  | (r, .ok (delta, predecessor)) =>
    match ← r.applyDelta delta (millis value.length) with
    | (r, .error err) => return (r, .error err)
    | (r, .ok ()) => return (r, .ok ({delta with canonicalNodeIDs := []}, predecessor))

/-- Insert behind a retained position, which may be deleted. -/
def insertAfter (predecessor : Position) (value : List Rune) (millis : Nat → Int64) :
    Option (RGA × Except Err Delta) :=
  if !value.all validRune then some (r, .error .invalidText) else
  match nowChain millis 0 r.clock value with
  | (clock, .error err) => some ({r with clock}, .error err)
  | (clock, .ok chain) =>
    let r := {r with clock}
    let delta := chainDelta predecessor chain
    if predecessor.valid && !r.hasIntegratedPosition predecessor then
      some (r, .error .undoAnchorGone)
    else do
      match ← r.applyDeltaLocked delta (millis value.length) with
      | (r, .error err) => return (r, .error err)
      | (r, .ok ()) => return (r, .ok {delta with canonicalNodeIDs := []})

/-- The visible positions from an offset on; the inner `none` is an offset out of range. -/
def visibleRun (r : RGA) (offset : Int) : Nat → Option (Option (List Position))
  | 0 => some (some [])
  | count + 1 => do
    match ← r.sequence.visibleAt offset with
    | none => return none
    | some position =>
      match ← visibleRun r (offset + 1) count with
      | none => return none
      | some positions => return some (position :: positions)

/-- `string(rune)` of a rune that need not be a scalar value. -/
def scalar (v : Rune) : Rune := if validRune v then v else 0xFFFD

/-- Delete a visible range; with it go the position before the range, its text and its
positions. -/
def deleteWithUndoCapture (offset count maxRunes : Int) (millis : Int64) :
    Option (RGA × Except Err (Delta × Position × List Rune × List Position)) :=
  if maxRunes ≤ 0 ∨ count > maxRunes then some (r, .error .undoHistoryLimit)
  else if offset < 0 ∨ count < 0 ∨ offset > r.len ∨ count > r.len - offset then
    some (r, .error .range)
  else do
    let predecessor := (← r.sequence.visibleAt (offset - 1)).getD .zero
    match ← r.visibleRun offset count.toNat with
    | none => return (r, .error .range)
    | some positions =>
      let runes := positions.map fun position => (r.nodes[position]?.map Node.value).getD 0
      let delta : Delta := {tombstones := positions.foldl (fun s id => s.insert id) ∅}
      match ← r.applyDelta delta millis with
      | (r, .error err) => return (r, .error err)
      | (r, .ok ()) => return (r, .ok (delta, predecessor, runes.map scalar, positions))

/-- Tombstone positions that are all still retained. -/
def tombstoneRetainedPositions (positions : List Position) (millis : Int64) :
    Option (RGA × Except Err Delta) :=
  if !positions.all Tag.valid then some (r, .error .invalidDelta) else
  let delta : Delta := {tombstones := positions.foldl (fun s id => s.insert id) ∅}
  if !delta.tombstones.toList.all r.retainsPosition then some (r, .error .undoAnchorGone) else do
  match ← r.applyDeltaLocked delta millis with
  | (r, .error err) => return (r, .error err)
  | (r, .ok ()) => return (r, .ok delta)

end RGA

/-! ### Fresh tags -/

variable {r r' : RGA} {delta : Delta}

/-- A replica that local edits can start from: nothing is pending, and its clock is ahead. -/
structure Ready (r : RGA) : Prop where
  inv : r.Inv
  settled : r.Settled
  complete : r.pending = ∅
  sound : Sound r

theorem Ready.known (h : Ready r) (x : Position) : r.known x = r.nodes[x]? := by
  simp [Replica.known, h.complete]

theorem Reachable.ready (h : Reachable Onward r) (hp : r.pending = ∅) : Ready r := ⟨h.inv.1, h.inv.2, hp, h.sound⟩

variable {clock : HLC}

theorem Ready.tick (h : Ready r) (hid : clock.replicaID = r.clock.replicaID)
    (hle : r.clock.stamp ≤ clock.stamp) : Ready {r with clock} :=
  ⟨h.inv, h.settled, h.complete, h.sound.tick ⟨hid, hle⟩⟩

/-- The tags of a chain are issued in ascending order, past where the clock stood. -/
structure Issued (clock clock' : HLC) (ids : List Position) : Prop where
  replicaID : clock'.replicaID = clock.replicaID
  le : clock.stamp ≤ clock'.stamp
  ascending : ids.Pairwise (· < ·)
  own : ∀ x ∈ ids, x.replicaID = clock.replicaID ∧ clock.stamp < tagStamp x

variable {value : List Rune} {chain : List (Position × Rune)}

theorem nowChain_spec {millis : Nat → Int64} {i : Nat} {clock' : HLC}
    (h : nowChain millis i clock value = (clock', .ok chain)) :
    chain.map Prod.snd = value ∧ Issued clock clock' (chain.map Prod.fst) := by
  induction value generalizing i clock chain with
  | nil =>
    cases h
    exact ⟨rfl, rfl, Nat.le_refl _, List.Pairwise.nil, by simp⟩
  | cons v rest ih =>
    unfold nowChain at h
    rcases hnow : clock.now (millis i) with ⟨clock₁, err | id⟩
    · simp [hnow] at h
    obtain ⟨hid, hrep, hlt⟩ := HLC.now_ok hnow
    rcases hrest : nowChain millis (i + 1) clock₁ rest with ⟨clock₂, err | chain₂⟩
    · simp [hnow, hrest] at h
    simp only [hnow, hrest] at h
    cases h
    obtain ⟨hval, hiss⟩ := ih hrest
    have hstamp : tagStamp id = clock₁.stamp := by rw [hid, HLC.tagStamp_tag]
    refine ⟨by simp [hval], hiss.replicaID.trans hrep, hlt.le.trans hiss.le, ?_, ?_⟩
    · refine pairwise_cons.mpr ⟨fun x hx => lt_of_tagStamp_lt ?_, hiss.ascending⟩
      rw [hstamp]
      exact (hiss.own x hx).2
    refine forall_mem_cons.mpr ⟨⟨?_, ?_⟩, fun x hx => ?_⟩
    · rw [hid]
      exact hrep
    · rw [hstamp]
      exact hlt
    · obtain ⟨h₁, h₂⟩ := hiss.own x hx
      exact ⟨h₁.trans hrep, hlt.trans h₂⟩

theorem Ready.freshTags (h : Ready r) {ids : List Position}
    (hi : Issued r.clock clock ids) : FreshTags r.nodes r.tombstones ids := by
  refine ⟨fun x hx => ?_, hi.ascending, fun x hx y hy => ?_, fun x hx hm => ?_⟩
  · simp [Tag.valid, (hi.own x hx).1, h.sound.replicaID]
  · obtain ⟨item, hitem⟩ := mem_iff.mp hy
    have := h.sound.ahead y item (by rw [h.known, hitem])
    exact lt_of_tagStamp_lt (this.trans_lt (hi.own x hx).2)
  · exact absurd (h.sound.buried x hm) (not_le.mpr (hi.own x hx).2)

/-! ### Chains go in -/

variable {p : Position} {l : List (Position × Rune)}

theorem of_getElem?_growChain (hl : (l.map Prod.fst).Pairwise (· < ·))
    {x : Position} {item : Node Rune} (hx : (growChain ∅ p l)[x]? = some item) :
    (x, item.value) ∈ l ∧ (item.parent = p ∨ item.parent ∈ l.map Prod.fst ∧ item.parent < x) := by
  induction l generalizing p with
  | nil => simp [growChain] at hx
  | cons y l ih =>
    obtain ⟨id, v⟩ := y
    obtain ⟨hlt, hl⟩ := pairwise_cons.mp hl
    have hnodup : (l.map Prod.fst).Nodup := hl.imp ne_of_lt
    rw [growChain, getElem?_growChain hnodup] at hx
    rcases or_eq_some_iff.mp hx with hx | ⟨_, hx⟩
    · obtain ⟨hmem, hpar⟩ := ih hl hx
      refine ⟨by simp [hmem], .inr ?_⟩
      rcases hpar with hpar | ⟨hpar, hlt'⟩
      · rw [hpar]
        exact ⟨by simp, hlt x (mem_map.mpr ⟨_, hmem, rfl⟩)⟩
      · exact ⟨by simp only [map_cons, mem_cons]; exact .inr hpar, hlt'⟩
    rw [get?_insert] at hx
    split_ifs at hx with he
    · cases hx
      exact ⟨by simp [he], .inl rfl⟩
    · simp at hx

theorem chainDelta_valid {ids : TagSet}
    (hf : FreshTags r.nodes ids (l.map Prod.fst)) (hp : p = .zero ∨ p ∈ r.nodes)
    (hinv : r.Inv) (hv : ∀ v ∈ l.map Prod.snd, validRune v = true) : (chainDelta p l).Valid := by
  refine ⟨⟨fun x item hx => ?_⟩, by simp [chainDelta]⟩
  obtain ⟨hmem, hpar⟩ := of_getElem?_growChain hf.ascending hx
  have hxl : x ∈ l.map Prod.fst := mem_map.mpr ⟨_, hmem, rfl⟩
  refine ⟨hf.valid x hxl, hv _ (mem_map.mpr ⟨_, hmem, rfl⟩), ?_, ?_⟩
  · rcases hpar with hpar | ⟨hpar, _⟩
    · rw [hpar]
      exact hp.imp_right (hinv.indexed.forested.valid p)
    · exact .inr (hf.valid _ hpar)
  rcases hpar with hpar | ⟨_, hlt⟩
  · rw [hpar]
    rintro rfl
    exact hp.elim (Tag.ne_zero_of_valid (hf.valid x hxl)) (hf.not_mem hxl)
  · exact hlt.ne'

/-- What a local edit does to a replica: the tags of `chain`, below `p`, are new, and the
positions `buried` are deleted. -/
structure Edited (r r' : RGA) (p : Position) (chain : List (Position × Rune))
    (buried : List Position) : Prop where
  ready : Ready r'
  fresh : FreshTags r.nodes r.tombstones (chain.map Prod.fst)
  reached : r.Reached p
  nodes : r'.nodes = growChain r.nodes p chain
  tombstones : ∀ x, x ∈ r'.tombstones ↔ x ∈ r.tombstones ∨ x ∈ buried

/-- Tags that nobody waits for go in as a chain, and leave what is pending as it was. -/
theorem nodes_of_edit (h : r.Inv) (hs : r.Settled)
    (hf : FreshTags r.nodes r.tombstones (chain.map Prod.fst))
    (hnew : ∀ x ∈ chain.map Prod.fst, x ∉ r.pending)
    (hwait : ∀ x q, parentOf r.pending x = some q → q ∉ chain.map Prod.fst) (hp : r.Reached p)
    (ha : Applied r delta r') (hd : delta.nodes = growChain ∅ p chain) :
    r'.nodes = growChain r.nodes p chain ∧ r'.pending = r.pending := by
  obtain ⟨before, after, ht⟩ := append_of_mem ((mem_traversal h.indexed.forested).mpr hp)
  obtain ⟨hfor, _⟩ := traversal_growChain h.indexed.forested hf hp ht
  have hget : ∀ x, (growChain r.nodes p chain)[x]? = _ := getElem?_growChain (hf.ascending.imp ne_of_lt)
  have hjoin : ∀ x : Position, (r.known x).or delta.nodes[x]? =
      (growChain r.nodes p chain)[x]?.or r.pending[x]? := by
    intro x
    rw [hget, hd, Replica.known]
    cases hx : (growChain ∅ p chain)[x]? with
    | none => simp
    | some item =>
      have hxl : x ∈ chain.map Prod.fst := mem_map.mpr ⟨_, (of_getElem?_growChain hf.ascending hx).1, rfl⟩
      rw [not_mem_iff.mp (hf.not_mem hxl), not_mem_iff.mp (hnew x hxl)]
      rfl
  -- what is outside of the chain and pending stays there
  have hsplit : ∀ x, x ∈ r'.nodes ↔ x ∈ growChain r.nodes p chain := by
    intro x
    rw [mem_nodes_iff_rooted ha.joins.inv ha.joins.settled]
    refine Rooted.iff_of_split (· ∈ growChain r.nodes p chain) (fun x hx => ?_) fun x y hxy hx => ?_
    · refine (hfor.rooted x hx).mono fun y z hyz => ?_
      obtain ⟨item, hitem, rfl⟩ := parentOf_eq_some.mp hyz
      rw [ha.joins.known, hjoin, hitem]
      rfl
    rw [ha.joins.known, hjoin, not_mem_iff.mp hx] at hxy
    have hsettled := not_or.mp (hs x y hxy)
    rw [mem_growChain]
    exact ⟨hsettled.1, not_or.mpr ⟨hsettled.2, hwait x y hxy⟩⟩
  have hout : ∀ x ∈ growChain r.nodes p chain, x ∉ r.pending := fun x hx hm =>
    (mem_growChain.mp hx).elim (h.queued.disjoint x hm) fun hl => hnew x hl hm
  have hboth : ∀ x : Position, r'.nodes[x]? = (growChain r.nodes p chain)[x]? ∧ r'.pending[x]? = r.pending[x]? := by
    intro x
    have hk := (ha.joins.known x).trans (hjoin x)
    unfold Replica.known at hk
    by_cases hx : x ∈ growChain r.nodes p chain
    · have hx' : x ∉ r'.pending := fun hm => ha.joins.inv.queued.disjoint x hm ((hsplit x).mpr hx)
      rw [not_mem_iff.mp hx', not_mem_iff.mp (hout x hx), or_none, or_none] at hk
      exact ⟨hk, (not_mem_iff.mp hx').trans (not_mem_iff.mp (hout x hx)).symm⟩
    have hx' := not_mem_iff.mp fun hm => hx ((hsplit x).mp hm)
    rw [hx', not_mem_iff.mp hx] at hk
    exact ⟨hx'.trans (not_mem_iff.mp hx).symm, hk⟩
  exact ⟨Std.ExtTreeMap.ext_getElem? fun x => (hboth x).1, Std.ExtTreeMap.ext_getElem? fun x => (hboth x).2⟩

variable {millis : Int64}

theorem applyDelta_chain (h : Ready r) (hi : Issued r.clock clock (chain.map Prod.fst)) (hp : r.Reached p)
    (happ : RGA.applyDelta {r with clock} (chainDelta p chain) millis = some (r', .ok ())) :
    Edited r r' p chain [] := by
  have hf := h.freshTags hi
  have hr := h.tick hi.replicaID hi.le
  have ha := applied_of_ok hr.inv hr.settled happ
  obtain ⟨hnodes, hpend⟩ := nodes_of_edit (r := {r with clock}) hr.inv hr.settled hf
    (fun x _ => by simp [h.complete]) (fun x q hq => by simp [h.complete, parentOf] at hq) hp ha rfl
  refine ⟨⟨ha.joins.inv, ha.joins.settled, hpend.trans h.complete, hr.sound.apply ha happ⟩, hf, hp,
    hnodes, fun x => ?_⟩
  rw [ha.joins.tombstones]
  simp [chainDelta]

variable {positions : List Position}

theorem applyDelta_tombstones (h : Ready r)
    (happ : r.applyDelta {tombstones := positions.foldl (fun s id => s.insert id) ∅} millis =
      some (r', .ok ())) : Edited r r' .zero [] positions := by
  have hf : FreshTags r.nodes r.tombstones (([] : List (Position × Rune)).map Prod.fst) :=
    ⟨by simp, List.Pairwise.nil, by simp, by simp⟩
  have ha := applied_of_ok h.inv h.settled happ
  obtain ⟨hnodes, hpend⟩ := nodes_of_edit h.inv h.settled hf (by simp) (by simp) (.inl rfl) ha rfl
  refine ⟨⟨ha.joins.inv, ha.joins.settled, hpend.trans h.complete, h.sound.apply ha happ⟩, hf, .inl rfl,
    hnodes, fun x => ?_⟩
  rw [ha.joins.tombstones, TagSet.mem_foldl_insert]
  simp

/-- Only the replica's own deltas skip the checks, and these are valid. -/
theorem applyDelta_of_locked (hv : delta.Valid) :
    r.applyDelta delta millis = r.applyDeltaLocked delta millis := by
  rw [RGA.applyDelta, validateDelta_eq_ok.mpr hv]

/-! ### The visible text -/

/-- The rune at a position; a position without a node would read as zero. -/
def RGA.runeAt (r : RGA) (p : Position) : Rune := (r.nodes[p]?.map Node.value).getD 0

/-- The visible positions. -/
def RGA.visible (r : RGA) : List Position := projection r.nodes r.tombstones

theorem visibleRunes_eq (h : r.Inv) : r.visibleRunes = some (r.visible.map r.runeAt) := by
  rw [RGA.visibleRunes, RGA.positions, visiblePositions_spec h]
  rfl

theorem visibleAt_eq (h : r.Inv) (k : Nat) : r.sequence.visibleAt k = some r.visible[k]? := by
  obtain ⟨l, hl⟩ := h.indexed.holds
  rw [hl.visibleAt, RGA.visible, projection, traversal, marksOf, SequenceIndex.visibleOf_eq_preorder]
  simp

theorem len_eq_visible (h : r.Inv) : r.len = r.visible.length := by
  obtain ⟨l, hl⟩ := h.indexed.holds
  rw [RGA.len, hl.visibleCount, RGA.visible, projection, traversal, marksOf,
    SequenceIndex.visibleOf_eq_preorder]

variable {buried : List Position} {predecessor : Position}

section
variable (he : Edited r r' p chain buried)
include he

/-- An edit splices its chain in behind `p`, and takes the buried positions out. -/
theorem Edited.visible (h : Ready r) :
    r'.visible = ((r.visible.take (visibleThrough r.nodes r.tombstones p) ++ chain.map Prod.fst ++
      r.visible.drop (visibleThrough r.nodes r.tombstones p)).filter (· ∉ buried)) := by
  rw [RGA.visible, he.nodes, projection_tombstones he.tombstones,
    projection_growChain h.inv.indexed.forested he.fresh he.reached]
  rfl

theorem Edited.runeAt {x : Position} (hx : x ∈ r.nodes) : r'.runeAt x = r.runeAt x := by
  have hout : x ∉ chain.map Prod.fst := fun hm => he.fresh.not_mem hm hx
  have hnone : (growChain (∅ : TagMap (Node Rune)) p chain)[x]? = none :=
    not_mem_iff.mp fun hm => (mem_growChain.mp hm).elim (by simp) hout
  rw [RGA.runeAt, he.nodes, getElem?_growChain (he.fresh.ascending.imp ne_of_lt), hnone]
  rfl

theorem Edited.map_runeAt : (chain.map Prod.fst).map r'.runeAt = chain.map Prod.snd := by
  rw [List.map_map]
  refine map_congr_left fun x hx => ?_
  rw [Function.comp_apply, RGA.runeAt, he.nodes, value_growChain (he.fresh.ascending.imp ne_of_lt) hx]
  rfl

end

/-! ### Whole edits -/

theorem insertAfter_spec {millis : Nat → Int64}
    (h : Ready r) (hp : predecessor = .zero ∨ predecessor.valid = true)
    (hok : r.insertAfter predecessor value millis = some (r', .ok delta)) :
    ∃ chain, chain.map Prod.snd = value ∧ Edited r r' predecessor chain [] ∧
      delta.nodes = growChain ∅ predecessor chain := by
  unfold RGA.insertAfter at hok
  by_cases hv : value.all validRune = true
  swap
  · simp [hv] at hok
  rcases hch : nowChain millis 0 r.clock value with ⟨clock, err | chain⟩
  · simp [hv, hch] at hok
  obtain ⟨hval, hiss⟩ := nowChain_spec hch
  simp only [hv, hch, Bool.not_true, Bool.false_eq_true, if_false] at hok
  split_ifs at hok with hgone
  · simp at hok
  have hreach : r.Reached predecessor := by
    rcases hp with hp | hp
    · exact .inl hp
    · simp only [hp, Bool.true_and, Bool.not_eq_true', Bool.not_eq_false] at hgone
      exact .inr (Std.ExtTreeMap.contains_iff_mem.mp hgone)
  obtain ⟨⟨r₁, res⟩, happ, hok⟩ := bind_eq_some_iff.mp hok
  rcases res with err | ⟨⟩
  · simp at hok
  cases hok
  have hvalid := chainDelta_valid (r := r) (h.freshTags hiss) hreach h.inv (by
    rw [hval]
    exact all_eq_true.mp hv)
  rw [← applyDelta_of_locked hvalid] at happ
  exact ⟨chain, hval, applyDelta_chain h hiss hreach happ, rfl⟩

variable {offset : Int}

/-- The visible position before an offset, or the root, is where an insertion there hangs. -/
theorem predecessor_spec (h : r.Inv) (h₀ : 0 ≤ offset) (hlen : offset ≤ r.len)
    {previous : Option Position} (hprev : r.sequence.visibleAt (offset - 1) = some previous) :
    visibleThrough r.nodes r.tombstones (previous.getD .zero) = offset.toNat ∧
      r.Reached (previous.getD .zero) := by
  obtain ⟨k, rfl⟩ := Int.eq_ofNat_of_zero_le h₀
  rw [len_eq_visible h] at hlen
  cases k with
  | zero =>
    cases hprev
    exact ⟨visibleThrough_zero h.indexed.forested, .inl rfl⟩
  | succ k =>
    have hk : ((k + 1 : Nat) : Int) - 1 = (k : Nat) := by omega
    rw [hk, visibleAt_eq h] at hprev
    have hlt : k < r.visible.length := by omega
    rw [getElem?_eq_getElem hlt] at hprev
    cases hprev
    refine ⟨?_, .inr ((mem_projection h.indexed.forested).mp (getElem_mem hlt)).1⟩
    exact visibleThrough_getElem h.indexed.forested (getElem?_eq_getElem hlt)

/-- A prepared insertion: tags from the clock, in a chain below the visible position before the
offset. -/
theorem prepareInsertWithPredecessor_spec {millis : Nat → Int64} (h : r.Inv)
    (hok : r.prepareInsertWithPredecessor offset value millis = some (r', .ok (delta, predecessor))) :
    offset.toNat ≤ r.visible.length ∧ visibleThrough r.nodes r.tombstones predecessor = offset.toNat ∧
      r.Reached predecessor ∧ ∃ clock chain, r' = {r with clock} ∧ chain.map Prod.snd = value ∧
        Issued r.clock clock (chain.map Prod.fst) ∧ delta = chainDelta predecessor chain := by
  unfold RGA.prepareInsertWithPredecessor at hok
  split_ifs at hok with hneg htext hlen hempty
  · simp at hok
  · simp at hok
  all_goals obtain ⟨previous, hprev, hok⟩ := bind_eq_some_iff.mp hok
  · simp at hok
  all_goals
    obtain ⟨hthrough, hreach⟩ := predecessor_spec h (not_lt.mp hneg) (not_lt.mp hlen) hprev
    have hle : offset.toNat ≤ r.visible.length := by
      rw [← len_eq_visible h]
      omega
  · cases hok
    exact ⟨hle, hthrough, hreach, r.clock, [], rfl, hempty.symm,
      ⟨rfl, Nat.le_refl _, List.Pairwise.nil, by simp⟩, rfl⟩
  rcases hch : nowChain millis 0 r.clock value with ⟨clock, err | chain⟩
  · simp [hch] at hok
  obtain ⟨hval, hiss⟩ := nowChain_spec hch
  simp only [hch] at hok
  cases hok
  exact ⟨hle, hthrough, hreach, clock, chain, rfl, hval, hiss, rfl⟩

theorem insertWithPredecessor_spec {millis : Nat → Int64} (h : Ready r)
    (hok : r.insertWithPredecessor offset value millis = some (r', .ok (delta, predecessor))) :
    offset.toNat ≤ r.visible.length ∧ visibleThrough r.nodes r.tombstones predecessor = offset.toNat ∧
      ∃ chain, chain.map Prod.snd = value ∧ Edited r r' predecessor chain [] ∧
        delta.nodes = growChain ∅ predecessor chain := by
  unfold RGA.insertWithPredecessor at hok
  obtain ⟨⟨r₁, res⟩, hprep, hok⟩ := bind_eq_some_iff.mp hok
  rcases res with err | ⟨delta₁, predecessor₁⟩
  · simp at hok
  obtain ⟨⟨r₂, res⟩, happ, hok⟩ := bind_eq_some_iff.mp hok
  rcases res with err | ⟨⟩
  · simp at hok
  cases hok
  obtain ⟨hlen, hthrough, hreach, clock, chain, rfl, hval, hiss, rfl⟩ := prepareInsertWithPredecessor_spec h.inv hprep
  exact ⟨hlen, hthrough, chain, hval, applyDelta_chain h hiss hreach happ, rfl⟩

theorem visibleRun_spec (h : r.Inv) {offset count : Nat}
    (hrun : r.visibleRun offset count = some (some positions)) :
    positions = (r.visible.drop offset).take count ∧ positions.length = count := by
  induction count generalizing offset positions with
  | zero =>
    cases hrun
    simp
  | succ count ih =>
    unfold RGA.visibleRun at hrun
    rw [visibleAt_eq h] at hrun
    cases hk : r.visible[offset]? with
    | none => simp [hk] at hrun
    | some position =>
      simp only [hk, bind_eq_bind, bind_some] at hrun
      obtain ⟨rest, hrest, hrun⟩ := bind_eq_some_iff.mp hrun
      cases rest with
      | none => simp at hrun
      | some rest =>
        cases hrun
        obtain ⟨rfl, hlen⟩ := ih hrest
        obtain ⟨hlt, rfl⟩ := List.getElem?_eq_some_iff.mp hk
        refine ⟨?_, by simp only [length_cons, hlen]⟩
        rw [drop_eq_getElem_cons hlt, take_succ_cons]

theorem deleteWithUndoCapture_spec {count maxRunes : Int} (h : Ready r)
    (hok : r.deleteWithUndoCapture offset count maxRunes millis =
      some (r', .ok (delta, predecessor, value, positions))) :
    0 ≤ count ∧ offset.toNat + count.toNat ≤ r.visible.length ∧ r.Reached predecessor ∧
      positions = (r.visible.drop offset.toNat).take count.toNat ∧ positions.length = count.toNat ∧
      value = positions.map r.runeAt ∧ Edited r r' .zero [] positions := by
  unfold RGA.deleteWithUndoCapture at hok
  split_ifs at hok with hlimit hrange
  · simp at hok
  · simp at hok
  simp only [not_or, not_lt, gt_iff_lt] at hrange
  obtain ⟨h₀, hc₀, hlen, hclen⟩ := hrange
  obtain ⟨previous, hprev, hok⟩ := bind_eq_some_iff.mp hok
  obtain ⟨run, hrun, hok⟩ := bind_eq_some_iff.mp hok
  cases run with
  | none => simp at hok
  | some positions₁ =>
    obtain ⟨⟨r₁, res⟩, happ, hok⟩ := bind_eq_some_iff.mp hok
    rcases res with err | ⟨⟩
    · simp at hok
    cases hok
    obtain ⟨k, rfl⟩ := Int.eq_ofNat_of_zero_le h₀
    obtain ⟨hpos, hposlen⟩ := visibleRun_spec h.inv hrun
    obtain ⟨-, hreach⟩ := predecessor_spec h.inv h₀ hlen hprev
    have hrune : ∀ x ∈ positions, validRune (r.runeAt x) = true := by
      intro x hx
      rw [hpos] at hx
      have hxv := mem_of_mem_drop (mem_of_mem_take hx)
      obtain ⟨item, hitem⟩ := mem_iff.mp ((mem_projection h.inv.indexed.forested).mp hxv).1
      rw [RGA.runeAt, hitem]
      exact h.sound.runes x item (by rw [h.known, hitem])
    have hvalue : (positions.map fun position => (r.nodes[position]?.map Node.value).getD 0).map
        RGA.scalar = positions.map r.runeAt := by
      rw [List.map_map]
      refine map_congr_left fun x hx => ?_
      exact if_pos (hrune x hx)
    rw [hvalue]
    refine ⟨hc₀, ?_, hreach, hpos, hposlen, rfl, applyDelta_tombstones h happ⟩
    rw [len_eq_visible h.inv] at hclen hlen
    omega

theorem tombstoneRetainedPositions_spec (h : Ready r)
    (hok : r.tombstoneRetainedPositions positions millis = some (r', .ok delta)) :
    Edited r r' .zero [] positions := by
  unfold RGA.tombstoneRetainedPositions at hok
  by_cases hv : (!positions.all Tag.valid) = true
  · simp [hv] at hok
  dsimp only at hok
  split_ifs at hok with hgone
  · simp at hok
  obtain ⟨⟨r₁, res⟩, happ, hok⟩ := bind_eq_some_iff.mp hok
  rcases res with err | ⟨⟩
  · simp at hok
  cases hok
  simp only [Bool.not_eq_true', Bool.not_eq_false, List.all_eq_true] at hv
  have hvalid : Delta.Valid {tombstones := positions.foldl (fun s id => s.insert id) ∅} :=
    ⟨⟨by simp⟩, fun x hx => by
      rw [TagSet.mem_foldl_insert] at hx
      exact hv x (hx.resolve_right (by simp))⟩
  rw [← applyDelta_of_locked hvalid] at happ
  exact applyDelta_tombstones h happ

end Crdt.Text
