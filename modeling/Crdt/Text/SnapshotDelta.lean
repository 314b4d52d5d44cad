import Crdt.Text.PackedState

/-! Differential synchronisation against a checkpoint.

`deltaSinceBase` computes the delta from a checkpoint to the replica. It carries every
node the checkpoint lacks, with the ancestors that are needed to integrate it, but by an
explicit guard it does not start from a node that the checkpoint has already tombstoned.
So a receiver at the checkpoint ends with the tombstones of the source and with its
nodes, less those that the checkpoint lacks and has tombstoned along with everything
below them (`delta_since_base_reaches`). -/
namespace Crdt.Text

open Rga Sequence Forest MapLoop Option

/-- A decoded complete state. -/
structure SnapshotBase where
  nodes : TagMap (Node Rune)
  tombstones : TagSet
  valid : Bool

/-- Put a node and its ancestors into `destination`, up to the first that is there or whose
parent the base has. The source counts its steps up to the number of nodes. -/
def includeRGAAncestorChain (currentNodes baseNodes : TagMap (Node Rune)) :
    Nat → TagMap (Node Rune) → Position → Except Err (TagMap (Node Rune))
  | 0, _, _ => .error .invalidDelta
  | steps + 1, destination, id =>
    if destination.contains id then .ok destination else
    match currentNodes[id]? with
    | none => .error .incompleteState
    | some item =>
      let destination := destination.insert id item
      if !item.parent.valid then .ok destination
      else if baseNodes.contains item.parent then .ok destination
      else includeRGAAncestorChain currentNodes baseNodes steps destination item.parent

/-- The nodes of the delta. -/
def deltaNodes (currentNodes baseNodes : TagMap (Node Rune)) (baseTombstones : TagSet) :
    List Position → TagMap (Node Rune) → Except Err (TagMap (Node Rune))
  | [], destination => .ok destination
  | id :: rest, destination =>
    if baseNodes.contains id || baseTombstones.contains id then
      deltaNodes currentNodes baseNodes baseTombstones rest destination
    else do
      let destination ← includeRGAAncestorChain currentNodes baseNodes currentNodes.size destination id
      deltaNodes currentNodes baseNodes baseTombstones rest destination

/-- The first check on the base: everything it has is still there. -/
def checkBaseNodes (currentNodes : TagMap (Node Rune)) : List (Position × Node Rune) → Except Err Unit
  | [] => .ok ()
  | (id, baseItem) :: rest =>
    match currentNodes[id]? with
    | none => .error .incompatibleSnapshot
    | some currentItem =>
      if currentItem ≠ baseItem then .error .tagConflict else checkBaseNodes currentNodes rest

def deltaBetweenRGAStates (currentNodes : TagMap (Node Rune)) (currentTombstones : TagSet)
    (baseNodes : TagMap (Node Rune)) (baseTombstones : TagSet) : Except Err Delta := do
  checkBaseNodes currentNodes baseNodes.toList
  if !baseTombstones.toList.all currentTombstones.contains then .error .incompatibleSnapshot else
  let nodes ← deltaNodes currentNodes baseNodes baseTombstones currentNodes.keys ∅
  let delta : Delta := {nodes, tombstones := currentTombstones.filter (!baseTombstones.contains ·)}
  validateDelta delta
  return delta

def RGA.deltaSinceBase (r : RGA) (base : SnapshotBase) : Except Err Delta :=
  if !base.valid then .error .invalidSnapshot
  else if r.pending.size > 0 then .error .incompleteState
  else deltaBetweenRGAStates r.nodes r.tombstones base.nodes base.tombstones

/-! ### The nodes of the delta -/

/-- From a node up to an ancestor, or no way at all. -/
def Climbs (nodes : TagMap (Node Rune)) : Position → Position → Prop :=
  Relation.ReflTransGen fun x p => parentOf nodes x = some p

/-- A node the delta starts from. -/
def Novel (nodes baseNodes : TagMap (Node Rune)) (baseTombstones : TagSet) (x : Position) : Prop :=
  x ∈ nodes ∧ x ∉ baseNodes ∧ x ∉ baseTombstones

/-- What holds of the nodes collected so far; `next` are the parents still to come. -/
structure Collected (nodes baseNodes : TagMap (Node Rune)) (baseTombstones : TagSet)
    (destination : TagMap (Node Rune)) (next : Position → Prop) : Prop where
  current : ∀ (x : Position) item, destination[x]? = some item → nodes[x]? = some item
  below : ∀ x ∈ destination, x ∉ baseNodes ∧ ∃ y, Novel nodes baseNodes baseTombstones y ∧ Climbs nodes y x
  closed : ∀ x ∈ destination, ∀ p, parentOf nodes x = some p → p.valid = true →
    p ∈ baseNodes ∨ p ∈ destination ∨ next p

variable {nodes baseNodes destination destination' : TagMap (Node Rune)} {baseTombstones : TagSet}
  {delta : Delta}

theorem Collected.close {next next' : Position → Prop}
    (h : Collected nodes baseNodes baseTombstones destination next)
    (hnext : ∀ p, p.valid = true → next p → p ∈ baseNodes ∨ p ∈ destination ∨ next' p) :
    Collected nodes baseNodes baseTombstones destination next' := by
  refine ⟨h.current, h.below, fun x hx p hp hv => ?_⟩
  rcases h.closed x hx p hp hv with hb | hd | hn
  · exact .inl hb
  · exact .inr (.inl hd)
  · exact hnext p hv hn

theorem includeRGAAncestorChain_spec {steps : Nat} {id : Position}
    (h : Collected nodes baseNodes baseTombstones destination (· = id)) (hid : id ∉ baseNodes)
    (hbelow : ∃ y, Novel nodes baseNodes baseTombstones y ∧ Climbs nodes y id)
    (hok : includeRGAAncestorChain nodes baseNodes steps destination id = .ok destination') :
    Collected nodes baseNodes baseTombstones destination' (fun _ => False) ∧ id ∈ destination' ∧
      ∀ x ∈ destination, x ∈ destination' := by
  induction steps generalizing destination id with
  | zero => simp [includeRGAAncestorChain] at hok
  | succ steps ih =>
    unfold includeRGAAncestorChain at hok
    by_cases hin : destination.contains id = true
    · rw [if_pos hin] at hok
      cases hok
      refine ⟨h.close fun p _ he => ?_, hin, fun _ hx => hx⟩
      rw [he]
      exact .inr (.inl hin)
    rw [if_neg hin] at hok
    cases hitem : nodes[id]? with
    | none => simp [hitem] at hok
    | some item =>
      have hparent : parentOf nodes id = some item.parent := parentOf_eq_some.mpr ⟨item, hitem, rfl⟩
      have hmem : ∀ x, x ∈ destination.insert id item ↔ id = x ∨ x ∈ destination := fun x => by
        rw [mem_insert]
      -- after the insertion only the parent of the new node can be open
      have hins : Collected nodes baseNodes baseTombstones (destination.insert id item) (· = item.parent) := by
        refine ⟨fun x it hx => ?_, fun x hx => ?_, fun x hx p hp hv => ?_⟩
        · rw [get?_insert] at hx
          split_ifs at hx with he
          · rw [← he, hitem, hx]
          · exact h.current x it hx
        · rcases (hmem x).mp hx with rfl | hx
          · exact ⟨hid, hbelow⟩
          · exact h.below x hx
        rcases (hmem x).mp hx with rfl | hx
        · rw [hparent] at hp
          exact .inr (.inr (some.inj hp).symm)
        rcases h.closed x hx p hp hv with h | h | rfl
        · exact .inl h
        · exact .inr (.inl ((hmem p).mpr (.inr h)))
        · exact .inr (.inl ((hmem p).mpr (.inl rfl)))
      have hself : id ∈ destination.insert id item := (hmem id).mpr (.inl rfl)
      have hkeep : ∀ x ∈ destination, x ∈ destination.insert id item := fun x hx =>
        (hmem x).mpr (.inr hx)
      simp only [hitem] at hok
      split_ifs at hok with hv hb
      · cases hok
        refine ⟨hins.close fun p hpv he => ?_, hself, hkeep⟩
        simp [← he, hpv] at hv
      · cases hok
        refine ⟨hins.close fun p _ he => .inl ?_, hself, hkeep⟩
        rw [he]
        exact Std.ExtTreeMap.contains_iff_mem.mp hb
      obtain ⟨y, hy, hclimb⟩ := hbelow
      obtain ⟨hc, _, hsub⟩ := ih hins (fun hm => hb (Std.ExtTreeMap.contains_iff_mem.mpr hm)) ⟨y, hy, hclimb.tail hparent⟩ hok
      exact ⟨hc, hsub id hself, fun x hx => hsub x (hkeep x hx)⟩

/-- In whatever order it visits the nodes, the loop collects those that are novel. -/
theorem deltaNodes_spec {ids : List Position} (hids : ∀ x ∈ ids, x ∈ nodes)
    (h : Collected nodes baseNodes baseTombstones destination (fun _ => False))
    (hok : deltaNodes nodes baseNodes baseTombstones ids destination = .ok destination') :
    Collected nodes baseNodes baseTombstones destination' (fun _ => False) ∧
      (∀ x ∈ destination, x ∈ destination') ∧
      ∀ x ∈ ids, x ∉ baseNodes → x ∉ baseTombstones → x ∈ destination' := by
  induction ids generalizing destination with
  | nil =>
    cases hok
    exact ⟨h, fun _ hx => hx, by simp⟩
  | cons id rest ih =>
    obtain ⟨hid, hrest⟩ := List.forall_mem_cons.mp hids
    unfold deltaNodes at hok
    split_ifs at hok with hskip
    · obtain ⟨hc, hsub, hall⟩ := ih hrest h hok
      refine ⟨hc, hsub, List.forall_mem_cons.mpr ⟨fun h₁ h₂ => ?_, hall⟩⟩
      rw [Bool.or_eq_true] at hskip
      exact (hskip.elim h₁ h₂).elim
    rw [Bool.or_eq_true, Std.ExtTreeMap.contains_iff_mem, Std.ExtTreeSet.contains_iff_mem, not_or] at hskip
    cases hmid : includeRGAAncestorChain nodes baseNodes nodes.size destination id with
    | error err => simp [hmid, bind, Except.bind] at hok
    | ok mid =>
      rw [hmid] at hok
      obtain ⟨hc, hin, hsub⟩ := includeRGAAncestorChain_spec (h.close fun _ _ => False.elim) hskip.1
        ⟨id, ⟨hid, hskip⟩, .refl⟩ hmid
      obtain ⟨hc', hsub', hall⟩ := ih hrest hc hok
      exact ⟨hc', fun x hx => hsub' x (hsub x hx), List.forall_mem_cons.mpr ⟨fun _ _ => hsub' id hin, hall⟩⟩

theorem checkBaseNodes_spec {l : List (Position × Node Rune)} (h : checkBaseNodes nodes l = .ok ()) :
    ∀ p ∈ l, nodes[p.1]? = some p.2 := by
  induction l with
  | nil => simp
  | cons p l ih =>
    obtain ⟨id, baseItem⟩ := p
    unfold checkBaseNodes at h
    cases hitem : nodes[id]? with
    | none => simp [hitem] at h
    | some item =>
      simp only [hitem] at h
      split_ifs at h with hne
      exact List.forall_mem_cons.mpr ⟨by rw [hitem, not_not.mp hne], ih h⟩

/-- What a computed delta is. -/
structure Since (r : RGA) (base : SnapshotBase) (delta : Delta) : Prop where
  complete : r.pending = ∅
  valid : delta.Valid
  retained : ∀ (x : Position) item, base.nodes[x]? = some item → r.nodes[x]? = some item
  collected : Collected r.nodes base.nodes base.tombstones delta.nodes (fun _ => False)
  novel : ∀ x, Novel r.nodes base.nodes base.tombstones x → x ∈ delta.nodes
  tombstones : ∀ x, x ∈ r.tombstones ↔ x ∈ base.tombstones ∨ x ∈ delta.tombstones

theorem deltaSinceBase_spec {r : RGA} {base : SnapshotBase}
    (h : r.deltaSinceBase base = .ok delta) : Since r base delta := by
  unfold RGA.deltaSinceBase at h
  split_ifs at h with _ hpend
  unfold deltaBetweenRGAStates at h
  cases hcheck : checkBaseNodes r.nodes base.nodes.toList with
  | error err => simp [hcheck, bind, Except.bind] at h
  | ok u =>
    simp only [hcheck, bind, Except.bind] at h
    split_ifs at h with htomb
    cases hn : deltaNodes r.nodes base.nodes base.tombstones r.nodes.keys ∅ with
    | error err => simp [hn] at h
    | ok dn =>
      simp only [hn] at h
      cases hv : validateDelta {nodes := dn, tombstones := r.tombstones.filter (!base.tombstones.contains ·)} with
      | error err => simp [hv] at h
      | ok u =>
        simp only [hv, pure, Except.pure] at h
        cases h
        have hbase := checkBaseNodes_spec hcheck
        obtain ⟨hc, _, hall⟩ := deltaNodes_spec (fun x hx => Std.ExtTreeMap.mem_keys.mp hx)
          ⟨by simp, by simp, by simp⟩ hn
        refine ⟨?_, validateDelta_eq_ok.mp hv, fun x item hx => ?_, hc,
          fun x hx => hall x (Std.ExtTreeMap.mem_keys.mpr hx.1) hx.2.1 hx.2.2, fun x => ?_⟩
        · exact Std.ExtTreeMap.eq_empty_iff_size_eq_zero.mpr (by omega)
        · exact hbase (x, item) (mem_toList.mpr hx)
        simp only [Bool.not_eq_true', Bool.not_eq_false, List.all_eq_true, Std.ExtTreeSet.mem_toList,
          Std.ExtTreeSet.contains_iff_mem] at htomb
        rw [TagSet.mem_filter, Bool.not_eq_true', TagSet.contains_eq_false]
        tauto

/-! ### The receiver -/

variable {r recv recv' : RGA} {base : SnapshotBase} {delta : Delta}

section
variable (hs : Since r base delta) (hr : r.Inv) (hrecv : recv.Inv) (hnodes : recv.nodes = base.nodes)
include hs hr hrecv hnodes

/-- What a receiver at the base comes to know is part of the source, and closed under
parents. -/
theorem Since.accepts (hpend : recv.pending = ∅) : Accepts recv.toReplica delta.nodes ∧
      (∀ (x : Position) item, (recv.known x).or delta.nodes[x]? = some item → r.nodes[x]? = some item) ∧
      ∀ x ∈ r.nodes, (recv.known x).or delta.nodes[x]? ≠ none →
        Rooted (joinParent recv.toReplica delta.nodes) .zero x := by
  have hknown : ∀ x : Position, recv.known x = base.nodes[x]? := fun x => by
    simp [Replica.known, hpend, hnodes]
  have hsub : ∀ (x : Position) item, (recv.known x).or delta.nodes[x]? = some item →
      r.nodes[x]? = some item := by
    intro x item hx
    rw [hknown] at hx
    rcases or_eq_some_iff.mp hx with hx | ⟨_, hx⟩
    · exact hs.retained x item hx
    · exact hs.collected.current x item hx
  have hrooted : ∀ x ∈ r.nodes, (recv.known x).or delta.nodes[x]? ≠ none →
      Rooted (joinParent recv.toReplica delta.nodes) .zero x := by
    intro x hx
    induction hr.indexed.forested.rooted x hx with
    | @top x hp =>
      intro hk
      obtain ⟨item, hitem⟩ := ne_none_iff_exists'.mp hk
      refine .top ?_
      rw [joinParent, hitem]
      rw [parentOf, hsub x item hitem] at hp
      exact hp
    | @step x p hp hrp ih =>
      intro hk
      obtain ⟨item, hitem⟩ := ne_none_iff_exists'.mp hk
      have hj : joinParent recv.toReplica delta.nodes x = some p := by
        rw [joinParent, hitem]
        rw [parentOf, hsub x item hitem] at hp
        exact hp
      have hpn : p ∈ r.nodes := by
        cases hrp with
        | top h => exact mem_of_parentOf h
        | step h _ => exact mem_of_parentOf h
      refine .step hj (ih hpn ?_)
      have hpv := hr.indexed.forested.valid p hpn
      -- the parent is in the base with its child, or was collected after it
      cases hb : base.nodes[x]? with
      | some it =>
        have hpar : parentOf recv.nodes x = some p := by
          rw [hnodes, parentOf, hb]
          rw [parentOf, hs.retained x it hb] at hp
          exact hp
        have := (hrecv.indexed.forested.parent_known hpar).resolve_left (Tag.ne_zero_of_valid hpv)
        obtain ⟨it', hit'⟩ := mem_iff.mp this
        rw [hknown, ← hnodes, hit']
        simp
      | none =>
        have hxd : x ∈ delta.nodes := by
          rw [hknown, hb] at hitem
          exact mem_iff.mpr ⟨item, by simpa using hitem⟩
        rcases hs.collected.closed x hxd p hp hpv with h | h | h
        · obtain ⟨it', hit'⟩ := mem_iff.mp h
          simp [hknown, hit']
        · obtain ⟨it', hit'⟩ := mem_iff.mp h
          simp [hit']
        · exact h.elim
  refine ⟨⟨fun x item hx => ?_, fun x => ?_⟩, hsub, hrooted⟩
  · rw [hknown]
    cases hb : base.nodes[x]? with
    | none => exact .inl rfl
    | some it =>
      have := hs.retained x it hb
      rw [hs.collected.current x item hx] at this
      exact .inr this.symm
  cases hk : (recv.known x).or delta.nodes[x]? with
  | none => exact .out (by simp [joinParent, hk])
  | some item =>
    refine .of_rooted (hrooted x (mem_iff.mpr ⟨item, hsub x item hk⟩) (by simp [hk])) ?_
    refine joinParent_zero hrecv fun y hy => ?_
    obtain ⟨it, hit⟩ := mem_iff.mp hy
    exact (hs.valid.nodes.valid y it hit).1

/-- What lies above a node that is not tombstoned in the base is collected with it. -/
theorem Since.mem_of_climbs {x y : Position} (hy : y ∈ r.nodes)
    (hyt : y ∉ base.tombstones) (hclimb : Climbs r.nodes y x) (hxb : x ∉ base.nodes)
    (hx : x ∈ r.nodes) : x ∈ delta.nodes := by
  induction hclimb with
  | refl => exact hs.novel y ⟨hy, hxb, hyt⟩
  | @tail w z _ hwz ih =>
    have hw : w ∈ r.nodes := mem_of_parentOf hwz
    have hzv := hr.indexed.forested.valid z hx
    -- the base is closed under parents, so the child is not in it either
    have hwb : w ∉ base.nodes := fun hwb => by
      obtain ⟨item, hitem⟩ := mem_iff.mp hwb
      have hp : parentOf recv.nodes w = some z := by
        rw [hnodes, parentOf, hitem]
        rw [parentOf, hs.retained w item hitem] at hwz
        exact hwz
      have := (hrecv.indexed.forested.parent_known hp).resolve_left (Tag.ne_zero_of_valid hzv)
      exact hxb (hnodes ▸ this)
    rcases hs.collected.closed w (ih hwb hw) z hwz hzv with h | h | h
    · exact (hxb h).elim
    · exact h
    · exact h.elim

end

/-- A node of the source that the delta leaves out: the base lacks it, and has tombstoned
it and every node below it. -/
def Omitted (r : RGA) (base : SnapshotBase) (x : Position) : Prop :=
  x ∉ base.nodes ∧ ∀ y ∈ r.nodes, Climbs r.nodes y x → y ∈ base.tombstones

/-- Differential sync. A receiver whose state is the base, and which applies the delta, is
not stopped by anything but a limit or its clock, and ends with no pending node, with the
tombstones of the source, and with the nodes of the source that are not omitted: if there
is none, with the bytes of the source. -/
theorem delta_since_base_reaches (hr : Live r) (hd : r.deltaSinceBase base = .ok delta)
    (hrecv : Live recv) (hnodes : recv.nodes = base.nodes)
    (htomb : recv.tombstones = base.tombstones) (hpend : recv.pending = ∅) (millis : Int64) :
    ∃ recv' res, recv.applyDelta delta millis = some (recv', res) ∧
      (Rejected res ∨ res = .ok () ∧ recv'.pending = ∅ ∧ recv'.tombstones = r.tombstones ∧
        (∀ (x : Position) item, recv'.nodes[x]? = some item ↔
          r.nodes[x]? = some item ∧ ¬ Omitted r base x) ∧
        ((∀ x ∈ r.nodes, ¬ Omitted r base x) → recv'.nodes = r.nodes ∧ ∀ e limits order' order,
          recv'.marshalRunBinaryWithLimits e order' limits = r.marshalRunBinaryWithLimits e order limits ∧
          recv'.marshalPackedBinaryWithLimits e order' limits = r.marshalPackedBinaryWithLimits e order limits)) := by
  have hs := deltaSinceBase_spec hd
  obtain ⟨hinv, _⟩ := hr.inv
  obtain ⟨hinv', hset'⟩ := hrecv.inv
  obtain ⟨hacc, hsub, hrooted⟩ := hs.accepts hinv hinv' hnodes hpend
  have hac : recv.Acyclic := fun x => by
    cases hk : recv.known x with
    | none => exact .out (by simp [Replica.parent, hk])
    | some item =>
      refine (hacc.acyclic x).mono fun x y hxy => ?_
      obtain ⟨it, hit, rfl⟩ := map_eq_some_iff.mp hxy
      simp [joinParent, hit]
  obtain ⟨recv', res, happ, hres⟩ := applyDelta_spec hinv' hset' delta millis
  refine ⟨recv', res, happ, ?_⟩
  rcases (applyDelta_accepts hinv' hac happ).2 hs.valid hacc with hok | hrej
  swap
  · exact .inl hrej
  right
  rcases hres with ⟨_, ha⟩ | ⟨⟨err, herr⟩, _⟩
  swap
  · simp [herr] at hok
  obtain ⟨hpend', hget⟩ := ha.joins.complete fun x item hx =>
    hrooted x (mem_iff.mpr ⟨item, hsub x item hx⟩) (by simp [hx])
  have hget : ∀ x : Position, recv'.nodes[x]? = (base.nodes[x]?).or delta.nodes[x]? := fun x => by
    rw [hget]
    simp [Replica.known, hpend, hnodes]
  have hiff : ∀ (x : Position) item, recv'.nodes[x]? = some item ↔
      r.nodes[x]? = some item ∧ ¬ Omitted r base x := by
    intro x item
    rw [hget]
    constructor
    · intro hx
      refine ⟨hsub x item (by simpa [Replica.known, hpend, hnodes] using hx), fun ho => ?_⟩
      rcases or_eq_some_iff.mp hx with hb | ⟨_, hb⟩
      · exact ho.1 (mem_iff.mpr ⟨item, hb⟩)
      · obtain ⟨y, hy, hclimb⟩ := (hs.collected.below x (mem_iff.mpr ⟨item, hb⟩)).2
        exact hy.2.2 (ho.2 y hy.1 hclimb)
    rintro ⟨hx, hno⟩
    cases hb : base.nodes[x]? with
    | some it =>
      rw [← hx, hs.retained x it hb]
      rfl
    | none =>
      -- some node below it is novel, so the chain of that node passes it
      have hbx : x ∉ base.nodes := not_mem_iff.mpr hb
      simp only [Omitted, not_and, not_forall] at hno
      obtain ⟨y, hy, hclimb, hyt⟩ := hno hbx
      have hxd : x ∈ delta.nodes := hs.mem_of_climbs hinv hinv' hnodes hy hyt hclimb hbx
        (mem_iff.mpr ⟨item, hx⟩)
      obtain ⟨it, hit⟩ := mem_iff.mp hxd
      rw [← hx, hs.collected.current x it hit, hit]
      rfl
  have htomb' : recv'.tombstones = r.tombstones := Std.ExtTreeSet.ext_mem fun x => by
    rw [ha.joins.tombstones, hs.tombstones, htomb]
  refine ⟨hok, hpend', htomb', hiff, fun hno => ?_⟩
  have hsame : recv'.nodes = r.nodes := Std.ExtTreeMap.ext_getElem? fun x => Option.ext fun item => by
    rw [hiff]
    exact ⟨fun h => h.1, fun h => ⟨h, hno x (mem_iff.mpr ⟨item, h⟩)⟩⟩
  have hlive := hrecv.applyDelta happ
  exact ⟨hsame, fun e limits order' order =>
    ⟨marshalRunBinary_unique hlive hr hsame htomb' hpend' hs.complete order' order,
      marshalReplica_unique hlive hr hsame htomb' hpend' hs.complete order' order _⟩⟩

/-- A source and a receiver, each new with one delta; the delta between them, applied. -/
def sync (source receiver : Delta) : Option (RGA × RGA × Delta × RGA) := do
  let r ← newWith [7] [source]
  let recv ← newWith [8] [receiver]
  match r.deltaSinceBase ⟨recv.nodes, recv.tombstones, true⟩ with
  | .ok delta =>
    match ← recv.applyDelta delta 0 with
    | (recv', .ok ()) => return (r, recv, delta, recv')
    | _ => none
  | _ => none

theorem sync_spec {source receiver : Delta}
    (h : sync source receiver = some (r, recv, delta, recv')) : Live r ∧ Live recv ∧
      r.deltaSinceBase ⟨recv.nodes, recv.tombstones, true⟩ = .ok delta ∧
      recv.applyDelta delta 0 = some (recv', .ok ()) := by
  obtain ⟨r₀, hr, h⟩ := bind_eq_some_iff.mp h
  obtain ⟨recv₀, hrecv, h⟩ := bind_eq_some_iff.mp h
  split at h
  · rename_i delta₀ hdelta
    obtain ⟨⟨recv₁, res⟩, happ, h⟩ := bind_eq_some_iff.mp h
    split at h
    · rename_i hres
      cases hres
      cases h
      exact ⟨reachable_newWith hr, reachable_newWith hrecv, hdelta, happ⟩
    · simp at h
  · simp at h

/-- A parent that the base has tombstoned without having it is carried along with its
child. -/
theorem delta_since_base_reaches_child :
    let parent : Tag := ⟨[1], 1, 0⟩
    let child : Tag := ⟨[1], 2, 0⟩
    ∃ r recv delta recv', sync
        { nodes := ((∅ : TagMap (Node Rune)).insert parent ⟨.zero, 97⟩).insert child ⟨parent, 98⟩
          tombstones := (∅ : TagSet).insert parent }
        { tombstones := (∅ : TagSet).insert parent } = some (r, recv, delta, recv') ∧
      recv'.pending = ∅ ∧ recv'.tombstones = r.tombstones ∧
      ∀ (x : Position) item, recv'.nodes[x]? = some item ↔
        r.nodes[x]? = some item ∧ ¬ Omitted r ⟨recv.nodes, recv.tombstones, true⟩ x := by
  intro parent child
  set res := sync
    { nodes := ((∅ : TagMap (Node Rune)).insert parent ⟨.zero, 97⟩).insert child ⟨parent, 98⟩
      tombstones := (∅ : TagSet).insert parent } { tombstones := (∅ : TagSet).insert parent } with hres
  have h : (res.map fun p => (p.2.1.pending.size, p.2.2.2.nodes.size)) = some (0, 2) := by
    decide +kernel
  obtain ⟨⟨r, recv, delta, recv'⟩, hsync, hsize⟩ := map_eq_some_iff.mp h
  obtain ⟨hr, hrecv, hdelta, happ⟩ := sync_spec hsync
  have hpend : recv.pending = ∅ :=
    Std.ExtTreeMap.eq_empty_iff_size_eq_zero.mpr (congrArg Prod.fst hsize)
  obtain ⟨recv'', res', happ', hends⟩ := delta_since_base_reaches hr hdelta hrecv rfl rfl hpend 0
  rw [happ] at happ'
  cases happ'
  rcases hends with hrej | ⟨_, h₁, h₂, h₃, _⟩
  · simp [Rejected] at hrej
  · exact ⟨r, recv, delta, recv', hsync, h₁, h₂, h₃⟩

/-- A leaf that the base has tombstoned without having it is not carried: the receiver ends
without it. -/
theorem delta_since_base_omits_leaf :
    ∃ r recv delta recv', Live r ∧ r.pending = ∅ ∧ Live recv ∧ recv.pending = ∅ ∧
      r.deltaSinceBase ⟨recv.nodes, recv.tombstones, true⟩ = .ok delta ∧
      recv.applyDelta delta 0 = some (recv', .ok ()) ∧ recv'.nodes ≠ r.nodes := by
  set res := sync
    { nodes := (∅ : TagMap (Node Rune)).insert ⟨[1], 1, 0⟩ ⟨.zero, 97⟩
      tombstones := (∅ : TagSet).insert ⟨[1], 1, 0⟩ }
    { tombstones := (∅ : TagSet).insert ⟨[1], 1, 0⟩ } with hres
  have h : (res.map fun p => (p.2.1.pending.size, p.1.nodes.size, p.2.2.2.nodes.size)) =
      some (0, 1, 0) := by
    decide +kernel
  obtain ⟨⟨r, recv, delta, recv'⟩, hsync, hsize⟩ := map_eq_some_iff.mp h
  simp only [Prod.mk.injEq] at hsize
  obtain ⟨hr, hrecv, hdelta, happ⟩ := sync_spec hsync
  refine ⟨r, recv, delta, recv', hr, (deltaSinceBase_spec hdelta).complete, hrecv,
    Std.ExtTreeMap.eq_empty_iff_size_eq_zero.mpr hsize.1, hdelta, happ, fun he => ?_⟩
  rw [he] at hsize
  omega

end Crdt.Text
