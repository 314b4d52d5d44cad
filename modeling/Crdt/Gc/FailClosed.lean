import Crdt.Gc.Coordinator

/-! Tombstone collection is fail-closed.

Whatever the order of reports, prunes and new views, the count of a tag is the number of members
whose records have it (`Tallied`), and a record is there only if its member has reported the tag
in the current epoch and since the tag was last pruned (`Since`). A call that collects holds the
membership lock from beginning to end but gives the lock of the records back before it compacts:
what is compacted was acknowledged by every member when it was found stable
(`collection_fail_closed`). -/
namespace Crdt.Gc

open MapLoop Coordinator List

/-! ### Counting -/

theorem countP_add {α : Type*} {p p' q : α → Bool} {l : List α}
    (h : ∀ x ∈ l, (p' x).toNat = (p x).toNat + (q x).toNat) : l.countP p' = l.countP p + l.countP q := by
  induction l with
  | nil => rfl
  | cons x l ih =>
    obtain ⟨hx, hl⟩ := forall_mem_cons.mp h
    simp only [countP_cons, ih hl]
    revert hx
    cases p x <;> cases p' x <;> cases q x <;> simp <;> omega

theorem sum_map_add_countP {α : Type*} {f f' : α → Nat} {q : α → Bool} {l : List α}
    (h : ∀ x ∈ l, f' x = f x + (q x).toNat) : (l.map f').sum = (l.map f).sum + l.countP q := by
  induction l with
  | nil => rfl
  | cons x l ih =>
    obtain ⟨hx, hl⟩ := forall_mem_cons.mp h
    simp only [map_cons, sum_cons, countP_cons, ih hl, hx]
    cases q x <;> simp <;> omega

/-- The table of records: the counts are exact, and the number of all records is, but for those
that a prune under way has deleted already. -/
structure Tallied (c : Coordinator) (deleted : Int) : Prop where
  within : ∀ (m : Member) (s : TagSet), c.acknowledgements[m]? = some s → m ∈ c.members
  counts : ∀ t : Tag, c.acknowledgementCounts[t]?.getD 0 =
    c.members.toList.countP fun m => (c.retained m).contains t
  entries : c.acknowledgementEntries =
    ((c.members.toList.map fun m => (c.retained m).size).sum : Nat) + deleted

/-- Records may differ, group, epoch and members do not. -/
structure SameView (c c' : Coordinator) : Prop where
  groupID : c'.groupID = c.groupID
  epoch : c'.epoch = c.epoch
  members : c'.members = c.members

theorem SameView.trans {a b c : Coordinator} (h : SameView a b) (h' : SameView b c) : SameView a c :=
  ⟨h'.groupID.trans h.groupID, h'.epoch.trans h.epoch, h'.members.trans h.members⟩

variable {c c' : Coordinator} {member m : Member} {t tag : Tag} {tags : List Tag} {n : Int}

theorem nodup_members (s : MemberSet) : s.toList.Nodup :=
  s.distinct_toList.imp fun h he => h (Std.LawfulEqCmp.compare_eq_iff_eq.mpr he)

theorem countP_member (hm : member ∈ c.members) : c.members.toList.countP (· = member) = 1 := by
  have h := count_eq_one_of_mem (nodup_members c.members) (Std.ExtTreeSet.mem_toList.mpr hm)
  rw [List.count] at h
  rw [← h]
  exact countP_congr fun x _ => by simp

/-! ### Reports -/

theorem acknowledgeTag_of_contains (h : tag ∈ c.retained member) : c.acknowledgeTag member tag = c :=
  if_pos (Std.ExtTreeSet.contains_iff_mem.mpr h)

theorem acknowledgeTag_of_not (h : tag ∉ c.retained member) : c.acknowledgeTag member tag = {c with
    acknowledgements := c.acknowledgements.insert member ((c.retained member).insert tag)
    acknowledgementCounts :=
      c.acknowledgementCounts.insert tag (c.acknowledgementCounts[tag]?.getD 0 + 1)
    acknowledgementEntries := c.acknowledgementEntries + 1} :=
  if_neg fun hc => h (Std.ExtTreeSet.contains_iff_mem.mp hc)

theorem retained_of_not (h : tag ∉ c.retained member) (m : Member) :
    (c.acknowledgeTag member tag).retained m =
      if member = m then (c.retained member).insert tag else c.retained m := by
  rw [acknowledgeTag_of_not h, retained, get?_insert]
  split_ifs <;> rfl

theorem mem_retained_acknowledgeTag :
    t ∈ (c.acknowledgeTag member tag).retained m ↔ t ∈ c.retained m ∨ m = member ∧ t = tag := by
  by_cases h : tag ∈ c.retained member
  · rw [acknowledgeTag_of_contains h]
    exact (or_iff_left_of_imp fun ⟨hm, ht⟩ => hm ▸ ht ▸ h).symm
  rw [retained_of_not h]
  split_ifs with hm
  · subst hm
    rw [TagSet.mem_insert, eq_comm (a := tag)]
    tauto
  · exact (or_iff_left fun hx => hm hx.1.symm).symm

theorem sameView_acknowledgeTag (c : Coordinator) (member : Member) (tag : Tag) :
    SameView c (c.acknowledgeTag member tag) := by
  by_cases h : tag ∈ c.retained member
  · rw [acknowledgeTag_of_contains h]
    exact ⟨rfl, rfl, rfl⟩
  · rw [acknowledgeTag_of_not h]
    exact ⟨rfl, rfl, rfl⟩

theorem Tallied.acknowledgeTag (h : Tallied c n) (hm : member ∈ c.members) :
    Tallied (c.acknowledgeTag member tag) n := by
  by_cases hc : tag ∈ c.retained member
  · rw [acknowledgeTag_of_contains hc]
    exact h
  have hret := retained_of_not hc
  have hmembers := (sameView_acknowledgeTag c member tag).members
  refine ⟨fun m s hs => ?_, fun t => ?_, ?_⟩
  · rw [hmembers]
    rw [acknowledgeTag_of_not hc, get?_insert] at hs
    split_ifs at hs with heq
    · exact heq ▸ hm
    · exact h.within m s hs
  · rw [hmembers]
    by_cases ht : tag = t
    · subst ht
      have hnew : c.members.toList.countP (fun m => ((c.acknowledgeTag member tag).retained m).contains tag) =
          c.members.toList.countP (fun m => (c.retained m).contains tag) +
            c.members.toList.countP (· = member) := by
        refine countP_add fun m _ => ?_
        rw [hret]
        by_cases heq : member = m
        · subst heq
          simp [TagSet.contains_eq_false.mpr hc]
        · simp [heq, Ne.symm heq]
      rw [hnew, countP_member hm, ← h.counts, acknowledgeTag_of_not hc]
      simp
    have hsame : ∀ m, ((c.acknowledgeTag member tag).retained m).contains t =
        (c.retained m).contains t := by
      intro m
      rw [hret]
      split_ifs with heq
      · simp [Std.ExtTreeSet.contains_insert, ht, heq]
      · rfl
    simp only [hsame, ← h.counts]
    rw [acknowledgeTag_of_not hc]
    dsimp only
    rw [get?_insert, if_neg ht]
  have hsum : ((c.members.toList.map fun m => ((c.acknowledgeTag member tag).retained m).size).sum) =
      (c.members.toList.map fun m => (c.retained m).size).sum + c.members.toList.countP (· = member) := by
    refine sum_map_add_countP fun m _ => ?_
    rw [hret]
    by_cases heq : member = m
    · subst heq
      simp [Std.ExtTreeSet.size_insert, hc]
    · simp [heq, Ne.symm heq]
  rw [hmembers, hsum, countP_member hm, acknowledgeTag_of_not hc]
  have := h.entries
  dsimp only
  omega

theorem retained_opened (c : Coordinator) (member m : Member) :
    retained {c with acknowledgements := c.acknowledgements.insert member (c.retained member)} m =
      c.retained m := by
  unfold retained
  rw [get?_insert]
  split_ifs with h
  · subst h
    rfl
  · rfl

theorem Tallied.opened (h : Tallied c n) (hm : member ∈ c.members) :
    Tallied {c with acknowledgements := c.acknowledgements.insert member (c.retained member)} n := by
  refine ⟨fun m s hs => ?_, fun t => ?_, ?_⟩
  · rw [get?_insert] at hs
    split_ifs at hs with heq
    · exact heq ▸ hm
    · exact h.within m s hs
  · simp only [retained_opened]
    exact h.counts t
  · simp only [retained_opened]
    exact h.entries

theorem foldl_acknowledgeTag (h : Tallied c n) (hm : member ∈ c.members) (tags : List Tag) :
    Tallied (tags.foldl (acknowledgeTag member) c) n ∧ SameView c (tags.foldl (acknowledgeTag member) c) ∧
      ∀ m t, t ∈ (tags.foldl (acknowledgeTag member) c).retained m ↔
        t ∈ c.retained m ∨ m = member ∧ t ∈ tags := by
  induction tags generalizing c with
  | nil => exact ⟨h, ⟨rfl, rfl, rfl⟩, by simp⟩
  | cons tag tags ih =>
    have hview := sameView_acknowledgeTag c member tag
    obtain ⟨htally, hviews, hret⟩ := ih (h.acknowledgeTag hm) (hview.members ▸ hm)
    refine ⟨htally, hview.trans hviews, fun m t => ?_⟩
    rw [foldl_cons, hret, mem_retained_acknowledgeTag, mem_cons]
    tauto

/-- A call leaves exact counts in the same view, and of the records only some. -/
structure Leaves (c c' : Coordinator) (kept : Member → Tag → Prop) : Prop where
  tallied : Tallied c' 0
  sameView : SameView c c'
  retained : ∀ m t, t ∈ c'.retained m → kept m t

theorem Tallied.unchanged (h : Tallied c 0) {kept : Member → Tag → Prop}
    (hkept : ∀ {m t}, t ∈ c.retained m → kept m t) : Leaves c c kept :=
  ⟨h, ⟨rfl, rfl, rfl⟩, fun _ _ => hkept⟩

/-- A report under the current group and epoch is recorded; any other one is refused. -/
theorem acknowledgeLocked_spec (h : Tallied c 0) (groupID : List UInt8) (member : Member) (epoch : UInt64)
    (tags : List Tag) : let r := c.acknowledgeLocked groupID member epoch tags
    Leaves c r.1 fun m t => t ∈ c.retained m ∨
      r.2 = .ok () ∧ groupID = c.groupID ∧ epoch = c.epoch ∧ m = member ∧ t ∈ tags := by
  unfold acknowledgeLocked
  split_ifs with hgroup hepoch hmem
  · exact h.unchanged .inl
  · exact h.unchanged .inl
  · exact h.unchanged .inl
  have hm : member ∈ c.members := Std.ExtTreeSet.contains_iff_mem.mp (by simpa using hmem)
  obtain ⟨htally, hview, hret⟩ := foldl_acknowledgeTag (h.opened hm) hm tags
  refine ⟨htally, ⟨hview.groupID, hview.epoch, hview.members⟩, fun m t ht => ?_⟩
  rw [hret, retained_opened] at ht
  exact ht.imp_right fun ht => ⟨rfl, not_not.mp hgroup, not_not.mp hepoch, ht⟩

/-! ### Prunes -/

theorem getElem?_pruneMember (acks : ByteMap TagSet) (n : Int) (tag : Tag) (m : Member) :
    (acks.toList.foldl (pruneMember tag) (acks, n)).1[m]? = acks[m]?.map fun s => s.erase tag := by
  have hfst : (acks.toList.foldl (pruneMember tag) (acks, n)).1 = acks.toList.foldl
      (fun acc p => if p.2.contains tag then acc.insert p.1 (p.2.erase tag) else acc) acks :=
    (foldl_hom Prod.fst fun acc p => by
      unfold pruneMember
      split_ifs <;> rfl).symm
  rw [hfst]
  refine (getElem?_foldl_insertIf (fun _ s _ => s.contains tag = true) (·.erase tag) acks acks m).trans ?_
  cases hm : acks[m]? with
  | none => rfl
  | some s =>
    rw [Option.elim_some, Option.map_some]
    split_ifs with hc
    · rfl
    congr 1
    refine Std.ExtTreeSet.ext_mem fun t => ?_
    rw [TagSet.mem_erase]
    refine ⟨fun ht => ⟨?_, ht⟩, And.right⟩
    rintro rfl
    exact hc (Std.ExtTreeSet.contains_iff_mem.mpr ht)

theorem snd_pruneMember (l : List (Member × TagSet)) (acc : ByteMap TagSet × Int) (tag : Tag) :
    (l.foldl (pruneMember tag) acc).2 = acc.2 + l.countP fun p => p.2.contains tag := by
  induction l generalizing acc with
  | nil => simp
  | cons p l ih =>
    rw [foldl_cons, ih, countP_cons, pruneMember]
    split_ifs
    · omega
    · simp

theorem retained_pruneTag (c : Coordinator) (n : Int) (tag : Tag) (m : Member) :
    (pruneTag (c, n) tag).1.retained m = (c.retained m).erase tag := by
  unfold pruneTag retained
  dsimp only
  rw [getElem?_pruneMember]
  cases c.acknowledgements[m]? with
  | none =>
    refine Std.ExtTreeSet.ext_mem fun t => ?_
    simp
  | some s => rfl

theorem Tallied.countP_records (h : Tallied c n) (tag : Tag) :
    (c.acknowledgements.toList.countP fun p => p.2.contains tag) =
      c.members.toList.countP fun m => (c.retained m).contains tag := by
  rw [countP_eq_length_filter, countP_eq_length_filter, ← length_map (f := Prod.fst)]
  refine List.Perm.length_eq ((perm_ext_iff_of_nodup ?_ ?_).mpr fun m => ?_)
  · exact pairwise_map.mpr ((nodup_keys_toList c.acknowledgements).filter _)
  · exact (nodup_members c.members).filter _
  simp only [mem_map, List.mem_filter, Prod.exists, mem_toList, Std.ExtTreeSet.mem_toList]
  constructor
  · rintro ⟨m, s, ⟨hs, hc⟩, rfl⟩
    refine ⟨h.within m s hs, ?_⟩
    rwa [retained, hs]
  rintro ⟨-, hc⟩
  unfold retained at hc
  cases hs : c.acknowledgements[m]? with
  | none => simp [hs] at hc
  | some s => exact ⟨m, s, ⟨hs, by simpa [hs] using hc⟩, rfl⟩

theorem Tallied.pruneTag (h : Tallied c n) (tag : Tag) :
    Tallied (Coordinator.pruneTag (c, n) tag).1 (Coordinator.pruneTag (c, n) tag).2 := by
  have hmembers : (Coordinator.pruneTag (c, n) tag).1.members = c.members := rfl
  refine ⟨fun m s hs => ?_, fun t => ?_, ?_⟩
  · unfold Coordinator.pruneTag at hs
    dsimp only at hs
    rw [getElem?_pruneMember] at hs
    obtain ⟨s', hs', -⟩ := Option.map_eq_some_iff.mp hs
    exact h.within m s' hs'
  · change (c.acknowledgementCounts.erase tag)[t]?.getD 0 = _
    rw [getElem?_erase, hmembers]
    simp only [retained_pruneTag]
    split_ifs with ht
    · subst ht
      rw [Option.getD_none, eq_comm, countP_eq_zero]
      simp
    rw [h.counts]
    refine countP_congr fun m _ => ?_
    simp [ht]
  have hsum : (c.members.toList.map fun m => (c.retained m).size).sum =
      (c.members.toList.map fun m => ((c.retained m).erase tag).size).sum +
        c.members.toList.countP fun m => (c.retained m).contains tag := by
    refine sum_map_add_countP fun m _ => ?_
    rw [Std.ExtTreeSet.size_erase]
    cases hc : (c.retained m).contains tag with
    | true =>
      have hm := Std.ExtTreeSet.contains_iff_mem.mp hc
      have hpos : 0 < (c.retained m).size := by
        refine Nat.pos_of_ne_zero fun h0 => ?_
        rw [Std.ExtTreeSet.eq_empty_iff_size_eq_zero.mpr h0] at hm
        simp at hm
      rw [if_pos rfl, Bool.toNat_true]
      omega
    | false => rw [if_neg Bool.false_ne_true, Bool.toNat_false, Nat.add_zero]
  have hremoved : (Coordinator.pruneTag (c, n) tag).2 =
      n + c.members.toList.countP fun m => (c.retained m).contains tag := by
    rw [← h.countP_records]
    exact snd_pruneMember ..
  have hentries := h.entries
  rw [hmembers, hremoved]
  simp only [retained_pruneTag]
  change c.acknowledgementEntries = _
  rw [hentries, hsum]
  omega

theorem foldl_pruneTag (h : Tallied c n) (tags : List Tag) :
    Tallied (tags.foldl pruneTag (c, n)).1 (tags.foldl pruneTag (c, n)).2 ∧
      SameView c (tags.foldl pruneTag (c, n)).1 ∧
      ∀ m t, t ∈ (tags.foldl pruneTag (c, n)).1.retained m ↔ t ∈ c.retained m ∧ t ∉ tags := by
  induction tags generalizing c n with
  | nil => exact ⟨h, ⟨rfl, rfl, rfl⟩, by simp⟩
  | cons tag tags ih =>
    obtain ⟨htally, hview, hret⟩ := ih (h.pruneTag tag)
    refine ⟨htally, ⟨hview.groupID, hview.epoch, hview.members⟩, fun m t => ?_⟩
    rw [foldl_cons, hret, retained_pruneTag, TagSet.mem_erase, mem_cons, not_or, eq_comm (a := t)]
    tauto

theorem Tallied.empty (hacks : c.acknowledgements = ∅)
    (hcounts : c.acknowledgementCounts = ∅) (hentries : c.acknowledgementEntries = 0) : Tallied c 0 := by
  have hret : ∀ m, c.retained m = ∅ := fun m => by simp [retained, hacks]
  refine ⟨by simp [hacks], fun t => ?_, ?_⟩
  · simp only [hcounts, hret]
    simp
  · simp [hentries, hret]

/-- Either way of pruning leaves exact counts and no record of a pruned tag. -/
theorem pruneAcknowledgements_spec (h : Tallied c 0) (groupID : List UInt8) (epoch : UInt64) (tags : List Tag) :
    let r := c.pruneAcknowledgements groupID epoch tags
    Leaves c r.1 fun m t => t ∈ c.retained m ∧ ∀ removed, r.2 = .ok removed → t ∉ tags := by
  unfold pruneAcknowledgements
  split
  · exact h.unchanged (⟨·, nofun⟩)
  split_ifs
  · exact h.unchanged (⟨·, nofun⟩)
  · exact h.unchanged (⟨·, nofun⟩)
  · exact ⟨.empty rfl rfl rfl, ⟨rfl, rfl, rfl⟩, by simp [retained]⟩
  obtain ⟨htally, hview, hret⟩ := foldl_pruneTag h tags
  refine ⟨⟨htally.within, htally.counts, ?_⟩, ⟨hview.groupID, hview.epoch, hview.members⟩, fun m t ht => ?_⟩
  swap
  · exact ((hret m t).mp ht).imp_right fun hnot _ _ => hnot
  have hentries := htally.entries
  dsimp only at hentries ⊢
  rw [hentries]
  simp only [add_sub_cancel_right, add_zero]
  rfl

/-! ### Runs -/

/-- What the coordinator was told, newest first: only what it accepted. -/
inductive Event
  | acknowledged (groupID : List UInt8) (member : Member) (epoch : UInt64) (tags : List Tag)
  | pruned (tags : List Tag)
  | installed (epoch : UInt64) (members : MemberSet)

/-- Reports of a tag from before do not count any more. -/
def Event.Voids (t : Tag) : Event → Prop
  | .acknowledged .. => False
  | .pruned tags => t ∈ tags
  | .installed .. => True

/-- The member has reported the tag under this group and epoch, and since then neither the tag was
pruned nor another view installed. -/
def Since (history : List Event) (groupID : List UInt8) (epoch : UInt64) (m : Member) (t : Tag) : Prop :=
  ∃ later earlier tags, history = later ++ .acknowledged groupID m epoch tags :: earlier ∧ t ∈ tags ∧
    ∀ e ∈ later, ¬ e.Voids t

variable {history : List Event} {groupID : List UInt8} {epoch : UInt64} {e : Event}

theorem Since.cons (h : Since history groupID epoch m t) (he : ¬ e.Voids t) :
    Since (e :: history) groupID epoch m t := by
  obtain ⟨later, earlier, tags, rfl, ht, hlater⟩ := h
  exact ⟨e :: later, earlier, tags, rfl, ht, forall_mem_cons.mpr ⟨he, hlater⟩⟩

theorem since_self (h : t ∈ tags) : Since (.acknowledged groupID m epoch tags :: history) groupID epoch m t :=
  ⟨[], history, tags, rfl, h, by simp⟩

/-- A call of `AcknowledgeAndCompactTarget` in progress. It has read the tombstones of its target
and has not reported yet, or it has found tags stable and compacts them; `found` is the history at
the time they were found. -/
inductive Collection
  | reporting (groupID : List UInt8) (member : Member) (epoch : UInt64) (tombstones candidates : List Tag)
  | compacting (stable : List Tag) (found : List Event)

/-- Every collection holds the membership lock for reading. -/
structure System where
  coordinator : Coordinator
  collections : List Collection := []
  history : List Event := []

inductive Step : System → System → Prop
  | acknowledge {s : System} {c' : Coordinator} {groupID : List UInt8} {member : Member} {epoch : UInt64}
      {tags : List Tag} (h : s.coordinator.acknowledge groupID member epoch tags = (c', .ok ())) :
    Step s {s with
      coordinator := c'
      history := .acknowledged groupID member epoch tags :: s.history}
  | prune {s : System} {c' : Coordinator} {groupID : List UInt8} {epoch : UInt64} {tags : List Tag}
      {removed : Int} (h : s.coordinator.pruneAcknowledgements groupID epoch tags = (c', .ok removed)) :
    Step s {s with coordinator := c', history := .pruned tags :: s.history}
  | replace {s : System} {c' : Coordinator} {members : List Member} {view : Membership}
      (hlock : s.collections = []) (h : s.coordinator.replaceMembership members = (c', .ok view)) :
    Step s {s with coordinator := c', history := .installed c'.epoch c'.members :: s.history}
  | install {s : System} {c' : Coordinator} {membership : Membership}
      (hlock : s.collections = []) (h : s.coordinator.installMembership membership = (c', .ok ())) :
    Step s {s with coordinator := c', history :=
      if c'.epoch = s.coordinator.epoch then s.history
      else .installed c'.epoch c'.members :: s.history}
  /-- The call takes the membership lock and reads the tombstones of the target. -/
  | begin {s : System} (groupID : List UInt8) (member : Member) (epoch : UInt64)
      (tombstones candidates : List Tag) (h : validateTombstones tombstones = .ok ()) :
    Step s {s with collections := .reporting groupID member epoch tombstones candidates :: s.collections}
  /-- With the lock of the records it reports and finds the stable tags. -/
  | report {s : System} {c' : Coordinator} {groupID : List UInt8} {member : Member} {epoch : UInt64}
      {tombstones candidates : List Tag} {before after : List Collection}
      (hcall : s.collections = before ++ .reporting groupID member epoch tombstones candidates :: after)
      (h : s.coordinator.acknowledgeLocked groupID member epoch tombstones = (c', .ok ())) :
    Step s {
      coordinator := c'
      history := .acknowledged groupID member epoch tombstones :: s.history
      collections := before ++ .compacting (c'.stableTombstonesLocked candidates)
        (.acknowledged groupID member epoch tombstones :: s.history) :: after}
  | refuse {s : System} {c' : Coordinator} {groupID : List UInt8} {member : Member} {epoch : UInt64}
      {tombstones candidates : List Tag} {before after : List Collection} {err : Err}
      (hcall : s.collections = before ++ .reporting groupID member epoch tombstones candidates :: after)
      (h : s.coordinator.acknowledgeLocked groupID member epoch tombstones = (c', .error err)) :
    Step s {s with coordinator := c', collections := before ++ after}
  /-- The target compacts the tags it is given, and the call ends. -/
  | compact {s : System} {stable : List Tag} {found : List Event} {before after : List Collection}
      (hcall : s.collections = before ++ .compacting stable found :: after) :
    Step s {s with collections := before ++ after}

inductive Reachable : System → Prop
  | new {c : Coordinator} {groupID : List UInt8} {members : List Member}
      (h : newCoordinator groupID members = .ok c) : Reachable {coordinator := c}
  | newAt {c : Coordinator} {membership : Membership}
      (h : newCoordinatorAtMembership membership = .ok c) : Reachable {coordinator := c}
  | step {s s' : System} (hs : Reachable s) (h : Step s s') : Reachable s'

/-- What a compacting call may rely on: every member had reported each tag when it was found
stable, and the view has not changed since. -/
structure Justified (s : System) (stable : List Tag) (found : List Event) : Prop where
  since : ∀ t ∈ stable, ∀ m ∈ s.coordinator.members,
    Since found s.coordinator.groupID s.coordinator.epoch m t
  sameEpoch : ∃ later, s.history = later ++ found ∧ ∀ epoch members, .installed epoch members ∉ later

structure Inv (s : System) : Prop where
  tallied : Tallied s.coordinator 0
  recorded : ∀ m t, t ∈ s.coordinator.retained m →
    Since s.history s.coordinator.groupID s.coordinator.epoch m t
  justified : ∀ stable found, .compacting stable found ∈ s.collections → Justified s stable found

variable {s s' : System} {before after : List Collection}

theorem Justified.later {stable : List Tag} {found : List Event}
    (h : Justified s stable found) (hview : SameView s.coordinator c')
    (he : ∀ epoch members, e ≠ .installed epoch members) (collections : List Collection) :
    Justified ⟨c', collections, e :: s.history⟩ stable found := by
  obtain ⟨later, heq, hlater⟩ := h.sameEpoch
  refine ⟨fun t ht m hm => ?_, e :: later, by rw [heq]; rfl, fun epoch members hmem => ?_⟩
  · rw [hview.groupID, hview.epoch]
    exact h.since t ht m (hview.members ▸ hm)
  rcases mem_cons.mp hmem with hmem | hmem
  · exact he epoch members hmem.symm
  · exact hlater epoch members hmem

/-- A count that has reached the number of members means all of them. -/
theorem Tallied.stable (h : Tallied c 0) {candidates : List Tag}
    (ht : t ∈ c.stableTombstonesLocked candidates) (hm : m ∈ c.members) : t ∈ c.retained m := by
  have hcount := (List.mem_filter.mp ht).2
  rw [decide_eq_true_eq, h.counts, ← Std.ExtTreeSet.length_toList, countP_eq_length] at hcount
  exact Std.ExtTreeSet.contains_iff_mem.mp (hcount m (Std.ExtTreeSet.mem_toList.mpr hm))

theorem acknowledgeLocked_error {tombstones : List Tag} {err : Err}
    (h : c.acknowledgeLocked groupID member epoch tombstones = (c', .error err)) : c' = c := by
  unfold acknowledgeLocked at h
  split_ifs at h <;> cases h <;> rfl

theorem Inv.acknowledged (h : Inv s) (hack : s.coordinator.acknowledgeLocked groupID member epoch tags =
      (c', .ok ())) : SameView s.coordinator c' ∧ Tallied c' 0 ∧ ∀ m t, t ∈ c'.retained m →
      Since (.acknowledged groupID member epoch tags :: s.history) c'.groupID c'.epoch m t := by
  have hleaves := acknowledgeLocked_spec h.tallied groupID member epoch tags
  rw [hack] at hleaves
  obtain ⟨htally, hview, hret⟩ := hleaves
  refine ⟨hview, htally, fun m t ht => ?_⟩
  rw [hview.groupID, hview.epoch]
  rcases hret m t ht with ht | ⟨-, rfl, rfl, rfl, ht⟩
  · exact (h.recorded m t ht).cons id
  · exact since_self ht

theorem inv_view {members : MemberSet} (epoch : UInt64) : Inv ⟨c.view epoch members, [], history⟩ :=
  ⟨.empty rfl rfl rfl, fun m t ht => by simp [retained, view] at ht, by simp⟩

theorem installMembership_ok {membership : Membership} (h : c.installMembership membership = (c', .ok ())) :
    c' = c ∨ ∃ members, c' = c.view membership.epoch members ∧ membership.epoch ≠ c.epoch := by
  unfold installMembership at h
  by_cases hzero : membership.epoch = 0
  · rw [if_pos hzero] at h
    cases h
  rw [if_neg hzero] at h
  split at h
  · cases h
  rename_i members _
  split_ifs at h with hgroup hback hsame hmembers
  · cases h
  · cases h
  · cases h
    exact .inl rfl
  · cases h
  · cases h
    exact .inr ⟨members, rfl, hsame⟩

theorem mem_of_call {call x : Collection}
    (hcall : s.collections = before ++ call :: after) (hx : x ∈ before ++ after) : x ∈ s.collections := by
  rw [hcall]
  rcases mem_append.mp hx with hx | hx
  · exact mem_append_left _ hx
  · exact mem_append_right _ (mem_cons_of_mem _ hx)

theorem mem_of_replaced {call new x : Collection}
    (hcall : s.collections = before ++ call :: after) (hx : x ∈ before ++ new :: after) :
    x = new ∨ x ∈ s.collections := by
  rcases mem_append.mp hx with hx | hx
  · exact .inr (mem_of_call hcall (mem_append_left _ hx))
  rcases mem_cons.mp hx with hx | hx
  · exact .inl hx
  · exact .inr (mem_of_call hcall (mem_append_right _ hx))

theorem Inv.collections (h : Inv s) {calls : List Collection}
    (hcalls : ∀ stable found, .compacting stable found ∈ calls → .compacting stable found ∈ s.collections) :
    Inv {s with collections := calls} := by
  refine ⟨h.tallied, h.recorded, fun stable found hc => ?_⟩
  obtain ⟨hsince, hsame⟩ := h.justified stable found (hcalls stable found hc)
  exact ⟨hsince, hsame⟩

theorem Inv.step (h : Inv s) (hstep : Step s s') : Inv s' := by
  cases hstep with
  | acknowledge hack =>
    unfold acknowledge at hack
    split at hack
    · cases hack
    obtain ⟨hview, htally, hrec⟩ := h.acknowledged hack
    exact ⟨htally, hrec, fun stable found hc => (h.justified stable found hc).later hview (by simp) _⟩
  | @prune c' groupID epoch tags removed hprune =>
    have hleaves := pruneAcknowledgements_spec h.tallied groupID epoch tags
    rw [hprune] at hleaves
    obtain ⟨htally, hview, hret⟩ := hleaves
    refine ⟨htally, fun m t ht => ?_, fun stable found hc =>
      (h.justified stable found hc).later hview (by simp) _⟩
    obtain ⟨ht, hnot⟩ := hret m t ht
    dsimp only
    rw [hview.groupID, hview.epoch]
    exact (h.recorded m t ht).cons (hnot _ rfl)
  | replace hlock hrep =>
    unfold replaceMembership at hrep
    split at hrep
    · cases hrep
    split_ifs at hrep
    · cases hrep
    cases hrep
    rw [hlock]
    exact inv_view _
  | install hlock hinst =>
    rcases installMembership_ok hinst with rfl | ⟨members, rfl, hne⟩
    · rw [if_pos rfl]
      exact h
    · rw [hlock]
      exact inv_view _
  | begin _ _ _ _ _ _ =>
    refine h.collections fun stable found hc => ?_
    rcases mem_cons.mp hc with hc | hc
    · cases hc
    · exact hc
  | report hcall hack =>
    obtain ⟨hview, htally, hrec⟩ := h.acknowledged hack
    refine ⟨htally, hrec, fun stable found hc => ?_⟩
    rcases mem_of_replaced hcall hc with hnew | hold
    · -- the call that has just found its tags stable
      cases hnew
      exact ⟨fun t ht m hm => hrec m t (htally.stable ht hm), [], rfl, by simp⟩
    · exact (h.justified stable found hold).later hview (by simp) _
  | refuse hcall hack =>
    have hc := acknowledgeLocked_error hack
    subst hc
    exact h.collections fun _ _ => mem_of_call hcall
  | compact hcall => exact h.collections fun _ _ => mem_of_call hcall

theorem Reachable.inv (h : Reachable s) : Inv s := by
  have hempty : ∀ c : Coordinator, c.acknowledgements = ∅ → c.acknowledgementCounts = ∅ →
      c.acknowledgementEntries = 0 → Inv {coordinator := c} := fun c ha hc he =>
    ⟨.empty ha hc he, fun m t ht => by simp [retained, ha] at ht, by simp⟩
  induction h with
  | new hnew =>
    unfold newCoordinator at hnew
    split_ifs at hnew
    split at hnew <;> cases hnew
    exact hempty _ rfl rfl rfl
  | newAt hnew =>
    unfold newCoordinatorAtMembership at hnew
    split_ifs at hnew
    split at hnew <;> cases hnew
    exact hempty _ rfl rfl rfl
  | step _ hs ih => exact ih.step hs

/-- In every run: the count of a tag is the number of members that retain it and the number of
entries is the sum of what they retain; whatever is retained was reported by a member of the view,
under its group and epoch, since the tag was last pruned; and what a collection is about to
compact was so reported by every member when it was found stable, in the view that is still
current. -/
theorem collection_fail_closed (h : Reachable s) :
    (∀ t : Tag, s.coordinator.acknowledgementCounts[t]?.getD 0 =
      s.coordinator.members.toList.countP fun m => (s.coordinator.retained m).contains t) ∧
    s.coordinator.acknowledgementEntries =
      ((s.coordinator.members.toList.map fun m => (s.coordinator.retained m).size).sum : Nat) ∧
    (∀ m t, t ∈ s.coordinator.retained m → m ∈ s.coordinator.members ∧
      Since s.history s.coordinator.groupID s.coordinator.epoch m t) ∧
    ∀ stable found, .compacting stable found ∈ s.collections →
      (∃ later, s.history = later ++ found ∧ ∀ epoch members, .installed epoch members ∉ later) ∧
      ∀ t ∈ stable, ∀ m ∈ s.coordinator.members,
        Since found s.coordinator.groupID s.coordinator.epoch m t := by
  have hi := h.inv
  refine ⟨hi.tallied.counts, by simpa using hi.tallied.entries, fun m t ht => ⟨?_, hi.recorded m t ht⟩,
    fun stable found hc => ?_⟩
  · unfold retained at ht
    cases hm : s.coordinator.acknowledgements[m]? with
    | none => simp [hm] at ht
    | some tags => exact hi.tallied.within m tags hm
  · have hj := hi.justified stable found hc
    exact ⟨hj.sameEpoch, hj.since⟩

def soleMember : Coordinator := {groupID := [71], epoch := 1, members := (∅ : MemberSet).insert [1]}

theorem newCoordinator_soleMember : newCoordinator [71] [[1]] = .ok soleMember := by
  have hblank : blank [71] = false ∧ blank [1] = false := by decide
  simp [newCoordinator, validateMembers, addMembers, hblank, soleMember]

def soleTag : Tag := ⟨[5], 1, 0⟩

/-- The only member has reported a tag, in a call that is about to collect it. -/
def reported : System :=
  let event : Event := .acknowledged [71] [1] 1 [soleTag]
  let c := (soleMember.acknowledgeLocked [71] [1] 1 [soleTag]).1
  {coordinator := c, history := [event], collections := [.compacting (c.stableTombstonesLocked [soleTag]) [event]]}

theorem soleTag_mem_stable : soleTag ∈ reported.coordinator.stableTombstonesLocked [soleTag] := by decide +kernel

theorem reachable_reported : Reachable reported := by
  have h₁ := (Reachable.new newCoordinator_soleMember).step (.begin [71] [1] 1 [soleTag] [soleTag] (by decide))
  have hack : (soleMember.acknowledgeLocked [71] [1] 1 [soleTag]) = (reported.coordinator, .ok ()) :=
    Prod.ext rfl (by decide +kernel)
  have hcall : _ = [] ++ Collection.reporting [71] [1] 1 [soleTag] [soleTag] :: [] := rfl
  have h₂ := h₁.step (.report hcall hack)
  exact h₂

theorem collection_fail_closed_sole_member : let t : Tag := ⟨[5], 1, 0⟩
    ∃ s stable found, Reachable s ∧ .compacting stable found ∈ s.collections ∧ t ∈ stable ∧
      Since found s.coordinator.groupID s.coordinator.epoch [1] t := by
  have hm : ([1] : Member) ∈ reported.coordinator.members := by decide +kernel
  obtain ⟨-, -, -, hcollect⟩ := collection_fail_closed reachable_reported
  exact ⟨_, _, _, reachable_reported, mem_cons_self .., soleTag_mem_stable,
    (hcollect _ _ (mem_cons_self ..)).2 _ soleTag_mem_stable [1] hm⟩

/-- The records of a tag may be pruned between finding it stable and compacting it. -/
theorem pruned_before_compaction :
    ∃ s, Reachable s ∧ ∃ stable found, .compacting stable found ∈ s.collections ∧
      ∃ t ∈ stable, ∃ m ∈ s.coordinator.members,
        ¬ Since s.history s.coordinator.groupID s.coordinator.epoch m t := by
  let c := (reported.coordinator.pruneAcknowledgements [71] 1 [soleTag]).1
  have hprune : (reported.coordinator.pruneAcknowledgements [71] 1 [soleTag]).2 = .ok 1 := by decide +kernel
  have h := reachable_reported.step (.prune (Prod.ext rfl hprune))
  have hm : ([1] : Member) ∈ c.members := by decide +kernel
  refine ⟨_, h, _, _, mem_cons_self .., soleTag, soleTag_mem_stable, [1], hm, ?_⟩
  rintro ⟨later, earlier, tags, heq, -, hlater⟩
  cases later with
  | nil => cases (List.cons.inj heq).1
  | cons e later =>
    have hhead := (List.cons.inj heq).1
    exact hlater e (mem_cons_self ..) (hhead ▸ mem_singleton_self soleTag)

end Crdt.Gc
