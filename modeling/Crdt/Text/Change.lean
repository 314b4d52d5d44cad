import Crdt.Text.Kept

/-! Changes that a caller prepares and then applies.

`Changed` is what becomes of a text that is ready when a prepared insertion or deletion is applied to it: it
is ready again, its clock has seen every tag that the delta names, and it has not gone far. -/
namespace Crdt.Text

open Clock Rga Wire MapLoop

variable {r r₁ r' : RGA} {change : Delta} {encoded : List UInt8} {e : Env} {limits : Limits}
  {now : Int64} {chain : List (Position × Rune)} {millis : Nat → Int64} {value : List Rune}
  {p : Position} {tag : Tag}

structure Changed (r r' : RGA) (change : Delta) (taken : Nat) : Prop where
  ready : Ready r'
  le : r.clock.stamp ≤ r'.clock.stamp
  limit : r'.clock.stamp ≤ max r.clock.stamp physicalEnd + (taken + 1)
  names : ∀ tag, Names change.nodes change.tombstones tag → tagStamp tag ≤ r'.clock.stamp

theorem encodePrepared_eq_ok {delta : Delta}
    (h : RGA.encodePrepared e r delta limits = some (r', .ok (change, encoded))) : r' = r ∧ change = delta := by
  unfold RGA.encodePrepared at h
  cases hm : delta.marshalRunBinaryWithLimits e limits with
  | broken =>
    rw [hm] at h
    cases h
  | error err =>
    rw [hm] at h
    cases h
  | ok b =>
    rw [hm] at h
    cases h
    exact ⟨rfl, rfl⟩

theorem nowChain_issued {i : Nat} {clock clock' : HLC}
    (h : nowChain millis i clock value = (clock', .ok chain)) :
    ∀ x ∈ chain.map Prod.fst, tagStamp x ≤ clock'.stamp := by
  induction value generalizing i clock chain with
  | nil =>
    cases h
    exact nofun
  | cons v rest ih =>
    unfold nowChain at h
    rcases hnow : clock.now (millis i) with ⟨clock₁, err | id⟩
    · rw [hnow] at h
      cases h
    rcases hrest : nowChain millis (i + 1) clock₁ rest with ⟨clock₂, err | chain₂⟩
    · simp only [hnow, hrest] at h
      cases h
    simp only [hnow, hrest] at h
    cases h
    refine List.forall_mem_cons.mpr ⟨?_, ih hrest⟩
    rw [(HLC.now_ok hnow).1]
    exact (nowChain_le hrest).2.1

theorem nextTag_le {millis : Int64} {tag : Position} (h : r.nextTag millis = (r', .ok tag)) :
    tag = r'.clock.tag ∧ r'.clock.stamp ≤ max r.clock.stamp physicalEnd + 1 := by
  unfold RGA.nextTag at h
  rcases hn : r.clock.now millis with ⟨clock, err | tag'⟩
  · rw [hn] at h
    cases h
  rw [hn] at h
  cases h
  exact ⟨(HLC.now_ok hn).1, HLC.now_le hn⟩

theorem Ready.reached_le (h : Ready r) (hp : r.Reached p) : tagStamp p ≤ r.clock.stamp := by
  cases hp with
  | inl hzero =>
    rw [hzero]
    exact Nat.zero_le _
  | inr hin =>
    obtain ⟨item, hitem⟩ := mem_iff.mp hin
    exact h.sound.ahead p item (by rw [h.known, hitem])

theorem Ready.names_le (h : Ready r) (htag : Names r.nodes r.tombstones tag) :
    tagStamp tag ≤ r.clock.stamp := by
  rcases htag with hnode | hparent | htomb
  · exact h.reached_le (.inr hnode)
  · obtain ⟨x, item, hx, hparent⟩ := hparent
    exact h.reached_le (h.inv.indexed.forested.parent_known (parentOf_eq_some.mpr ⟨item, hx, hparent⟩))
  · exact h.sound.buried tag htomb

theorem applyDelta_moves (happ : r.applyDelta change now = some (r', .ok ())) :
    r.clock.stamp ≤ r'.clock.stamp := by
  cases applyDelta_clock happ with
  | inl heq => rw [heq]
  | inr hw =>
    obtain ⟨clock, hw, heq⟩ := hw
    obtain ⟨-, hle, -⟩ := witnessGreatest_ahead hw
    rw [heq]
    exact hle

/-- What keeps clear of the end does not take the clock there. -/
theorem lt_endStamp {names : Tag → Prop} (hle : ∀ bound, (∀ tag, names tag → tagStamp tag ≤ bound) →
      r.clock.stamp ≤ bound → physicalEnd ≤ bound → r'.clock.stamp ≤ bound + 1)
    (hb : ∀ tag, names tag → tagStamp tag + 1 < endStamp) (hclock : r.clock.stamp + 1 < endStamp) :
    r'.clock.stamp < endStamp := by
  obtain ⟨bound, hbound, hphysical⟩ : ∃ bound, endStamp = bound + 2 ∧ physicalEnd ≤ bound :=
    ⟨endStamp - 2, by decide, by decide⟩
  rw [hbound] at hb hclock ⊢
  have := hle bound (fun tag htag => Nat.le_of_lt_succ (Nat.lt_of_succ_lt_succ (hb tag htag)))
    (Nat.le_of_lt_succ (Nat.lt_of_succ_lt_succ hclock)) hphysical
  omega

theorem applyDelta_lt_end (hb : ∀ tag, Names change.nodes change.tombstones tag →
      tagStamp tag + 1 < endStamp) (hclock : r.clock.stamp + 1 < endStamp)
    (happ : r.applyDelta change now = some (r', .ok ())) : r'.clock.stamp < endStamp :=
  lt_endStamp (fun _ hb hc hp => applyDelta_stamp_le hb hc hp happ) hb hclock

theorem installState_lt_end {nodes : TagMap (Node Rune)} {tombstones : TagSet}
    (hb : ∀ tag, Names nodes tombstones tag → tagStamp tag + 1 < endStamp) (hclock : r.clock.stamp + 1 < endStamp)
    (happ : r.installState nodes tombstones now = some (r', .ok ())) : r'.clock.stamp < endStamp :=
  lt_endStamp (fun _ hb hc hp => installState_stamp_le hb hc hp happ) hb hclock

theorem Edited.names_le {buried : List Position}
    (h : Edited r r' p chain buried) (hnodes : change.nodes = growChain ∅ p chain)
    (htombs : ∀ x, x ∈ change.tombstones ↔ x ∈ buried)
    (htag : Names change.nodes change.tombstones tag) : tagStamp tag ≤ r'.clock.stamp := by
  have hnodup : (chain.map Prod.fst).Nodup := h.fresh.ascending.imp ne_of_lt
  have hnode : ∀ {x : Position} {item : Node Rune}, change.nodes[x]? = some item → r'.nodes[x]? = some item := by
    intro x item hx
    rw [h.nodes, getElem?_growChain hnodup, ← hnodes, hx]
    rfl
  apply h.ready.names_le
  rcases htag with hin | hparent | htomb
  · obtain ⟨item, hitem⟩ := mem_iff.mp hin
    exact .inl (mem_iff.mpr ⟨item, hnode hitem⟩)
  · obtain ⟨x, item, hx, hparent⟩ := hparent
    exact .inr (.inl ⟨x, item, hnode hx, hparent⟩)
  · exact .inr (.inr ((h.tombstones tag).mpr (.inr ((htombs tag).mp htomb))))

theorem prepareInsert_changed (h : Ready r) {offset : Int} (hne : value ≠ [])
    (hprep : r.prepareInsertRunBinaryWithLimits e offset value limits millis = some (r₁, .ok (change, encoded)))
    (happ : r₁.applyDelta change now = some (r', .ok ())) : Changed r r' change value.length := by
  obtain ⟨⟨r₀, res⟩, hprep, hencode⟩ := Option.bind_eq_some_iff.mp hprep
  rcases res with err | ⟨delta, predecessor⟩
  · cases hencode
  obtain ⟨hr₁, hchange⟩ := encodePrepared_eq_ok hencode
  rw [hr₁, hchange] at happ
  unfold RGA.prepareInsertWithPredecessor at hprep
  split_ifs at hprep with hneg htext hlen
  · cases hprep
  · cases hprep
  all_goals obtain ⟨previous, hprev, hprep⟩ := Option.bind_eq_some_iff.mp hprep
  · cases hprep
  rcases hch : nowChain millis 0 r.clock value with ⟨clock, err | chain⟩
  · rw [hch] at hprep
    cases hprep
  rw [hch] at hprep
  cases hprep
  obtain ⟨-, hissued⟩ := nowChain_spec hch
  obtain ⟨-, hle, hlimit⟩ := nowChain_le hch
  obtain ⟨-, hreached⟩ := predecessor_spec h.inv (not_lt.mp hneg) (not_lt.mp hlen) hprev
  have hedited := applyDelta_chain h hissued hreached happ
  have htags : ∀ x ∈ chain.map Prod.fst, tagStamp x ≤ max r.clock.stamp physicalEnd + value.length :=
    fun x hx => (nowChain_issued hch x hx).trans hlimit
  have hanchor : tagStamp (previous.getD .zero) ≤ max r.clock.stamp physicalEnd + value.length :=
    (h.reached_le hreached).trans ((le_max_left ..).trans (Nat.le_add_right _ _))
  have hphysical : physicalEnd ≤ max r.clock.stamp physicalEnd + value.length :=
    (le_max_right ..).trans (Nat.le_add_right _ _)
  have hbound : r'.clock.stamp ≤ max r.clock.stamp physicalEnd + value.length + 1 := by
    refine applyDelta_stamp_le (fun tag htag => ?_) ?_ hphysical happ
    · rcases htag with hnode | hparent | htomb
      · exact htags tag ((mem_growChain.mp hnode).resolve_left (by simp))
      · obtain ⟨x, item, hx, hparent⟩ := hparent
        obtain ⟨-, hpar⟩ := of_getElem?_growChain hissued.ascending hx
        rw [hparent] at hpar
        cases hpar with
        | inl hp => rw [hp]; exact hanchor
        | inr hp => exact htags tag hp.1
      · simp [chainDelta] at htomb
    · exact hlimit
  have hmoved := applyDelta_moves happ
  refine ⟨hedited.ready, hle.trans hmoved, by omega, fun tag htag => ?_⟩
  rw [hchange] at htag
  exact hedited.names_le rfl (fun x => by simp [chainDelta]) htag

theorem prepareDelete_changed (h : Ready r) {offset count : Int}
    (hprep : r.prepareDeleteRunBinaryWithLimits e offset count limits = some (r₁, .ok (change, encoded)))
    (happ : r₁.applyDelta change now = some (r', .ok ())) : Changed r r' change 0 := by
  unfold RGA.prepareDeleteRunBinaryWithLimits at hprep
  split_ifs at hprep with hneg hrange
  · cases hprep
  · cases hprep
  rw [not_or, not_lt] at hneg
  obtain ⟨run, hrun, hencode⟩ := Option.bind_eq_some_iff.mp hprep
  cases run with
  | none => cases hencode
  | some positions =>
    obtain ⟨hr₁, hchange⟩ := encodePrepared_eq_ok hencode
    rw [hr₁, hchange] at happ
    obtain ⟨k, hk⟩ := Int.eq_ofNat_of_zero_le hneg.1
    rw [hk] at hrun
    obtain ⟨hpositions, -⟩ := visibleRun_spec h.inv hrun
    have hedited := applyDelta_tombstones h happ
    have hbound : r'.clock.stamp ≤ max r.clock.stamp physicalEnd + 1 := by
      refine applyDelta_stamp_le (fun tag htag => ?_) (le_max_left ..) (le_max_right ..) happ
      refine le_trans ?_ (le_max_left ..)
      rcases htag with hnode | hparent | htomb
      · simp at hnode
      · obtain ⟨x, item, hx, -⟩ := hparent
        simp at hx
      rw [TagSet.mem_foldl_insert] at htomb
      have hvisible : tag ∈ r.visible := by
        have hin := htomb.resolve_right (by simp)
        rw [hpositions] at hin
        exact List.mem_of_mem_drop (List.mem_of_mem_take hin)
      exact h.reached_le (.inr ((mem_projection h.inv.indexed.forested).mp hvisible).1)
    refine ⟨hedited.ready, applyDelta_moves happ, by omega, fun tag htag => ?_⟩
    rw [hchange] at htag
    refine hedited.names_le rfl (fun x => ?_) htag
    rw [TagSet.mem_foldl_insert]
    simp

end Crdt.Text
