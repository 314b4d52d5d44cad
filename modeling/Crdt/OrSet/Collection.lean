import Crdt.Gc.FailClosed
import Crdt.OrSet.Denotation
import Crdt.OrSet.Group

/-! Collection in a group of OR-Sets.

A tag is collected once every member has reported its tombstone, so at the time of the first
collection no member has it live and no delta that may still be delivered adds it (`Sound.collect`).
From then on nothing can bring it back: what a call joins comes from a member or from a delta
that is not retired, and a new tag is past all that were issued. -/
namespace Crdt.OrSet

open Clock Gc MapLoop List

variable {ι T : Type} [LinearOrder T]

/-! ### What a set does with what comes in -/

/-- A state as a delta. -/
def ORSet.view (s : ORSet T) : ORSetDelta T := ⟨s.elements, s.tombstones⟩

/-- The clock may have moved on, and nothing else but the contents has changed. -/
structure Moves (s s' : ORSet T) : Prop where
  codecID_eq : s'.codecID = s.codecID
  clockID_eq : s'.clock.replicaID = s.clock.replicaID
  stamp_le : s.clock.stamp ≤ s'.clock.stamp

theorem Moves.refl (s : ORSet T) : Moves s s := ⟨rfl, rfl, le_rfl⟩

theorem joins_empty {adds : Adds T} {tombstones : TagSet} (h : Apart adds tombstones) :
    Joins adds tombstones (∅ : Adds T) ∅ adds tombstones := by
  refine ⟨by simp, fun e t => ?_, id⟩
  simp only [not_live_empty, or_false]
  exact ⟨fun hl => ⟨hl, h e t hl⟩, And.left⟩

/-- What comes in is joined, or there is no timestamp left and nothing changes. With a reading
before the epoch nothing changes either. -/
inductive Outcome (s : ORSet T) (d : ORSetDelta T) (millis : Int64) : ORSet T × Except Err Unit → Prop
  | joined {s' : ORSet T} (hj : Joins s.elements s.tombstones d.adds d.tombstones s'.elements s'.tombstones)
      (hm : Moves s s') (hneg : millis < 0 → s' = s) : Outcome s d millis (s', .ok ())
  | exhausted : Outcome s d millis (s, .error (.clock .clockExhausted))

variable {s s' other : ORSet T} {d : ORSetDelta T} {millis : Int64} {adds : Adds T}
  {tombstones : TagSet} {t tag : Tag}
  {acc : Option Tag} {l : List (T × TagSet)} {err : Clock.Err} {c : Coordinator}

theorem foldl_greaterTag_none {l : List Tag} (h : l.foldl greaterTag acc = none) : acc = none ∧ l = [] := by
  induction l generalizing acc with
  | nil => exact ⟨h, rfl⟩
  | cons x l ih =>
    have hacc := (ih h).1
    revert hacc
    cases acc with
    | none => exact nofun
    | some g =>
      rw [greaterTag]
      split_ifs <;> exact nofun

omit [LinearOrder T] in
theorem foldl_adds_greaterTag_none
    (h : l.foldl (fun greatest p => p.2.toList.foldl greaterTag greatest) acc = none) :
    acc = none ∧ ∀ p ∈ l, p.2.toList = [] := by
  induction l generalizing acc with
  | nil => exact ⟨h, nofun⟩
  | cons p l ih =>
    obtain ⟨hacc, hrest⟩ := ih h
    obtain ⟨hacc, hp⟩ := foldl_greaterTag_none hacc
    exact ⟨hacc, forall_mem_cons.mpr ⟨hp, hrest⟩⟩

theorem validateState_valid (h : validateState adds tombstones = .ok ()) :
    (∀ p ∈ adds.toList, ∀ t ∈ p.2.toList, t.valid = true) ∧ ∀ t ∈ tombstones.toList, t.valid = true := by
  unfold validateState at h
  split_ifs at h with hadds htombs
  simp only [Bool.not_eq_true', Bool.not_eq_false, all_eq_true] at hadds htombs
  exact ⟨hadds, htombs⟩

theorem validateState_of_valid (hadds : ∀ e t, Live adds e t → t.valid = true)
    (htombs : ∀ t ∈ tombstones, t.valid = true) : validateState adds tombstones = .ok () := by
  unfold validateState
  rw [if_neg, if_neg]
  · simp only [Bool.not_eq_true', Bool.not_eq_false, all_eq_true]
    exact fun t ht => htombs t (Std.ExtTreeSet.mem_toList.mp ht)
  · simp only [Bool.not_eq_true', Bool.not_eq_false, all_eq_true]
    exact fun p hp t ht => hadds p.1 t ⟨p.2, mem_toList.mp hp, Std.ExtTreeSet.mem_toList.mp ht⟩

/-- A delta that adds for one element, or that only removes, needs no check for tags that stand in it
twice. -/
theorem valid_of_small (hadds : ∀ e t, Live d.adds e t → t.valid = true) (htombs : ∀ t ∈ d.tombstones, t.valid = true)
    (hone : d.adds.size ≤ 1) (hapart : d.adds.size = 0 ∨ d.tombstones.size = 0) : d.Valid := by
  unfold ORSetDelta.Valid validateDeltaState
  rw [validateState_of_valid hadds htombs]
  refine if_neg ?_
  simp only [Bool.or_eq_true, Bool.and_eq_true, decide_eq_true_eq]
  omega

theorem greatestStateTag_valid (hv : validateState adds tombstones = .ok ())
    (h : greatestStateTag adds tombstones = some tag) : tag.valid = true := by
  obtain ⟨hadds, htombs⟩ := validateState_valid hv
  have hstep : ∀ acc : Option Tag, (∀ g, acc = some g → g.valid = true) → ∀ t, t.valid = true →
      ∀ g, greaterTag acc t = some g → g.valid = true := by
    intro acc hacc t ht g hg
    cases acc with
    | none => exact Option.some.inj hg ▸ ht
    | some g' =>
      rw [greaterTag] at hg
      split_ifs at hg
      · exact Option.some.inj hg ▸ ht
      · exact hacc g hg
  suffices hall : ∀ g, greatestStateTag adds tombstones = some g → g.valid = true from hall tag h
  refine foldlRecOn tombstones.toList _ ?_ fun acc hacc t ht => hstep acc hacc t (htombs t ht)
  refine foldlRecOn (motive := fun acc => ∀ g : Tag, acc = some g → g.valid = true) adds.toList _ nofun
    fun acc hacc p hp => ?_
  exact foldlRecOn p.2.toList _ hacc fun acc hacc t ht => hstep acc hacc t (hadds p hp t ht)

theorem subsumesState_of_none {sourceAdds : Adds T} {sourceTombstones : TagSet}
    (h : greatestStateTag sourceAdds sourceTombstones = none) :
    subsumesState adds tombstones sourceAdds sourceTombstones = true := by
  obtain ⟨hacc, htombs⟩ := foldl_greaterTag_none h
  obtain ⟨-, hadds⟩ := foldl_adds_greaterTag_none hacc
  unfold subsumesState
  rw [htombs, all_nil, Bool.true_and, all_eq_true]
  intro p hp
  rw [hadds p hp, all_nil]

theorem witness_refused {h h' : HLC} (hv : tag.valid = true)
    (he : h.witness tag millis = (h', .error err)) : err = .clockExhausted := by
  unfold HLC.witness at he
  rw [hv, Bool.not_true, if_neg Bool.false_ne_true] at he
  unfold physicalMillis at he
  split_ifs at he with hneg
  · cases he
    rfl
  dsimp only at he
  unfold HLC.witnessStamp nextTimestamp at he
  dsimp only at he
  split_ifs at he <;> cases he <;> rfl

theorem witness_nonneg {h h' : HLC} (he : h.witness tag millis = (h', .ok ())) : ¬millis < 0 := by
  unfold HLC.witness physicalMillis at he
  intro hneg
  split_ifs at he <;> cases he

section
variable (h : Apart s.elements s.tombstones)
include h

theorem join_outcome (hv : validateState d.adds d.tombstones = .ok ()) :
    Outcome s d millis (if subsumesState s.elements s.tombstones d.adds d.tombstones then (s, .ok ())
      else s.join d.adds d.tombstones millis) := by
  split_ifs with hsub
  · exact .joined (subsumesState_spec h hsub) (.refl s) fun _ => rfl
  unfold ORSet.join
  cases hg : greatestStateTag d.adds d.tombstones with
  | none => exact absurd (subsumesState_of_none hg) hsub
  | some tag =>
    rcases hw : s.clock.witness tag millis with ⟨clock, err | ⟨⟩⟩
    · rw [HLC.witness_error hw, witness_refused (greatestStateTag_valid hv hg) hw] at hw
      simp only [hw]
      exact .exhausted
    simp only [hw]
    obtain ⟨hid, hlt, -⟩ := HLC.witness_ok hw
    exact .joined (joinState_spec h) ⟨rfl, hid, hlt.le⟩ fun hneg => absurd hneg (witness_nonneg hw)

theorem applyDelta_outcome (hd : d.Valid) (millis : Int64) : Outcome s d millis (s.applyDelta d millis) := by
  unfold ORSet.applyDelta
  rw [show validateDeltaState d.adds d.tombstones = .ok () from hd]
  refine join_outcome h ?_
  unfold ORSetDelta.Valid validateDeltaState at hd
  rcases validateState_cases d.adds d.tombstones with hv | hv
  · exact hv
  · rw [hv] at hd
    cases hd

theorem merge_outcome (hc : s.codecID = other.codecID)
    (hv : validateState other.elements other.tombstones = .ok ()) (millis : Int64) :
    Outcome s other.view millis (s.merge other millis) := by
  unfold ORSet.merge
  rw [if_neg (not_not_intro hc), hv]
  exact join_outcome h hv

end

/-! ### The invariant of a group -/

/-- What was issued is all that a delta or a state has. -/
structure Sourced (issued : List (T × Tag)) (d : ORSetDelta T) : Prop where
  live : ∀ {e t}, Live d.adds e t → (e, t) ∈ issued
  buried : ∀ {t}, t ∈ d.tombstones → ∃ e, (e, t) ∈ issued

theorem Sourced.mono {issued issued' : List (T × Tag)} (h : Sourced issued d) (hsub : issued ⊆ issued') :
    Sourced issued' d :=
  ⟨fun hl => hsub (h.live hl), fun ht => (h.buried ht).imp fun _ he => hsub he⟩

namespace Group

/-- A member has a tombstone, or had one that is collected. -/
def Buried (g : Group ι T) (i : ι) (t : Tag) : Prop := t ∈ (g.sets i).tombstones ∨ t ∈ g.collected

/-- A tag that nothing can bring back. -/
structure Dead (g : Group ι T) (t : Tag) : Prop where
  issued : ∃ e, (e, t) ∈ g.issued
  sets : ∀ i e, ¬Live (g.sets i).elements e t
  deltas : ∀ n d, g.retired ≤ n → g.deltas[n]? = some d → ∀ e, ¬Live d.adds e t

structure Sound (g : Group ι T) : Prop where
  members : ∀ m, m ∈ g.coordinator.members ↔ ∃ i, g.name i = m
  names : Function.Injective g.name
  distinct : ∀ {i j}, (g.sets i).clock.replicaID = (g.sets j).clock.replicaID → i = j
  named : ∀ i, Tag.valid ⟨(g.sets i).clock.replicaID, 0, 0⟩ = true
  apart : ∀ i, Apart (g.sets i).elements (g.sets i).tombstones
  noneEmpty : ∀ i, NoneEmpty (g.sets i).elements
  sourced : ∀ i, Sourced g.issued (g.sets i).view
  deltas : ∀ d ∈ g.deltas, Sourced g.issued d ∧ d.Valid
  valid : ∀ p ∈ g.issued, p.2.valid = true
  nodup : (g.issued.map (·.2)).Nodup
  past : ∀ p ∈ g.issued, ∀ i, (g.sets i).clock.replicaID = p.2.replicaID → tagStamp p.2 ≤ (g.sets i).clock.stamp
  tallied : Tallied g.coordinator 0
  acknowledged : ∀ i t, t ∈ g.coordinator.retained (g.name i) → g.Buried i t
  reported : ∀ p ∈ g.reports, ∀ t ∈ p.2, g.Buried p.1 t
  dead : ∀ t ∈ g.collected, g.Dead t

variable {g : Group ι T} {i : ι} {e : T}

section
variable (h : Sound g)
include h

theorem Sound.one_element {e e' : T} (he : (e, t) ∈ g.issued) (he' : (e', t) ∈ g.issued) : e = e' :=
  congrArg Prod.fst (inj_on_of_nodup_map h.nodup he he' rfl)

theorem Sound.validateState (i : ι) :
    OrSet.validateState (g.sets i).elements (g.sets i).tombstones = .ok () := by
  refine validateState_of_valid (fun e t hl => h.valid _ ((h.sourced i).live hl)) fun t ht => ?_
  obtain ⟨e, he⟩ := (h.sourced i).buried ht
  exact h.valid _ he

theorem Sound.delta (hsourced : Sourced g.issued d) (hvalid : d.Valid)
    (hdead : ∀ t ∈ g.collected, ∀ e, ¬Live d.adds e t) : Sound {g with deltas := g.deltas ++ [d]} := by
  refine {h with
    deltas := forall_mem_append.mpr ⟨h.deltas, forall_mem_singleton.mpr ⟨hsourced, hvalid⟩⟩
    acknowledged := h.acknowledged
    reported := h.reported
    dead := ?_}
  intro t ht
  refine {h.dead t ht with deltas := ?_}
  intro n d' hn hd' e
  rw [getElem?_append] at hd'
  split_ifs at hd' with hlt
  · exact (h.dead t ht).deltas n d' hn hd' e
  rw [getElem?_singleton] at hd'
  split_ifs at hd'
  cases hd'
  exact hdead t ht e

theorem Sound.issue (hfresh : ∀ p ∈ g.issued, p.2 ≠ (g.sets i).clock.tag) (e : T) :
    Sound {g with issued := g.issued ++ [(e, (g.sets i).clock.tag)]} := by
  have hsub : g.issued ⊆ g.issued ++ [(e, (g.sets i).clock.tag)] := subset_append_left _ _
  refine {h with
    sourced := fun k => (h.sourced k).mono hsub
    deltas := fun d hd => ⟨(h.deltas d hd).1.mono hsub, (h.deltas d hd).2⟩
    valid := forall_mem_append.mpr ⟨h.valid, forall_mem_singleton.mpr (h.named i)⟩
    nodup := ?_
    past := ?_
    acknowledged := h.acknowledged
    reported := h.reported
    dead := ?_}
  · rw [map_append, map_singleton, ← concat_eq_append]
    refine h.nodup.concat fun ht => ?_
    obtain ⟨p, hp, he⟩ := mem_map.mp ht
    exact hfresh p hp he
  · refine forall_mem_append.mpr ⟨h.past, forall_mem_singleton.mpr fun k hk => ?_⟩
    rw [h.distinct hk]
    exact le_rfl
  · intro t ht
    exact {h.dead t ht with issued := (h.dead t ht).issued.imp fun _ he => hsub he}

theorem Sound.fresh {clock : HLC} (hnow : (g.sets i).clock.now millis = (clock, .ok tag)) :
    ∀ p ∈ g.issued, p.2 ≠ tag := by
  obtain ⟨rfl, hid, hlt⟩ := HLC.now_ok hnow
  intro p hp heq
  have hpast := h.past p hp i (by rw [heq]; exact hid.symm)
  rw [heq] at hpast
  exact absurd hpast hlt.not_ge

theorem Sound.coordinated (htally : Tallied c 0) (hview : SameView g.coordinator c)
    (hret : ∀ i t, t ∈ c.retained (g.name i) → g.Buried i t) : Sound {g with coordinator := c} := by
  refine {h with members := ?_, tallied := htally, acknowledged := hret, reported := h.reported, dead := ?_}
  · rw [hview.members]
    exact h.members
  · exact fun t ht => {h.dead t ht with}

theorem Sound.report (i : ι) : Sound {g with reports := g.reports ++ [(i, (g.sets i).tombstoneTags)]} := by
  refine {h with acknowledged := h.acknowledged, reported := ?_, dead := fun t ht => {h.dead t ht with}}
  refine forall_mem_append.mpr ⟨h.reported, forall_mem_singleton.mpr fun t ht => ?_⟩
  exact .inl (Std.ExtTreeSet.mem_toList.mp ht)

end

variable [DecidableEq ι]

theorem put_sets (g : Group ι T) (i k : ι) (s : ORSet T) : (g.put i s).sets k = if k = i then s else g.sets k :=
  Function.update_apply g.sets i s k

theorem Sound.joins (h : Sound g)
    (hj : Joins (g.sets i).elements (g.sets i).tombstones d.adds d.tombstones s'.elements s'.tombstones)
    (hsourced : Sourced g.issued d) (hdead : ∀ t ∈ g.collected, ∀ e, ¬Live d.adds e t)
    (hm : Moves (g.sets i) s') : Sound (g.put i s') := by
  have hbury : ∀ k t, g.Buried k t → (g.put i s').Buried k t := by
    intro k t hk
    refine hk.imp_left fun ht => ?_
    rw [put_sets]
    split_ifs with hki
    · rw [hki] at ht
      exact (hj.tombstones t).mpr (.inl ht)
    · exact ht
  have hclock : ∀ k, ((g.put i s').sets k).clock.replicaID = (g.sets k).clock.replicaID ∧
      (g.sets k).clock.stamp ≤ ((g.put i s').sets k).clock.stamp := by
    intro k
    rw [put_sets]
    split_ifs with hki
    · rw [hki]
      exact ⟨hm.clockID_eq, hm.stamp_le⟩
    · exact ⟨rfl, le_rfl⟩
  refine {h with
    distinct := ?_
    named := ?_
    apart := ?_
    noneEmpty := ?_
    sourced := ?_
    past := ?_
    acknowledged := ?_
    reported := ?_
    dead := ?_}
  · intro j k hjk
    rw [(hclock j).1, (hclock k).1] at hjk
    exact h.distinct hjk
  · intro k
    rw [(hclock k).1]
    exact h.named k
  · intro k
    rw [put_sets]
    split_ifs
    · exact fun e t hl => ((hj.live e t).mp hl).2
    · exact h.apart k
  · intro k
    rw [put_sets]
    split_ifs
    · exact hj.noneEmpty (h.noneEmpty i)
    · exact h.noneEmpty k
  · intro k
    rw [put_sets]
    split_ifs
    · refine ⟨fun {e t} hl => ?_, fun {t} ht => ?_⟩
      · exact ((hj.live e t).mp hl).1.elim (h.sourced i).live hsourced.live
      · exact ((hj.tombstones t).mp ht).elim (h.sourced i).buried hsourced.buried
    · exact h.sourced k
  · intro p hp k hk
    rw [(hclock k).1] at hk
    exact (h.past p hp k hk).trans (hclock k).2
  · exact fun k t ht => hbury k t (h.acknowledged k t ht)
  · exact fun p hp t ht => hbury p.1 t (h.reported p hp t ht)
  intro t ht
  refine {h.dead t ht with sets := ?_}
  intro k e
  rw [put_sets]
  split_ifs
  · intro hl
    exact ((hj.live e t).mp hl).1.elim ((h.dead t ht).sets i e) (hdead t ht e)
  · exact (h.dead t ht).sets k e

end Group

/-! ### Collection -/

/-- A call of the coordinator: what it records is what was reported, and what it collects every
member has reported. -/
structure Collects (c : Coordinator) (member : Member) (tags : List Tag) (target : ORSet T)
    (c' : Coordinator) (target' : ORSet T) : Prop where
  tallied : Tallied c' 0
  sameView : SameView c c'
  retained : ∀ m t, t ∈ c'.retained m → t ∈ c.retained m ∨ m = member ∧ t ∈ tags
  kept : ∀ t, t ∈ target'.tombstones → t ∈ target.tombstones
  stable : ∀ t, t ∈ target.tombstones → t ∉ target'.tombstones → ∀ m ∈ c.members, t ∈ c'.retained m
  same : target' = {target with tombstones := target'.tombstones}

theorem acknowledgeAndCompactTarget_spec (h : Tallied c 0) (groupID : List UInt8)
    (member : Member) (epoch : UInt64) (tags : List Tag) (target : ORSet T) :
    Collects c member tags target (acknowledgeAndCompactTarget c groupID member epoch tags target).1
      (acknowledgeAndCompactTarget c groupID member epoch tags target).2.1 := by
  have hnothing : ∀ {c' : Coordinator}, Tallied c' 0 → SameView c c' →
      (∀ m t, t ∈ c'.retained m → t ∈ c.retained m ∨ m = member ∧ t ∈ tags) → Collects c member tags target c' target :=
    fun htally hview hret => ⟨htally, hview, hret, fun _ ht => ht, fun t ht hn => absurd ht hn, rfl⟩
  unfold acknowledgeAndCompactTarget
  cases validateTombstones tags with
  | error err => exact hnothing h ⟨rfl, rfl, rfl⟩ fun _ _ ht => .inl ht
  | ok _ =>
    have hleaves := acknowledgeLocked_spec h groupID member epoch tags
    rcases hack : c.acknowledgeLocked groupID member epoch tags with ⟨c', err | ⟨⟩⟩
    all_goals
      rw [hack] at hleaves
      obtain ⟨htally, hview, hret⟩ := hleaves
      replace hret m t ht := (hret m t ht).imp_right fun hnew => hnew.2.2.2
    · exact hnothing htally hview hret
    simp only [ORSet.compactTombstones]
    by_cases hvalid : (!(c'.stableTombstonesLocked target.tombstoneTags).all Tag.valid) = true
    · simp only [if_pos hvalid]
      exact hnothing htally hview hret
    simp only [if_neg hvalid]
    refine ⟨htally, hview, hret, fun t ht => ?_, fun t ht hn m hm => ?_, rfl⟩
    · exact (TagSet.mem_filter.mp ht).1
    rw [← hview.members] at hm
    have hstable : t ∈ c'.stableTombstonesLocked target.tombstoneTags := by
      by_contra hc
      exact hn (TagSet.mem_filter.mpr ⟨ht, by simpa using hc⟩)
    exact htally.stable hstable hm

namespace Group

variable [DecidableEq ι] {g : Group ι T}

theorem Sound.collect {i j : ι} {tags : List Tag} (h : Sound g) (htags : ∀ t ∈ tags, g.Buried i t)
    (hcollects : Collects g.coordinator (g.name i) tags (g.sets j) c s') :
    let removed := (g.sets j).tombstoneTags.filter fun tag => !s'.tombstones.contains tag
    Sound {g.put j s' with
      coordinator := c
      retired := if removed.isEmpty then g.retired else g.deltas.length
      collected := g.collected ++ removed} := by
  intro removed
  have hremoved : ∀ t, t ∈ removed ↔ t ∈ (g.sets j).tombstones ∧ t ∉ s'.tombstones := by
    intro t
    rw [List.mem_filter, Bool.not_eq_true', TagSet.contains_eq_false]
    exact and_congr_left' Std.ExtTreeSet.mem_toList
  have hret : ∀ k t, t ∈ c.retained (g.name k) → g.Buried k t := by
    intro k t ht
    rcases hcollects.retained _ t ht with ht | ⟨hk, ht⟩
    · exact h.acknowledged k t ht
    · rw [h.names hk]
      exact htags t ht
  have hbury : ∀ k t, g.Buried k t → t ∈ ((g.put j s').sets k).tombstones ∨ t ∈ g.collected ++ removed := by
    intro k t hk
    rcases hk with ht | ht
    · rw [put_sets]
      split_ifs with hkj
      · by_cases hs : t ∈ s'.tombstones
        · exact .inl hs
        · rw [hkj] at ht
          exact .inr (mem_append_right _ ((hremoved t).mpr ⟨ht, hs⟩))
      · exact .inl ht
    · exact .inr (mem_append_left _ ht)
  have helements : ∀ k, ((g.put j s').sets k).elements = (g.sets k).elements := by
    intro k
    rw [put_sets]
    split_ifs with hkj
    · rw [hkj, hcollects.same]
    · rfl
  have htombs : ∀ k t, t ∈ ((g.put j s').sets k).tombstones → t ∈ (g.sets k).tombstones := by
    intro k t
    rw [put_sets]
    split_ifs with hkj
    · rw [hkj]
      exact hcollects.kept t
    · exact id
  have hclock : ∀ k, ((g.put j s').sets k).clock = (g.sets k).clock := by
    intro k
    rw [put_sets]
    split_ifs with hkj
    · rw [hkj, hcollects.same]
    · rfl
  -- The first collection of a tag finds its tombstone with every member.
  have hdead : ∀ t ∈ g.collected ++ removed, (∃ e, (e, t) ∈ g.issued) ∧ ∀ k e, ¬Live (g.sets k).elements e t := by
    intro t ht
    rcases mem_append.mp ht with ht | ht
    · exact ⟨(h.dead t ht).issued, (h.dead t ht).sets⟩
    have hstable := hcollects.stable t ((hremoved t).mp ht).1 ((hremoved t).mp ht).2
    refine ⟨(h.sourced j).buried ((hremoved t).mp ht).1, fun k e hl => ?_⟩
    rcases hret k t (hstable _ ((h.members _).mpr ⟨k, rfl⟩)) with ht | ht
    · exact h.apart k e t hl ht
    · exact (h.dead t ht).sets k e hl
  refine ⟨?_, h.names, ?_, ?_, ?_, ?_, ?_, h.deltas, h.valid, h.nodup, ?_, hcollects.tallied, ?_, ?_, ?_⟩
  · rw [hcollects.sameView.members]
    exact h.members
  · intro k l hkl
    rw [hclock, hclock] at hkl
    exact h.distinct hkl
  · intro k
    rw [hclock]
    exact h.named k
  · intro k e t hl ht
    rw [helements] at hl
    exact h.apart k e t hl (htombs k t ht)
  · intro k
    rw [helements]
    exact h.noneEmpty k
  · intro k
    refine ⟨fun hl => ?_, fun ht => (h.sourced k).buried (htombs k _ ht)⟩
    simp only [ORSet.view] at hl
    rw [helements] at hl
    exact (h.sourced k).live hl
  · intro p hp k hk
    rw [hclock] at hk ⊢
    exact h.past p hp k hk
  · exact fun k t ht => hbury k t (hret k t ht)
  · exact fun p hp t ht => hbury p.1 t (h.reported p hp t ht)
  intro t ht
  refine ⟨(hdead t ht).1, fun k e hl => ?_, fun n d hn hd e hl => ?_⟩
  · rw [helements] at hl
    exact (hdead t ht).2 k e hl
  dsimp only at hn hd
  split_ifs at hn with hempty
  · rcases mem_append.mp ht with ht | ht
    · exact (h.dead t ht).deltas n d hn hd e hl
    · rw [List.isEmpty_iff.mp hempty] at ht
      cases ht
  · rw [put, getElem?_eq_none hn] at hd
    cases hd

/-! ### Calls -/

theorem put_self (g : Group ι T) (i : ι) : g.put i (g.sets i) = g := by
  rw [put, Function.update_eq_self]

end Group

/-- What an add does with the tag that it takes. -/
structure Takes (s : ORSet T) (e : T) (tag : Tag) (s' : ORSet T) (d : ORSetDelta T) : Prop where
  tag_eq : s'.clock.tag = tag
  live : ∀ {e' t}, Live d.adds e' t ↔ e' = e ∧ t = tag
  tombstones : d.tombstones = ∅
  valid : tag.valid = true → d.Valid
  joins : Joins s.elements s.tombstones d.adds d.tombstones s'.elements s'.tombstones
  moves : Moves s s'

theorem live_single {e e' : T} :
    Live ((∅ : Adds T).insert e ((∅ : TagSet).insert tag)) e' t ↔ e' = e ∧ t = tag := by
  rw [live_iff, get?_insert]
  split_ifs with he
  · rw [Option.getD_some, TagSet.mem_insert]
    simp [he, eq_comm]
  · simp [Ne.symm he]

theorem now_refused {h h' : HLC} (he : h.now millis = (h', .error err)) : err = .clockExhausted := by
  unfold HLC.now physicalMillis at he
  split_ifs at he with hneg
  · cases he
    rfl
  dsimp only at he
  unfold HLC.advanceLocal nextTimestamp at he
  split_ifs at he <;> cases he
  rfl

theorem add_cases (h : Apart s.elements s.tombstones) (e : T) (millis : Int64)
    (hfresh : ∀ clock tag, s.clock.now millis = (clock, .ok tag) → tag ∉ s.tombstones) :
    (∃ err, s.clock.now millis = (s.clock, .error err)) ∧ s.add e millis = (s, .error (.clock .clockExhausted)) ∨
      ∃ clock tag s' d, s.clock.now millis = (clock, .ok tag) ∧ s.add e millis = (s', .ok d) ∧ Takes s e tag s' d := by
  rcases hnow : s.clock.now millis with ⟨clock, err | tag⟩
  · refine .inl ⟨⟨err, by rw [HLC.now_error hnow]⟩, ?_⟩
    unfold ORSet.add
    rw [HLC.now_error hnow, now_refused hnow] at hnow
    rw [hnow]
  have hadd : s.add e millis = ({s with clock, elements := addTag s.elements e tag},
      .ok {adds := (∅ : Adds T).insert e ((∅ : TagSet).insert tag)}) := by
    unfold ORSet.add
    rw [hnow]
    exact if_neg fun hc => hfresh clock tag hnow (Std.ExtTreeSet.contains_iff_mem.mp hc)
  obtain ⟨rfl, hid, hlt⟩ := HLC.now_ok hnow
  refine .inr ⟨clock, clock.tag, _, _, rfl, hadd, rfl, live_single, rfl, fun hvalid => ?_, add_spec h hadd,
    ⟨rfl, hid, hlt.le⟩⟩
  refine valid_of_small (fun e' t hl => ?_) (by simp) (by simp [Std.ExtTreeMap.size_insert]) (.inr rfl)
  rw [(live_single.mp hl).2]
  exact hvalid

/-- A remove buries the tags that the element has. -/
structure Buries (s : ORSet T) (e : T) (s' : ORSet T) (d : ORSetDelta T) : Prop where
  live : ∀ {e' t}, ¬Live d.adds e' t
  tombstones : ∀ {t}, t ∈ d.tombstones ↔ Live s.elements e t
  valid : (∀ t, Live s.elements e t → t.valid = true) → d.Valid
  joins : Joins s.elements s.tombstones d.adds d.tombstones s'.elements s'.tombstones
  moves : Moves s s'

theorem remove_buries {e : T} (h : Apart s.elements s.tombstones)
    (hone : ∀ a t, Live s.elements e t → Live s.elements a t → a = e) :
    Buries s e (s.remove e).1 (s.remove e).2 := by
  have hjoins := remove_spec h hone (show s.remove e = ((s.remove e).1, (s.remove e).2) from rfl)
  have hadds : (s.remove e).2.adds = ∅ := by
    unfold ORSet.remove
    dsimp only
    split_ifs <;> rfl
  have htombs : ∀ t, t ∈ (s.remove e).2.tombstones ↔ Live s.elements e t := by
    intro t
    rw [live_iff]
    unfold ORSet.remove
    dsimp only
    split_ifs with hsize
    · rw [Std.ExtTreeSet.eq_empty_iff_size_eq_zero.mpr hsize]
    · rfl
  refine ⟨?_, htombs _, fun hvalid => ?_, hjoins, ?_⟩
  · rw [hadds]
    exact not_live_empty
  · refine valid_of_small (fun e' t hl => ?_) (fun t ht => hvalid t ((htombs t).mp ht)) ?_ (.inl ?_)
    · rw [hadds] at hl
      exact absurd hl not_live_empty
    · rw [hadds]
      exact Nat.zero_le _
    · rw [hadds]
      rfl
  unfold ORSet.remove
  dsimp only
  split_ifs <;> exact ⟨rfl, rfl, le_rfl⟩

namespace Group

variable [DecidableEq ι] {g : Group ι T} {i j : ι} {e : T}

theorem Sound.step_add (h : Sound g) (i : ι) (e : T) (millis : Int64) :
    g.step (.add i e millis) = (g, some (.clock .clockExhausted)) ∨
      ∃ tag s' d, ¬millis < 0 ∧ (∀ p ∈ g.issued, p.2 ≠ tag) ∧ Takes (g.sets i) e tag s' d ∧
        g.step (.add i e millis) =
          ({g.put i s' with deltas := g.deltas ++ [d], issued := g.issued ++ [(e, tag)]}, none) := by
  have hunburied : ∀ clock tag, (g.sets i).clock.now millis = (clock, .ok tag) → tag ∉ (g.sets i).tombstones := by
    intro clock tag hnow ht
    obtain ⟨e, he⟩ := (h.sourced i).buried ht
    exact h.fresh hnow _ he rfl
  rcases add_cases (h.apart i) e millis hunburied with ⟨-, hadd⟩ | ⟨clock, tag, s', d, hnow, hadd, htakes⟩
  · left
    rw [step, hadd]
    exact Prod.ext (g.put_self i) rfl
  refine .inr ⟨tag, s', d, fun hneg => ?_, h.fresh hnow, htakes, ?_⟩
  · unfold HLC.now physicalMillis at hnow
    rw [if_pos hneg] at hnow
    cases hnow
  · rw [step, hadd, ← htakes.tag_eq]

theorem Sound.takes (h : Sound g) (hfresh : ∀ p ∈ g.issued, p.2 ≠ tag) (htakes : Takes (g.sets i) e tag s' d) :
    Sound {g.put i s' with deltas := g.deltas ++ [d], issued := g.issued ++ [(e, tag)]} := by
  -- The clock moves, the tag is issued, the set joins its own delta, and the delta is made.
  have hmoved : Sound (g.put i {g.sets i with clock := s'.clock}) :=
    h.joins (d := {}) (joins_empty (h.apart i)) ⟨fun hl => absurd hl not_live_empty, by simp⟩ (fun _ _ _ => not_live_empty)
      ⟨rfl, htakes.moves.clockID_eq, htakes.moves.stamp_le⟩
  have hsets : (g.put i {g.sets i with clock := s'.clock}).sets i = {g.sets i with clock := s'.clock} := by
    rw [put_sets, if_pos rfl]
  have htag : ((g.put i {g.sets i with clock := s'.clock}).sets i).clock.tag = tag := by
    rw [hsets]
    exact htakes.tag_eq
  have hissued := hmoved.issue (i := i) (by rw [htag]; exact hfresh) e
  rw [htag] at hissued
  have hmem : (e, tag) ∈ g.issued ++ [(e, tag)] := mem_append_right _ mem_cons_self
  have hsourced : Sourced (g.issued ++ [(e, tag)]) d := by
    refine ⟨fun hl => ?_, fun ht => ?_⟩
    · obtain ⟨rfl, rfl⟩ := htakes.live.mp hl
      exact hmem
    · rw [htakes.tombstones] at ht
      simp at ht
  have hdead : ∀ t ∈ g.collected, ∀ e', ¬Live d.adds e' t := by
    intro t ht e' hl
    obtain ⟨e'', he''⟩ := (h.dead t ht).issued
    exact hfresh _ he'' (htakes.live.mp hl).2
  have hmoves : Moves ((g.put i {g.sets i with clock := s'.clock}).sets i) s' := by
    rw [hsets]
    exact ⟨htakes.moves.codecID_eq, rfl, le_rfl⟩
  have hjoined := hissued.joins (i := i) (by rw [hsets]; exact htakes.joins) hsourced hdead hmoves
  have hmade := hjoined.delta hsourced (htakes.valid (hissued.valid _ hmem)) hdead
  simpa only [put, Function.update_idem] using hmade

theorem Sound.buries (h : Sound g) (hb : Buries (g.sets i) e s' d) :
    Sound {g.put i s' with deltas := g.deltas ++ [d]} := by
  have hsourced : Sourced g.issued d :=
    ⟨fun hl => absurd hl hb.live, fun ht => ⟨e, (h.sourced i).live (hb.tombstones.mp ht)⟩⟩
  have hdead : ∀ t ∈ g.collected, ∀ e, ¬Live d.adds e t := fun _ _ _ => hb.live
  have hvalid : d.Valid := hb.valid fun t hl => h.valid _ ((h.sourced i).live hl)
  exact (h.joins hb.joins hsourced hdead hb.moves).delta hsourced hvalid hdead

omit [DecidableEq ι] in
theorem Sound.remove (h : Sound g) (i : ι) (e : T) :
    Buries (g.sets i) e ((g.sets i).remove e).1 ((g.sets i).remove e).2 :=
  remove_buries (h.apart i) fun _ _ hl hl' => h.one_element ((h.sourced i).live hl') ((h.sourced i).live hl)

theorem Sound.outcome {p : ORSet T × Except Err Unit} (h : Sound g) (hp : Outcome (g.sets i) d millis p)
    (hsourced : Sourced g.issued d) (hdead : ∀ t ∈ g.collected, ∀ e, ¬Live d.adds e t) : Sound (g.put i p.1) := by
  cases hp with
  | joined hj hm _ => exact h.joins hj hsourced hdead hm
  | exhausted =>
    rw [put_self]
    exact h

omit [DecidableEq ι] in
theorem Sound.merge_cases (h : Sound g) (i j : ι) (millis : Int64) :
    ((g.sets i).codecID ≠ (g.sets j).codecID ∧
        (g.sets i).merge (g.sets j) millis = (g.sets i, .error .codecMismatch)) ∨
      ((g.sets i).codecID = (g.sets j).codecID ∧
        Outcome (g.sets i) (g.sets j).view millis ((g.sets i).merge (g.sets j) millis)) := by
  by_cases hc : (g.sets i).codecID = (g.sets j).codecID
  · exact .inr ⟨hc, merge_outcome (h.apart i) hc (h.validateState j) millis⟩
  · exact .inl ⟨hc, if_pos hc⟩

theorem Sound.step (h : Sound g) (call : Call ι T) (hretired : ∀ i n millis, call = .deliver i n millis → g.retired ≤ n) :
    Sound (g.step call).1 := by
  cases call with
  | add i e millis =>
    rcases h.step_add i e millis with hstep | ⟨tag, s', d, -, hfresh, htakes, hstep⟩
    · rw [hstep]
      exact h
    · rw [hstep]
      exact h.takes hfresh htakes
  | remove i e => exact h.buries (h.remove i e)
  | merge i j millis =>
    rw [Group.step]
    dsimp only
    rcases h.merge_cases i j millis with ⟨-, hmerge⟩ | ⟨-, hmerge⟩
    · rw [hmerge, put_self]
      exact h
    · exact h.outcome hmerge (h.sourced j) fun t ht e => (h.dead t ht).sets j e
  | deliver i n millis =>
    rw [Group.step]
    cases hd : g.deltas[n]? with
    | none => exact h
    | some d =>
      obtain ⟨hsourced, hvalid⟩ := h.deltas d (mem_of_getElem? hd)
      exact h.outcome (applyDelta_outcome (h.apart i) hvalid millis) hsourced fun t ht e =>
        (h.dead t ht).deltas n d (hretired i n millis rfl) hd e
  | report i => exact h.report i
  | acknowledge n =>
    rw [Group.step]
    cases hn : g.reports[n]? with
    | none => exact h
    | some p =>
      dsimp only
      unfold Coordinator.acknowledge
      cases validateTombstones p.2 with
      | error err => exact h
      | ok _ =>
        obtain ⟨htally, hview, hret⟩ := acknowledgeLocked_spec h.tallied g.coordinator.groupID (g.name p.1)
          g.coordinator.epoch p.2
        refine h.coordinated htally hview fun i t ht => ?_
        rcases hret _ t ht with ht | ⟨-, -, -, hi, ht⟩
        · exact h.acknowledged i t ht
        · rw [h.names hi]
          exact h.reported p (mem_of_getElem? hn) t ht
  | collect n target =>
    rw [Group.step]
    cases hn : g.reports[n]? with
    | none => exact h
    | some p =>
      exact h.collect (h.reported p (mem_of_getElem? hn))
        (acknowledgeAndCompactTarget_spec h.tallied _ _ _ _ _)
  | prune tags =>
    rw [Group.step]
    obtain ⟨htally, hview, hret⟩ := pruneAcknowledgements_spec h.tallied g.coordinator.groupID g.coordinator.epoch tags
    exact h.coordinated htally hview fun i t ht => h.acknowledged i t (hret _ t ht).1

/-! ### Runs -/

theorem Sound.run (h : Sound g) {calls : List (Call ι T)} (hd : g.Disciplined calls) : Sound (g.run calls).1 := by
  induction calls generalizing g with
  | nil => exact h
  | cons call rest ih => exact ih (h.step call hd.1) hd.2

theorem collected_step (g : Group ι T) (call : Call ι T) : g.collected ⊆ (g.step call).1.collected := by
  unfold Group.step
  split
  · split <;> exact List.Subset.refl _
  · exact List.Subset.refl _
  · exact List.Subset.refl _
  · split <;> exact List.Subset.refl _
  · exact List.Subset.refl _
  · split <;> exact List.Subset.refl _
  · split
    · exact List.Subset.refl _
    · exact subset_append_left _ _
  · exact List.Subset.refl _

theorem collected_run (g : Group ι T) (calls : List (Call ι T)) : g.collected ⊆ (g.run calls).1.collected := by
  induction calls generalizing g with
  | nil => exact List.Subset.refl _
  | cons call rest ih => exact List.Subset.trans (collected_step g call) (ih _)

theorem run_append (g : Group ι T) (before after : List (Call ι T)) :
    (g.run (before ++ after)).1 = ((g.run before).1.run after).1 := by
  induction before generalizing g with
  | nil => rfl
  | cons call rest ih => exact ih _

end Group

theorem newORSetFromClock_ok {state : Clock.State} {codecID : List UInt8}
    (h : newORSetFromClock state codecID = .ok s) :
    s.elements = ∅ ∧ s.tombstones = ∅ ∧ s.clock.replicaID = s.replicaID ∧
      Tag.valid ⟨s.clock.replicaID, 0, 0⟩ = true := by
  unfold newORSetFromClock newHLCFromState at h
  split_ifs at h with hblank hvalid
  cases h
  exact ⟨rfl, rfl, rfl, by simpa using hvalid⟩

theorem newCoordinator_ok {groupID : List UInt8} {members : List Member}
    (h : newCoordinator groupID members = .ok c) : Tallied c 0 ∧ ∀ m, c.retained m = ∅ := by
  unfold newCoordinator at h
  split_ifs at h
  split at h <;> cases h
  exact ⟨.empty rfl rfl rfl, fun m => by simp [Coordinator.retained]⟩

theorem Founded.sound {g : Group ι T} (h : Founded g) : g.Sound := by
  obtain ⟨groupID, members, hnew⟩ := h.coordinator
  obtain ⟨htally, hret⟩ := newCoordinator_ok hnew
  have hsets : ∀ i, (g.sets i).elements = ∅ ∧ (g.sets i).tombstones = ∅ ∧
      (g.sets i).clock.replicaID = (g.sets i).replicaID ∧ Tag.valid ⟨(g.sets i).clock.replicaID, 0, 0⟩ = true := by
    intro i
    obtain ⟨state, codecID, hset⟩ := h.sets i
    exact newORSetFromClock_ok hset
  have hdeltas : g.deltas = [] := congrArg Group.deltas h.blank
  have hissued : g.issued = [] := congrArg Group.issued h.blank
  have hreports : g.reports = [] := congrArg Group.reports h.blank
  have hcollected : g.collected = [] := congrArg Group.collected h.blank
  have hlive : ∀ i e t, ¬Live (g.sets i).elements e t := by
    intro i e t
    rw [(hsets i).1]
    exact not_live_empty
  refine ⟨h.members, h.names, fun {i j} hij => ?_, fun i => (hsets i).2.2.2, fun i e t hl => absurd hl (hlive i e t),
    fun i => ?_, fun i => ⟨fun hl => absurd hl (hlive i _ _), fun {t} ht => ?_⟩, ?_, ?_, ?_, ?_, htally,
    fun i t ht => ?_, ?_, ?_⟩
  · rw [(hsets i).2.2.1, (hsets j).2.2.1] at hij
    exact h.distinct hij
  · rw [(hsets i).1]
    intro e tags he
    simp at he
  · simp only [ORSet.view] at ht
    rw [(hsets i).2.1] at ht
    simp at ht
  · rw [hdeltas]
    exact nofun
  · rw [hissued]
    exact nofun
  · rw [hissued]
    exact nodup_nil
  · rw [hissued]
    exact nofun
  · rw [hret] at ht
    simp at ht
  · rw [hreports]
    exact nofun
  · rw [hcollected]
    exact nofun

end Crdt.OrSet
