import Crdt.OrSet.State

/-! What an OR-Set means.

However deltas reach a replica (one by one, merged with others on the way, inside the state of
another replica, or made by the replica itself), it ends with the union of their tombstones and
with the added tags outside that union (`or_set_denotation`). This needs that a tag belongs to
one element: a remove tombstones the tags of one element and leaves the others alone. -/
namespace Crdt.OrSet

open Clock MapLoop Std.ExtTreeSet List

variable {T : Type} [LinearOrder T] {seen seen' : TagSet} {d : ORSetDelta T}

/-! ### Deltas -/

def ORSetDelta.Valid (d : ORSetDelta T) : Prop := validateDeltaState d.adds d.tombstones = .ok ()

theorem seeTags_spec {l : List Tag} (h : seeTags l seen = some seen') :
    (∀ t ∈ l, t ∉ seen) ∧ ∀ t, t ∈ seen' ↔ t ∈ seen ∨ t ∈ l := by
  induction l generalizing seen with
  | nil =>
    cases h
    simp
  | cons tag l ih =>
    rw [seeTags] at h
    split_ifs at h with hc
    obtain ⟨hout, hmem⟩ := ih h
    refine ⟨forall_mem_cons.mpr ⟨fun hm => hc (Std.ExtTreeSet.contains_iff_mem.mpr hm),
      fun t ht hs => hout t ht (TagSet.mem_insert.mpr (.inr hs))⟩, fun t => ?_⟩
    rw [hmem, TagSet.mem_insert, mem_cons]
    tauto

omit [LinearOrder T] in
theorem seeAdds_spec {l : List (T × TagSet)} (h : seeAdds l seen = some seen') :
    ∀ t, t ∈ seen' ↔ t ∈ seen ∨ ∃ p ∈ l, t ∈ p.2 := by
  induction l generalizing seen with
  | nil =>
    cases h
    simp
  | cons p l ih =>
    obtain ⟨seen₁, h₁, h⟩ := Option.bind_eq_some_iff.mp h
    intro t
    rw [ih h, (seeTags_spec h₁).2, Std.ExtTreeSet.mem_toList]
    simp [or_assoc]

theorem ORSetDelta.Valid.apart (h : d.Valid) : Apart d.adds d.tombstones := by
  unfold ORSetDelta.Valid validateDeltaState at h
  split at h
  · cases h
  rintro e t ⟨tags, htags, ht⟩ hm
  split_ifs at h with htrack
  · split at h
    · rename_i seen hseen
      obtain ⟨seen₁, h₁, h₂⟩ := Option.bind_eq_some_iff.mp hseen
      refine (seeTags_spec h₂).1 t (Std.ExtTreeSet.mem_toList.mpr hm) ?_
      exact (seeAdds_spec h₁ t).mpr (.inr ⟨(e, tags), mem_toList.mpr htags, ht⟩)
    · cases h
  -- with one element and a tombstone the tags are tracked
  simp only [Bool.or_eq_true, Bool.and_eq_true, decide_eq_true_eq, not_or, not_and, not_lt] at htrack
  have hpos : 0 < d.adds.size := Nat.pos_of_ne_zero fun h0 => by
    rw [Std.ExtTreeMap.eq_empty_iff_size_eq_zero.mpr h0] at htags
    simp at htags
  have h0 : d.tombstones.size = 0 := Nat.le_zero.mp (htrack.2 hpos)
  rw [Std.ExtTreeSet.eq_empty_iff_size_eq_zero.mpr h0] at hm
  simp at hm

theorem ORSetDelta.merge_spec {d e f : ORSetDelta T} (h : d.merge e = .ok f) :
    Joins d.adds d.tombstones e.adds e.tombstones f.adds f.tombstones := by
  unfold ORSetDelta.merge at h
  split at h
  · cases h
  rename_i hv
  split at h
  · cases h
  · cases h
    exact joinState_spec (ORSetDelta.Valid.apart hv)

/-- Deltas that travel as one. -/
inductive Bundle : List (ORSetDelta T) → ORSetDelta T → Prop
  | single (d : ORSetDelta T) : Bundle [d] d
  | merge {ds es : List (ORSetDelta T)} {d e f : ORSetDelta T} (hd : Bundle ds d) (he : Bundle es e)
      (h : d.merge e = .ok f) : Bundle (ds ++ es) f

/-- A delta or a state that stands for the deltas `ds`. What one of them has added is live in it
unless it has a tombstone for it. -/
structure Covers (adds : Adds T) (tombstones : TagSet) (ds : List (ORSetDelta T)) : Prop where
  buried : ∀ t, t ∈ tombstones ↔ ∃ d ∈ ds, t ∈ d.tombstones
  added : ∀ e t, Live adds e t → ∃ d ∈ ds, Live d.adds e t
  live : ∀ d ∈ ds, ∀ e t, Live d.adds e t → Live adds e t ∨ t ∈ tombstones

variable {ds : List (ORSetDelta T)} {es : List (ORSetDelta T)}

theorem Covers.joins {adds sourceAdds adds' : Adds T} {tombstones sourceTombstones tombstones' : TagSet}
    (h : Covers adds tombstones ds) (hs : Covers sourceAdds sourceTombstones es)
    (hj : Joins adds tombstones sourceAdds sourceTombstones adds' tombstones') :
    Covers adds' tombstones' (ds ++ es) := by
  have hleft : ∀ t, t ∈ tombstones → t ∈ tombstones' := fun t ht => (hj.tombstones t).mpr (.inl ht)
  have hright : ∀ t, t ∈ sourceTombstones → t ∈ tombstones' := fun t ht =>
    (hj.tombstones t).mpr (.inr ht)
  have hkept : ∀ e t, Live adds e t ∨ Live sourceAdds e t → Live adds' e t ∨ t ∈ tombstones' := by
    intro e t hl
    by_cases ht : t ∈ tombstones'
    · exact .inr ht
    · exact .inl ((hj.live e t).mpr ⟨hl, ht⟩)
  refine ⟨fun t => ?_, fun e t hl => ?_, fun d hd e t hl => ?_⟩
  · rw [hj.tombstones, h.buried, hs.buried]
    simp [or_and_right, exists_or]
  · rcases ((hj.live e t).mp hl).1 with hl | hl
    · obtain ⟨d, hd, hl⟩ := h.added e t hl
      exact ⟨d, mem_append_left _ hd, hl⟩
    · obtain ⟨d, hd, hl⟩ := hs.added e t hl
      exact ⟨d, mem_append_right _ hd, hl⟩
  rcases mem_append.mp hd with hd | hd
  · exact (h.live d hd e t hl).elim (fun hl => hkept e t (.inl hl)) fun ht => .inr (hleft t ht)
  · exact (hs.live d hd e t hl).elim (fun hl => hkept e t (.inr hl)) fun ht => .inr (hright t ht)

theorem Bundle.covers (h : Bundle ds d) : Covers d.adds d.tombstones ds := by
  induction h with
  | single d => exact ⟨by simp, fun e t hl => ⟨d, by simp, hl⟩, by simp +contextual⟩
  | merge _ _ hm ihd ihe => exact ihd.joins ihe (ORSetDelta.merge_spec hm)

/-! ### Calls -/

variable {s s' other : ORSet T} {d : ORSetDelta T} {millis : Int64}

theorem validateState_cases (adds : Adds T) (tombstones : TagSet) :
    validateState adds tombstones = .ok () ∨ validateState adds tombstones = .error .invalidDelta := by
  unfold validateState
  split_ifs <;> simp

section
variable (h : Apart s.elements s.tombstones)
include h

theorem join_spec (adds : Adds T) (tombstones : TagSet) (millis : Int64) :
    ((∃ err, (s.join adds tombstones millis).2 = .error (.clock err)) ∧
        (s.join adds tombstones millis).1 = s) ∨ ((s.join adds tombstones millis).2 = .ok () ∧
        Joins s.elements s.tombstones adds tombstones (s.join adds tombstones millis).1.elements
          (s.join adds tombstones millis).1.tombstones) := by
  unfold ORSet.join
  cases hg : greatestStateTag adds tombstones with
  | none => exact .inr ⟨rfl, joinState_spec h⟩
  | some tag =>
    rcases hw : s.clock.witness tag millis with ⟨clock, err | ⟨⟩⟩
    · obtain rfl := HLC.witness_error hw
      simp [hw]
    · simp only [hw]
      exact .inr ⟨trivial, joinState_spec h⟩

theorem applyDelta_spec (hok : s.applyDelta d millis = (s', .ok ())) :
    Joins s.elements s.tombstones d.adds d.tombstones s'.elements s'.tombstones := by
  unfold ORSet.applyDelta at hok
  split at hok
  · cases hok
  split_ifs at hok with hs
  · cases hok
    exact subsumesState_spec h hs
  rcases join_spec h d.adds d.tombstones millis with ⟨⟨err, he⟩, _⟩ | ⟨_, hj⟩
  · rw [hok] at he
    cases he
  · rw [hok] at hj
    exact hj

theorem applyDelta_total (hd : d.Valid) (millis : Int64) : (s.applyDelta d millis).2 = .ok () ∨
      (∃ err, (s.applyDelta d millis).2 = .error (.clock err)) ∧ (s.applyDelta d millis).1 = s := by
  unfold ORSet.applyDelta
  rw [show validateDeltaState d.adds d.tombstones = .ok () from hd]
  split_ifs
  · exact .inl rfl
  rcases join_spec h d.adds d.tombstones millis with herr | ⟨hok, _⟩
  · exact .inr herr
  · exact .inl hok

theorem merge_spec (hok : s.merge other millis = (s', .ok ())) :
    Joins s.elements s.tombstones other.elements other.tombstones s'.elements s'.tombstones := by
  unfold ORSet.merge at hok
  by_cases hc : s.codecID ≠ other.codecID
  · rw [if_pos hc] at hok
    cases hok
  rw [if_neg hc] at hok
  rcases validateState_cases other.elements other.tombstones with hv | hv <;> rw [hv] at hok
  swap
  · cases hok
  dsimp only at hok
  split_ifs at hok with hs
  · cases hok
    exact subsumesState_spec h hs
  rcases join_spec h other.elements other.tombstones millis with ⟨⟨err, he⟩, _⟩ | ⟨_, hj⟩
  · rw [hok] at he
    cases he
  · rw [hok] at hj
    exact hj

end

variable {e : T}

theorem add_spec (h : Apart s.elements s.tombstones) (hok : s.add e millis = (s', .ok d)) :
    Joins s.elements s.tombstones d.adds d.tombstones s'.elements s'.tombstones := by
  unfold ORSet.add at hok
  rcases hnow : s.clock.now millis with ⟨clock, err | tag⟩
  · simp [hnow] at hok
  simp only [hnow] at hok
  split_ifs at hok with hc
  · cases hok
  cases hok
  have hout : tag ∉ s.tombstones := fun hm => hc (Std.ExtTreeSet.contains_iff_mem.mpr hm)
  refine ⟨by simp, fun a t => ?_, fun hne => hne.addTag⟩
  have hsingle : Live ((∅ : Adds T).insert e ((∅ : TagSet).insert tag)) a t ↔ e = a ∧ tag = t := by
    rw [live_iff, MapLoop.get?_insert]
    split_ifs with he
    · simp [he]
    · simp [he]
  rw [live_addTag, hsingle]
  constructor
  · rintro (⟨rfl, rfl⟩ | hl)
    · exact ⟨.inr ⟨rfl, rfl⟩, hout⟩
    · exact ⟨.inl hl, h a t hl⟩
  rintro ⟨hl | hl, _⟩
  · exact .inr hl
  · exact .inl hl

/-- A local remove is the join of its delta, if no other element has one of its tags. -/
theorem remove_spec (h : Apart s.elements s.tombstones)
    (hone : ∀ a t, Live s.elements e t → Live s.elements a t → a = e) (hok : s.remove e = (s', d)) :
    Joins s.elements s.tombstones d.adds d.tombstones s'.elements s'.tombstones := by
  unfold ORSet.remove at hok
  simp only at hok
  split_ifs at hok with hsize
  · cases hok
    refine ⟨by simp, fun a t => ?_, fun hne => hne⟩
    simp only [not_live_empty, or_false]
    exact ⟨fun hl => ⟨hl, h a t hl⟩, fun hl => hl.1⟩
  cases hok
  have hmem : ∀ t, t ∈ (s.elements[e]?.getD ∅).toList.foldl (fun s tag => s.insert tag)
      s.tombstones ↔ t ∈ s.tombstones ∨ Live s.elements e t := by
    intro t
    rw [TagSet.mem_foldl_insert, Std.ExtTreeSet.mem_toList, live_iff, or_comm]
  refine ⟨fun t => ?_, fun a t => ?_, fun hne => hne.erase⟩
  · rw [hmem, live_iff]
  rw [live_erase, hmem]
  simp only [not_live_empty, or_false]
  constructor
  · rintro ⟨hne, hl⟩
    refine ⟨hl, ?_⟩
    rintro (ht | ht)
    · exact h a t hl ht
    · exact hne (hone a t ht hl).symm
  rintro ⟨hl, hn⟩
  refine ⟨?_, hl⟩
  rintro rfl
  exact hn (.inr hl)

/-! ### Runs -/

/-- A replica and the deltas that went into it, by whatever way. -/
inductive Delivered : List (ORSetDelta T) → ORSet T → Prop
  | fresh {state : Clock.State} {codecID : List UInt8} {s : ORSet T}
      (h : newORSetFromClock state codecID = .ok s) : Delivered [] s
  | apply {got ds : List (ORSetDelta T)} {s s' : ORSet T} {d : ORSetDelta T} {millis : Int64}
      (hs : Delivered got s) (hd : Bundle ds d) (h : s.applyDelta d millis = (s', .ok ())) :
    Delivered (got ++ ds) s'
  | merge {got got' : List (ORSetDelta T)} {s s' other : ORSet T} {millis : Int64}
      (hs : Delivered got s) (ho : Delivered got' other) (h : s.merge other millis = (s', .ok ())) :
    Delivered (got ++ got') s'
  | add {got : List (ORSetDelta T)} {s s' : ORSet T} {e : T} {d : ORSetDelta T} {millis : Int64}
      (hs : Delivered got s) (h : s.add e millis = (s', .ok d)) : Delivered (got ++ [d]) s'
  | remove {got : List (ORSetDelta T)} {s s' : ORSet T} {e : T} {d : ORSetDelta T}
      (hs : Delivered got s) (h : s.remove e = (s', d)) : Delivered (got ++ [d]) s'

/-- A state that `UnmarshalBinary` accepts: it refuses a tag that stands twice and an element
without tags. -/
structure Decoded (adds : Adds T) (tombstones : TagSet) : Prop where
  apart : Apart adds tombstones
  noneEmpty : NoneEmpty adds

/-- Every state that a replica can come to, with the deltas and states that it has seen. -/
inductive Reachable : List (ORSetDelta T) → ORSet T → Prop
  | fresh {state : Clock.State} {codecID : List UInt8} {s : ORSet T}
      (h : newORSetFromClock state codecID = .ok s) : Reachable [] s
  | apply {got ds : List (ORSetDelta T)} {s s' : ORSet T} {d : ORSetDelta T} {millis : Int64}
      (hs : Reachable got s) (hd : Bundle ds d) (h : s.applyDelta d millis = (s', .ok ())) :
    Reachable (got ++ ds) s'
  | merge {got got' : List (ORSetDelta T)} {s s' other : ORSet T} {millis : Int64}
      (hs : Reachable got s) (ho : Reachable got' other) (h : s.merge other millis = (s', .ok ())) :
    Reachable (got ++ got') s'
  | add {got : List (ORSetDelta T)} {s s' : ORSet T} {e : T} {d : ORSetDelta T} {millis : Int64}
      (hs : Reachable got s) (h : s.add e millis = (s', .ok d)) : Reachable (got ++ [d]) s'
  | remove {got : List (ORSetDelta T)} {s s' : ORSet T} {e : T} {d : ORSetDelta T}
      (hs : Reachable got s) (h : s.remove e = (s', d)) : Reachable (got ++ [d]) s'
  | compact {got : List (ORSetDelta T)} {s s' : ORSet T} {frontier : List (List UInt8 × Tag)} {n : Nat}
      (hs : Reachable got s) (h : s.compact frontier = (s', .ok n)) : Reachable got s'
  | compactTombstones {got : List (ORSetDelta T)} {s s' : ORSet T} {tags : List Tag} {n : Nat}
      (hs : Reachable got s) (h : s.compactTombstones tags = (s', .ok n)) : Reachable got s'
  | install {got : List (ORSetDelta T)} {s s' : ORSet T} {adds : Adds T} {tombstones : TagSet}
      {millis : Int64} (hs : Reachable got s) (hd : Decoded adds tombstones)
      (h : s.install adds tombstones millis = (s', .ok ())) :
    Reachable (got ++ [⟨adds, tombstones⟩]) s'
  | clock {got : List (ORSetDelta T)} {s : ORSet T} (hs : Reachable got s) (clock : HLC) :
    Reachable got {s with clock}

/-- Each tag is added for at most one element. -/
def OneElement (ds : List (ORSetDelta T)) : Prop :=
  ∀ d ∈ ds, ∀ d' ∈ ds, ∀ e e' t, Live d.adds e t → Live d'.adds e' t → e = e'

theorem OneElement.mono (h : OneElement es) (hsub : ∀ d ∈ ds, d ∈ es) :
    OneElement ds := fun d hd d' hd' => h d (hsub d hd) d' (hsub d' hd')

/-- What every reachable state keeps: its live tags were added, and none of them is tombstoned. -/
structure Kept (got : List (ORSetDelta T)) (s : ORSet T) : Prop where
  added : ∀ e t, Live s.elements e t → ∃ d ∈ got, Live d.adds e t
  apart : Apart s.elements s.tombstones
  noneEmpty : NoneEmpty s.elements

theorem kept_fresh {state : Clock.State} {codecID : List UInt8}
    (h : newORSetFromClock state codecID = .ok s) : s.elements = ∅ ∧ s.tombstones = ∅ := by
  unfold newORSetFromClock at h
  split_ifs at h
  split at h <;> cases h
  exact ⟨rfl, rfl⟩

variable {got : List (ORSetDelta T)}

theorem Kept.joins {adds : Adds T} {tombstones : TagSet}
    (h : Kept got s) (hadded : ∀ e t, Live adds e t → ∃ d ∈ ds, Live d.adds e t)
    (hj : Joins s.elements s.tombstones adds tombstones s'.elements s'.tombstones) : Kept (got ++ ds) s' := by
  refine ⟨fun e t hl => ?_, fun e t hl => ((hj.live e t).mp hl).2, hj.noneEmpty h.noneEmpty⟩
  rcases ((hj.live e t).mp hl).1 with hl | hl
  · obtain ⟨d, hd, hl⟩ := h.added e t hl
    exact ⟨d, mem_append_left _ hd, hl⟩
  · obtain ⟨d, hd, hl⟩ := hadded e t hl
    exact ⟨d, mem_append_right _ hd, hl⟩

theorem Kept.one (h : Kept got s) (hone : OneElement got) :
    ∀ a t, Live s.elements e t → Live s.elements a t → a = e := by
  intro a t he ha
  obtain ⟨d, hd, hl⟩ := h.added e t he
  obtain ⟨d', hd', hl'⟩ := h.added a t ha
  exact hone d' hd' d hd a e t hl' hl

theorem Kept.forget (h : Kept got s) (acknowledged : Tag → Bool) : Kept got (s.forget acknowledged) :=
  ⟨h.added, fun e t hl hm => h.apart e t hl (TagSet.mem_filter.mp hm).1, h.noneEmpty⟩

theorem Reachable.kept (h : Reachable got s) (hone : OneElement got) : Kept got s := by
  induction h with
  | fresh hnew =>
    obtain ⟨he, ht⟩ := kept_fresh hnew
    exact ⟨by simp [he], by simp [Apart, he], by simp [NoneEmpty, he]⟩
  | apply _ hd happ ih =>
    have ih := ih (hone.mono fun d hd => mem_append_left _ hd)
    exact ih.joins hd.covers.added (applyDelta_spec ih.apart happ)
  | merge _ _ happ ihs iho =>
    have ihs := ihs (hone.mono fun d hd => mem_append_left _ hd)
    have iho := iho (hone.mono fun d hd => mem_append_right _ hd)
    exact ihs.joins iho.added (merge_spec ihs.apart happ)
  | add _ hadd ih =>
    have ih := ih (hone.mono fun d hd => mem_append_left _ hd)
    exact ih.joins (fun e t hl => ⟨_, by simp, hl⟩) (add_spec ih.apart hadd)
  | remove _ hrem ih =>
    have hone' := hone.mono fun d hd => mem_append_left _ hd
    have ih := ih hone'
    exact ih.joins (fun e t hl => ⟨_, by simp, hl⟩) (remove_spec ih.apart (ih.one hone') hrem)
  | compact _ hc ih =>
    unfold ORSet.compact at hc
    split_ifs at hc <;> cases hc
    exact (ih hone).forget _
  | compactTombstones _ hc ih =>
    unfold ORSet.compactTombstones at hc
    split_ifs at hc <;> cases hc
    exact (ih hone).forget _
  | install _ hd hi ih =>
    unfold ORSet.install at hi
    split at hi
    · cases hi
      exact ⟨fun e t hl => ⟨_, mem_append_right _ (mem_singleton_self _), hl⟩, hd.apart, hd.noneEmpty⟩
    · split at hi <;> cases hi
      exact ⟨fun e t hl => ⟨_, mem_append_right _ (mem_singleton_self _), hl⟩, hd.apart, hd.noneEmpty⟩
  | clock _ clock ih => exact ⟨(ih hone).added, (ih hone).apart, (ih hone).noneEmpty⟩

theorem Delivered.reachable (h : Delivered got s) : Reachable got s := by
  induction h with
  | fresh hnew => exact .fresh hnew
  | apply _ hd happ ih => exact .apply ih hd happ
  | merge _ _ happ ihs iho => exact .merge ihs iho happ
  | add _ hadd ih => exact .add ih hadd
  | remove _ hrem ih => exact .remove ih hrem

theorem Delivered.covers (h : Delivered got s) (hone : OneElement got) :
    Covers s.elements s.tombstones got := by
  have hsingle : ∀ d : ORSetDelta T, Covers d.adds d.tombstones [d] := fun d => (Bundle.single d).covers
  induction h with
  | fresh hnew =>
    obtain ⟨he, ht⟩ := kept_fresh hnew
    exact ⟨by simp [ht], by simp [he], by simp⟩
  | apply hs hd happ ih =>
    have hone' := hone.mono fun d hd => mem_append_left _ hd
    exact (ih hone').joins hd.covers (applyDelta_spec (hs.reachable.kept hone').apart happ)
  | merge hs ho happ ihs iho =>
    have hone' := hone.mono fun d hd => mem_append_left _ hd
    have iho := iho (hone.mono fun d hd => mem_append_right _ hd)
    exact (ihs hone').joins iho (merge_spec (hs.reachable.kept hone').apart happ)
  | add hs hadd ih =>
    have hone' := hone.mono fun d hd => mem_append_left _ hd
    exact (ih hone').joins (hsingle _) (add_spec (hs.reachable.kept hone').apart hadd)
  | remove hs hrem ih =>
    have hone' := hone.mono fun d hd => mem_append_left _ hd
    have hkept := hs.reachable.kept hone'
    exact (ih hone').joins (hsingle _) (remove_spec hkept.apart (hkept.one hone') hrem)

theorem ORSet.contains_iff : s.contains e = true ↔ ∃ t, Live s.elements e t := by
  rw [ORSet.contains, decide_eq_true_eq, gt_iff_lt, Nat.pos_iff_ne_zero, ne_eq,
    ← eq_empty_iff_size_eq_zero]
  constructor
  · intro hne
    by_contra hnone
    refine hne (ext_mem fun t => ?_)
    exact iff_of_false (fun ht => hnone ⟨t, live_iff.mpr ht⟩) (by simp)
  rintro ⟨t, hl⟩ he
  rw [live_iff, he] at hl
  simp at hl

/-- Deltas in which each tag is added for one element at most, however they were delivered: the
tombstones are the union, the live tags of an element are its added tags outside the union, and
an element is visible if it has one. In every state that can be reached, compacted or not, live
tags and tombstones are apart and no element is without a tag; and a valid delta is refused by
nothing but the clock, which then changes nothing. -/
theorem or_set_denotation {got : List (ORSetDelta T)} (hone : OneElement got) : (∀ s, Delivered got s →
      (∀ t, t ∈ s.tombstones ↔ ∃ d ∈ got, t ∈ d.tombstones) ∧
      (∀ e t, Live s.elements e t ↔ (∃ d ∈ got, Live d.adds e t) ∧ ∀ d ∈ got, t ∉ d.tombstones) ∧
      (∀ e, e ∈ s.elements ↔ ∃ t, (∃ d ∈ got, Live d.adds e t) ∧ ∀ d ∈ got, t ∉ d.tombstones) ∧
      ∀ e, s.contains e = true ↔ ∃ t, (∃ d ∈ got, Live d.adds e t) ∧ ∀ d ∈ got, t ∉ d.tombstones) ∧
    ∀ s, Reachable got s → (∀ e t, Live s.elements e t → t ∉ s.tombstones) ∧
      (∀ (e : T) (tags : TagSet), s.elements[e]? = some tags → ∃ t, t ∈ tags) ∧
      ∀ (d : ORSetDelta T) (millis : Int64), d.Valid → (s.applyDelta d millis).2 = .ok () ∨
        (∃ err, (s.applyDelta d millis).2 = .error (.clock err)) ∧ (s.applyDelta d millis).1 = s := by
  refine ⟨fun s hs => ?_, fun s hs => ?_⟩
  · have hc := hs.covers hone
    have hk := hs.reachable.kept hone
    have hlive : ∀ e t, Live s.elements e t ↔
        (∃ d ∈ got, Live d.adds e t) ∧ ∀ d ∈ got, t ∉ d.tombstones := by
      intro e t
      constructor
      · intro hl
        refine ⟨hc.added e t hl, fun d hd ht => ?_⟩
        exact hk.apart e t hl ((hc.buried t).mpr ⟨d, hd, ht⟩)
      rintro ⟨⟨d, hd, hl⟩, hn⟩
      refine (hc.live d hd e t hl).resolve_right fun ht => ?_
      obtain ⟨d', hd', ht'⟩ := (hc.buried t).mp ht
      exact hn d' hd' ht'
    refine ⟨hc.buried, hlive, fun e => ?_, fun e => ?_⟩
    · rw [hk.noneEmpty.mem_iff]
      simp only [hlive]
    · rw [ORSet.contains_iff]
      simp only [hlive]
  · have hk := hs.kept hone
    exact ⟨hk.apart, hk.noneEmpty, fun d millis hd => applyDelta_total hk.apart hd millis⟩

/-- Deltas applied one after the other to a new set. -/
def newWith (ds : List (ORSetDelta T)) : Option (ORSet T) :=
  match newORSetFromClock ⟨[7], 0, 0⟩ [1] with
  | .error _ => none
  | .ok s => ds.foldlM (fun s d =>
    match s.applyDelta d 0 with
    | (s, .ok ()) => some s
    | _ => none) s

theorem Delivered.foldlM (h : Delivered got s) (hds : ds.foldlM (fun s d =>
      match s.applyDelta d 0 with
      | (s, .ok ()) => some s
      | _ => none) s = some s') : Delivered (got ++ ds) s' := by
  induction ds generalizing got s with
  | nil =>
    cases hds
    simpa using h
  | cons d ds ih =>
    rw [foldlM_cons] at hds
    obtain ⟨s₁, h₁, hds⟩ := Option.bind_eq_some_iff.mp hds
    split at h₁
    · rename_i s₂ happ
      cases h₁
      simpa using ih (h.apply (.single d) happ) hds
    · cases h₁

theorem delivered_newWith (h : newWith ds = some s) : Delivered ds s := by
  unfold newWith at h
  split at h
  · cases h
  · rename_i s₀ hs₀
    exact (Delivered.fresh hs₀).foldlM h

/-- A remove of the first add comes before it; the second add was not observed and wins. -/
theorem or_set_denotation_add_wins :
    let t₁ : Tag := ⟨[1], 1, 0⟩
    let t₂ : Tag := ⟨[2], 1, 0⟩
    let got : List (ORSetDelta Nat) := [{tombstones := (∅ : TagSet).insert t₁},
      {adds := (∅ : Adds Nat).insert 5 ((∅ : TagSet).insert t₁)},
      {adds := (∅ : Adds Nat).insert 5 ((∅ : TagSet).insert t₂)}]
    ∃ s, Delivered got s ∧ OneElement got ∧ s.contains 5 = true ∧ ¬ Live s.elements 5 t₁ := by
  intro t₁ t₂ got
  have hsome : (newWith got).isSome = true := by decide +kernel
  obtain ⟨s, hs⟩ := Option.isSome_iff_exists.mp hsome
  have hadds : ∀ d ∈ got, ∀ e t, Live d.adds e t → e = 5 := by
    intro d hd e t hl
    simp only [got, mem_cons, not_mem_nil, or_false] at hd
    rcases hd with rfl | rfl | rfl
    · simp at hl
    all_goals
      rw [live_iff, MapLoop.get?_insert] at hl
      split_ifs at hl with he
      · exact he.symm
      · simp at hl
  have hone : OneElement got := fun d hd d' hd' e e' t hl hl' =>
    (hadds d hd e t hl).trans (hadds d' hd' e' t hl').symm
  have hdel := delivered_newWith hs
  have hdenotes := or_set_denotation hone
  obtain ⟨_, hlive, _, hcontains⟩ := hdenotes.1 s hdel
  refine ⟨s, hdel, hone, (hcontains 5).mpr ⟨t₂, ⟨_, by simp [got]; exact .inr (.inr rfl), ?_⟩, ?_⟩, ?_⟩
  · simp [live_iff]
  · simp [got, t₁, t₂]
  · rw [hlive]
    simp [got]

end Crdt.OrSet
