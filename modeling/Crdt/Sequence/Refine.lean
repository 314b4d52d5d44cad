import Crdt.Lib.Forest
import Crdt.Sequence.Rep

/-! The index as one sequence of marks.

`Holds s l marks vis` ties an index to what it is for. The treap and the linked
list both hold the marker addresses `l`; read through the pairs' positions they
are the enter and exit marks `marks`, each at most once; exactly the entries of
positions in `vis` are visible; and the registry names exactly the pairs that
stand in `l`. Every operation of the index is specified at this level. -/
namespace Crdt.Sequence

open BinaryTree Segment Forest List

namespace SequenceIndex

/-- The mark a marker stands for. -/
def label (s : SequenceIndex) (m : MarkerRef) : Mark Position :=
  match m.side with
  | .entry => .enter (s.position m.pair)
  | .exit => .exit (s.position m.pair)

structure Holds (s : SequenceIndex) (l : List MarkerRef) (marks : List (Mark Position))
    (vis : Position → Bool) : Prop where
  rep : s.Rep l
  labels : l.map s.label = marks
  nodup : marks.Nodup
  visible : ∀ m ∈ l, (s.markers m).visible = (m.side == .entry && vis (s.position m.pair))
  pairs : ∀ p r, s.pairs[p]? = some r ↔ s.position r = p ∧ ⟨r, .entry⟩ ∈ l
  both : ∀ r, ⟨r, .entry⟩ ∈ l ↔ ⟨r, .exit⟩ ∈ l

variable {s s' : SequenceIndex} {l before after : List MarkerRef} {a : MarkerRef}
  {marks : List (Mark Position)} {vis : Position → Bool} {p : Position} {r : Nat} {pairs : List Nat}
  {v : Bool} {ms : List MarkerRef} {x : MarkerRef}

namespace Holds

variable (h : s.Holds l marks vis)
include h

theorem label_inj {x y : MarkerRef} (hx : x ∈ l) (hy : y ∈ l) (he : s.label x = s.label y) : x = y := by
  have hnodup := h.nodup
  rw [← h.labels] at hnodup
  exact inj_on_of_nodup_map hnodup hx hy he

theorem label_mem (hx : x ∈ l) : s.label x ∈ marks := by
  rw [← h.labels]
  exact mem_map_of_mem hx

theorem of_pair (hp : s.pairs[p]? = some r) :
    s.position r = p ∧ ⟨r, .entry⟩ ∈ l ∧ ⟨r, .exit⟩ ∈ l ∧ .enter p ∈ marks ∧ .exit p ∈ marks := by
  obtain ⟨rfl, hr⟩ := (h.pairs p r).mp hp
  exact ⟨rfl, hr, (h.both r).mp hr, h.label_mem hr, h.label_mem ((h.both r).mp hr)⟩

theorem exists_pair {m : Mark Position} (hm : m ∈ marks) : ∃ r, s.pairs[m.node]? = some r := by
  rw [← h.labels] at hm
  obtain ⟨⟨r, side⟩, hr, rfl⟩ := mem_map.mp hm
  cases side with
  | entry => exact ⟨r, (h.pairs _ r).mpr ⟨rfl, hr⟩⟩
  | exit => exact ⟨r, (h.pairs _ r).mpr ⟨rfl, (h.both r).mpr hr⟩⟩

theorem exists_pair_iff : (∃ r, s.pairs[p]? = some r) ↔ .enter p ∈ marks :=
  ⟨fun ⟨_, hr⟩ => (h.of_pair hr).2.2.2.1, fun hm => h.exists_pair hm⟩

theorem pair_eq_none_iff : s.pairs[p]? = none ↔ .enter p ∉ marks := by
  rw [← h.exists_pair_iff, Option.eq_none_iff_forall_ne_some]
  simp

theorem withSingleChild (f : Nat → Option Nat) : {s with singleChild := f}.Holds l marks vis :=
  ⟨⟨h.rep.tree, h.rep.chain, h.rep.allocated⟩, h.labels, h.nodup, h.visible, h.pairs, h.both⟩

end Holds

/-! ### New pairs -/

/-- A pair that is initialised and not yet in the index. -/
structure Fresh (s : SequenceIndex) (r : Nat) (p : Position) (v : Bool) : Prop where
  position : s.position r = p
  entry : Leaf s.markers ⟨r, .entry⟩
  exit : Leaf s.markers ⟨r, .exit⟩
  visible : (s.markers ⟨r, .entry⟩).visible = v
  hidden : (s.markers ⟨r, .exit⟩).visible = false
  allocated : r < s.allocated

theorem leaf_of_cell {c : Markers} (hp : (c x).parent = none)
    (hl : (c x).left = none) (hr : (c x).right = none) (hm : (c x).markers = 1)
    (hv : (c x).visibleN = (c x).shown) : Leaf c x :=
  ⟨⟨hp, hl, hr, trivial, trivial⟩, ⟨by simpa using hm, by simpa using hv, trivial, trivial⟩, by simp⟩

theorem refreshMarker_leaf (c : Markers) (hl : (c x).left = none)
    (hr : (c x).right = none) (y : MarkerRef) : refreshMarker c x y =
      if y = x then {c x with markers := 1, visibleN := (c x).shown} else c y := by
  by_cases hy : y = x
  · subst hy
    rw [refreshMarker_self (by simp [hl]) (by simp [hr])]
    simp [hl, hr, markerCount, visibleCount]
  · rw [if_neg hy, refreshMarker_other hy (by simp [hl]) (by simp [hr])]

section
variable (s : SequenceIndex) (p : Position) (v : Bool)

/-- The store after `initializeSequencePair`: two leaves at the new address. -/
theorem newSequencePair_markers (x : MarkerRef) : (s.newSequencePair p v).1.markers x =
      if x = ⟨s.allocated, .exit⟩ then
        {priority := (markerPriorities p).2, markers := 1, visibleN := 0}
      else if x = ⟨s.allocated, .entry⟩ then
        {visible := v, priority := (markerPriorities p).1, markers := 1, visibleN := if v then 1 else 0}
      else s.markers x := by
  let c : Markers := Function.update (Function.update s.markers ⟨s.allocated, .entry⟩
    {visible := v, priority := (markerPriorities p).1}) ⟨s.allocated, .exit⟩
    {priority := (markerPriorities p).2}
  have hentry := refreshMarker_leaf c (x := ⟨s.allocated, .entry⟩) (by simp [c]) (by simp [c])
  have hexit := refreshMarker_leaf (refreshMarker c ⟨s.allocated, .entry⟩)
    (x := ⟨s.allocated, .exit⟩) (by simp [hentry, c]) (by simp [hentry, c]) x
  change refreshMarker (refreshMarker c ⟨s.allocated, .entry⟩) ⟨s.allocated, .exit⟩ x = _
  rw [hexit, hentry, hentry]
  by_cases h₁ : x = ⟨s.allocated, .exit⟩
  · simp [h₁, c, SequenceMarker.shown]
  by_cases h₂ : x = ⟨s.allocated, .entry⟩
  · simp [h₂, c, SequenceMarker.shown]
  · simp [h₁, h₂, c]

theorem newSequencePair_frame
    (hx : x.pair < s.allocated) : (s.newSequencePair p v).1.markers x = s.markers x := by
  rw [newSequencePair_markers, if_neg, if_neg]
  all_goals
    rintro rfl
    simp at hx

theorem newSequencePair_fresh : (s.newSequencePair p v).1.Fresh s.allocated p v := by
  refine ⟨by simp [newSequencePair], leaf_of_cell ?_ ?_ ?_ ?_ ?_, leaf_of_cell ?_ ?_ ?_ ?_ ?_, ?_, ?_,
    Nat.lt_succ_self _⟩
  all_goals simp [newSequencePair_markers, SequenceMarker.shown]

end

theorem Holds.newSequencePair (h : s.Holds l marks vis) (p : Position) (v : Bool) :
    (s.newSequencePair p v).1.Holds l marks vis := by
  have hcell : ∀ x ∈ l, (s.newSequencePair p v).1.markers x = s.markers x := fun x hx =>
    newSequencePair_frame s p v (h.rep.allocated x hx)
  have hpos : ∀ x ∈ l, (s.newSequencePair p v).1.position x.pair = s.position x.pair := by
    intro x hx
    have := h.rep.allocated x hx
    simp [SequenceIndex.newSequencePair, this.ne]
  obtain ⟨t, ht, rfl, hroot⟩ := h.rep.tree
  refine ⟨⟨⟨t, ht.congr hcell, rfl, hroot⟩, h.rep.chain.congr ?_, ?_⟩, ?_, h.nodup, ?_, ?_, h.both⟩
  · intro x hx
    rw [hcell x hx]
    exact ⟨rfl, rfl⟩
  · exact fun x hx => (h.rep.allocated x hx).trans (Nat.lt_succ_self _)
  · rw [← h.labels]
    refine map_congr_left fun x hx => ?_
    simp only [label, hpos x hx]
  · intro x hx
    rw [hcell x hx, hpos x hx, h.visible x hx]
  intro q r
  rw [show (s.newSequencePair p v).1.pairs = s.pairs from rfl, h.pairs]
  constructor
  · exact fun ⟨hq, hr⟩ => ⟨(hpos _ hr).trans hq, hr⟩
  · exact fun ⟨hq, hr⟩ => ⟨(hpos _ hr).symm.trans hq, hr⟩

theorem Fresh.newSequencePair (h : s.Fresh r p v) (q : Position) (w : Bool) :
    (s.newSequencePair q w).1.Fresh r p v := by
  have hcell : ∀ side, (s.newSequencePair q w).1.markers ⟨r, side⟩ = s.markers ⟨r, side⟩ :=
    fun side => newSequencePair_frame s q w h.allocated
  refine ⟨?_, h.entry.congr ?_, h.exit.congr ?_, ?_, ?_, h.allocated.trans (Nat.lt_succ_self _)⟩
  · simp [SequenceIndex.newSequencePair, h.allocated.ne, h.position]
  · simpa using hcell _
  · simpa using hcell _
  · rw [hcell, h.visible]
  · rw [hcell, h.hidden]

theorem Fresh.withSingleChild (h : s.Fresh r p v) (f : Nat → Option Nat) :
    {s with singleChild := f}.Fresh r p v :=
  ⟨h.position, h.entry, h.exit, h.visible, h.hidden, h.allocated⟩

theorem Fresh.not_mem (hf : s.Fresh r p v) (h : s.Holds l marks vis)
    (hp : .enter p ∉ marks) (side : Side) : (⟨r, side⟩ : MarkerRef) ∉ l := by
  intro hm
  have hentry : (⟨r, .entry⟩ : MarkerRef) ∈ l := by
    cases side with
    | entry => exact hm
    | exit => exact (h.both r).mpr hm
  have := h.label_mem hentry
  rw [label, hf.position] at this
  exact hp this

/-- A slice of pairs is allocated in order, and each is fresh. -/
theorem newSequencePairs_spec (s : SequenceIndex) (items : List (Position × Bool)) :
    ∃ s', s.newSequencePairs items = (s', List.range' s.allocated items.length) ∧
      (∀ l marks vis, s.Holds l marks vis → s'.Holds l marks vis) ∧
      (∀ r p v, s.Fresh r p v → s'.Fresh r p v) ∧
      (∀ i, (hi : i < items.length) → s'.Fresh (s.allocated + i) items[i].1 items[i].2) ∧
      ∀ r, s'.singleChild r = if s.allocated ≤ r ∧ r < s.allocated + items.length then none
        else s.singleChild r := by
  induction items generalizing s with
  | nil =>
    refine ⟨s, rfl, fun _ _ _ => id, fun _ _ _ => id, by simp, fun r => ?_⟩
    simp
  | cons item items ih =>
    obtain ⟨p, v⟩ := item
    obtain ⟨s', hs', hholds, hkeep, hfresh, hsingle⟩ := ih (s.newSequencePair p v).1
    have hnext : (s.newSequencePair p v).1.allocated = s.allocated + 1 := rfl
    rw [hnext] at hs' hfresh hsingle
    refine ⟨s', ?_, fun l marks vis h => hholds l marks vis (h.newSequencePair p v),
      fun r q w h => hkeep r q w (h.newSequencePair p v), ?_, ?_⟩
    · change ((s.newSequencePair p v).1.newSequencePairs items |>.1,
        s.allocated :: ((s.newSequencePair p v).1.newSequencePairs items).2) = _
      rw [hs', length_cons, range'_succ]
    · intro i hi
      cases i with
      | zero => exact hkeep _ _ _ (newSequencePair_fresh s p v)
      | succ i =>
        rw [show s.allocated + (i + 1) = s.allocated + 1 + i by omega]
        exact hfresh i (by simpa using hi)
    intro r
    rw [hsingle, length_cons]
    simp only [newSequencePair, Function.update_apply]
    split_ifs <;> first | rfl | omega

/-! ### Splices, read as marks -/

theorem getElem?_register (s : SequenceIndex)
    (hnodup : (pairs.map s.position).Nodup) (p : Position) (r : Nat) : (s.register pairs)[p]? = some r ↔
      r ∈ pairs ∧ s.position r = p ∨ p ∉ pairs.map s.position ∧ s.pairs[p]? = some r := by
  unfold register
  generalize s.pairs = base
  induction pairs generalizing base with
  | nil => simp
  | cons x pairs ih =>
    simp only [map_cons, nodup_cons] at hnodup
    rw [foldl_cons, ih hnodup.2, Std.ExtTreeMap.getElem?_insert]
    simp only [Tag.compare_eq_eq_iff, map_cons, mem_cons, not_or]
    constructor
    · rintro (⟨hr, rfl⟩ | ⟨hp, hr⟩)
      · exact .inl ⟨.inr hr, rfl⟩
      split_ifs at hr with hx
      · cases hr
        exact .inl ⟨.inl rfl, hx⟩
      · exact .inr ⟨⟨fun h => hx h.symm, hp⟩, hr⟩
    rintro (⟨rfl | hr, rfl⟩ | ⟨⟨hx, hp⟩, hr⟩)
    · exact .inr ⟨hnodup.1, if_pos rfl⟩
    · exact .inl ⟨hr, rfl⟩
    · exact .inr ⟨hp, by rw [if_neg fun h => hx h.symm]; exact hr⟩

/-- What a splice does to the marks: those of the new pairs go behind the anchor's. -/
theorem Holds.splices (h : s.Holds (before ++ a :: after) marks vis)
    (hs : Splices s s' (before ++ a :: (ms ++ after)) pairs) (hms : ∀ m, m ∈ ms ↔ m.pair ∈ pairs)
    (hfresh : ∀ r ∈ pairs, s.Fresh r (s.position r) (vis (s.position r)))
    (hnew : ∀ r ∈ pairs, .enter (s.position r) ∉ marks) (hpos : (pairs.map s.position).Nodup) :
    s'.Holds (before ++ a :: (ms ++ after)) (splice (s.label a) (ms.map s.label) marks) vis := by
  have hmem : ∀ m, m ∈ before ++ a :: (ms ++ after) ↔ m ∈ before ++ a :: after ∨ m ∈ ms := by
    intro m
    simp only [mem_append, mem_cons]
    tauto
  have hlabel : s'.label = s.label := by
    funext m
    simp only [label, hs.position]
  have hsplice : splice (s.label a) (ms.map s.label) marks =
      (before ++ a :: (ms ++ after)).map s.label := by
    have hnd := h.nodup
    rw [← h.labels] at hnd ⊢
    simp only [map_append, map_cons] at hnd ⊢
    exact splice_of_nodup hnd
  -- a mark of a new pair is not one of the old marks
  have hfar : ∀ x ∈ before ++ a :: after, ∀ y ∈ ms, s.label x ≠ s.label y := by
    intro x hx y hy he
    have hm := h.label_mem hx
    rw [he] at hm
    obtain ⟨q, hq⟩ := h.exists_pair hm
    refine hnew y.pair ((hms y).mp hy) ?_
    have hnode : (s.label y).node = s.position y.pair := by
      unfold label
      split <;> rfl
    rw [hnode] at hq
    exact (h.of_pair hq).2.2.2.1
  have hsame : ∀ x ∈ ms, ∀ y ∈ ms, s.label x = s.label y → x = y := by
    rintro ⟨x, side⟩ hx ⟨y, side'⟩ hy he
    have hxy : side = side' ∧ s.position x = s.position y := by
      cases side <;> cases side' <;> simp_all [label]
    obtain ⟨rfl, hxy⟩ := hxy
    have := inj_on_of_nodup_map hpos ((hms _).mp hx) ((hms _).mp hy) hxy
    simpa using this
  refine ⟨hs.rep, by rw [hlabel, hsplice], ?_, ?_, ?_, ?_⟩
  · rw [hsplice]
    refine List.Nodup.map_on ?_ hs.rep.nodup
    intro x hx y hy he
    rcases (hmem x).mp hx with hx | hx <;> rcases (hmem y).mp hy with hy | hy
    · exact h.label_inj hx hy he
    · exact absurd he (hfar x hx y hy)
    · exact absurd he.symm (hfar y hy x hx)
    · exact hsame x hx y hy he
  · intro m hm
    rw [hs.visible, hs.position]
    rcases (hmem m).mp hm with hm | hm
    · exact h.visible m hm
    have hf := hfresh m.pair ((hms m).mp hm)
    obtain ⟨r, side⟩ := m
    cases side with
    | entry => rw [hf.visible]; rfl
    | exit => rw [hf.hidden]; rfl
  · intro q r
    rw [hs.pairs, getElem?_register s hpos, hs.position, hmem, hms, h.pairs]
    constructor
    · rintro (⟨hr, rfl⟩ | ⟨_, rfl, hr⟩)
      · exact ⟨rfl, .inr hr⟩
      · exact ⟨rfl, .inl hr⟩
    rintro ⟨rfl, hr | hr⟩
    · refine .inr ⟨fun hm => ?_, rfl, hr⟩
      obtain ⟨x, hx, he⟩ := mem_map.mp hm
      refine hnew x hx ?_
      rw [he]
      exact h.label_mem hr
    · exact .inl ⟨hr, rfl⟩
  · intro r
    rw [hmem, hmem, hms, hms, h.both]

/-- What an insertion leaves as it was. -/
structure Kept (s s' : SequenceIndex) : Prop where
  position : s'.position = s.position
  singleChild : s'.singleChild = s.singleChild
  allocated : s'.allocated = s.allocated

theorem Holds.nodup_splice (h : s.Holds (before ++ a :: after) marks vis)
    (hms : ms.Nodup) (hfar : ∀ m ∈ ms, m ∉ before ++ a :: after) : (before ++ a :: (ms ++ after)).Nodup := by
  have hp : (ms ++ (before ++ a :: after)).Perm (before ++ a :: (ms ++ after)) := by
    have h₁ : (ms ++ a :: after).Perm (a :: (ms ++ after)) := perm_middle
    refine .trans ?_ (h₁.append_left before)
    rw [← append_assoc, ← append_assoc]
    exact (perm_append_comm).append_right _
  refine hp.nodup (nodup_append.mpr ⟨hms, h.rep.nodup, ?_⟩)
  rintro x hx _ hy rfl
  exact hfar x hx hy

theorem insertPair_spec {f : SequenceIndex → MarkerRef → Nat → Option SequenceIndex}
    (hf : ∀ {s : SequenceIndex} {before after : List MarkerRef} {a : MarkerRef} {r : Nat},
      s.Rep (before ++ a :: after) → Leaf s.markers ⟨r, .entry⟩ → Leaf s.markers ⟨r, .exit⟩ →
      (before ++ a :: ([⟨r, .entry⟩, ⟨r, .exit⟩] ++ after)).Nodup → r < s.allocated →
      ∃ s', f s a r = some s' ∧ Splices s s' (before ++ a :: ([⟨r, .entry⟩, ⟨r, .exit⟩] ++ after)) [r])
    (h : s.Holds l marks vis) (ha : a ∈ l) (hr : s.Fresh r p (vis p)) (hp : .enter p ∉ marks) :
    ∃ s' l', f s a r = some s' ∧
      s'.Holds l' (splice (s.label a) [.enter p, .exit p] marks) vis ∧ Kept s s' ∧
      s'.pairs = s.pairs.insert p r := by
  obtain ⟨before, after, rfl⟩ := append_of_mem ha
  obtain rfl := hr.position
  obtain ⟨s', hs', hsp⟩ := hf h.rep hr.entry hr.exit (h.nodup_splice (by simp) (by
    simp only [mem_cons, not_mem_nil, or_false]
    rintro m (rfl | rfl)
    · exact hr.not_mem h hp _
    · exact hr.not_mem h hp _)) hr.allocated
  refine ⟨s', _, hs', h.splices hsp ?_ (by simpa using hr) (by simpa using hp) (by simp),
    ⟨hsp.position, hsp.singleChild, hsp.allocated⟩, hsp.pairs⟩
  rintro ⟨x, side⟩
  cases side <;> simp

variable (h : s.Holds l marks vis) (ha : a ∈ l)
include h ha

theorem insertPairAfter_spec (hr : s.Fresh r p (vis p)) (hp : .enter p ∉ marks) :
    ∃ s' l', s.insertPairAfter a r = some s' ∧
      s'.Holds l' (splice (s.label a) [.enter p, .exit p] marks) vis ∧ Kept s s' ∧
      s'.pairs = s.pairs.insert p r :=
  insertPair_spec (f := insertPairAfter) (fun h _ _ hn hb => insertPairAfter_rep h hn hb) h ha hr hp

theorem insertPairAfterOneByOne_spec (hr : s.Fresh r p (vis p)) (hp : .enter p ∉ marks) :
    ∃ s' l', s.insertPairAfterOneByOne a r = some s' ∧
      s'.Holds l' (splice (s.label a) [.enter p, .exit p] marks) vis ∧ Kept s s' ∧
      s'.pairs = s.pairs.insert p r :=
  insertPair_spec (f := insertPairAfterOneByOne)
    (fun h he hx hn hb => insertPairAfterOneByOne_rep h he hx hn hb) h ha hr hp

theorem insertLinearPairsAfter_spec
    (hne : pairs ≠ []) (hr : ∀ r ∈ pairs, s.Fresh r (s.position r) (vis (s.position r)))
    (hp : ∀ r ∈ pairs, .enter (s.position r) ∉ marks) (hpos : (pairs.map s.position).Nodup) :
    ∃ s' l', s.insertLinearPairsAfter a pairs = some s' ∧
      s'.Holds l' (splice (s.label a) ((pairs.map s.position).map .enter ++
        (pairs.map s.position).reverse.map .exit) marks) vis ∧ Kept s s' ∧ s'.pairs = s.register pairs := by
  obtain ⟨before, after, rfl⟩ := append_of_mem ha
  have hmem : ∀ m, m ∈ linearMarkers pairs ↔ m.pair ∈ pairs := by
    rintro ⟨x, side⟩
    cases side <;> simp [linearMarkers]
  have hnodup : (linearMarkers pairs).Nodup := by
    have hpn := hpos.of_map
    refine nodup_append.mpr ⟨hpn.map (by simp [Function.Injective]),
      (nodup_reverse.mpr hpn).map (by simp [Function.Injective]), ?_⟩
    simp only [mem_map, mem_reverse]
    rintro _ ⟨x, _, rfl⟩ _ ⟨y, _, rfl⟩
    simp
  obtain ⟨s', hs', hsp⟩ := insertLinearPairsAfter_rep h.rep hne
    (h.nodup_splice hnodup fun m hm => (hr m.pair ((hmem m).mp hm)).not_mem h
      (hp m.pair ((hmem m).mp hm)) m.side) fun r hm => (hr r hm).allocated
  refine ⟨s', before ++ a :: (linearMarkers pairs ++ after), hs', ?_,
    ⟨hsp.position, hsp.singleChild, hsp.allocated⟩, hsp.pairs⟩
  have hlabels : (linearMarkers pairs).map s.label = (pairs.map s.position).map .enter ++
      (pairs.map s.position).reverse.map .exit := by
    simp only [linearMarkers, map_append, map_map, ← map_reverse]
    rfl
  rw [← hlabels]
  exact h.splices hsp hmem hr hp hpos

end SequenceIndex

end Crdt.Sequence
