import Crdt.Sequence.Refine

/-! The rest of the index: its start, visibility, removal and the queries.

The queries read one list, the visible positions in the order of their entries
(`visibleOf`): its elements by offset, its length, the number of its elements before
a position, and all of it. -/
namespace Crdt.Sequence

open BinaryTree Segment Forest List Option

namespace SequenceIndex

variable {s s' : SequenceIndex} {l : List MarkerRef} {marks : List (Mark Position)}
  {vis : Position → Bool} {p : Position} {r : Nat}

/-! ### The fresh index -/

theorem newSequenceIndex_spec (vis : Position → Bool) (hvis : vis .zero = false) :
    ∃ s, newSequenceIndex = some s ∧ s.Holds [⟨0, .entry⟩, ⟨0, .exit⟩] [.enter .zero, .exit .zero] vis ∧
      ∀ r, s.singleChild r = none := by
  have hf := newSequencePair_fresh empty .zero false
  set s₁ := (empty.newSequencePair .zero false).1 with hs₁
  have hsame := sameTree_link s₁.markers ⟨0, .entry⟩ ⟨0, .exit⟩
  obtain ⟨c', t, hm, ht, hin, hframe⟩ := merge_spec (n := s₁.fuel) (hsame.owned hf.entry)
    (hsame.owned hf.exit) (by simp) (by simp [fuel, hs₁, newSequencePair, empty])
  have hin' : t.inorder = [⟨0, .entry⟩, ⟨0, .exit⟩] := hin
  have hzero : s₁.position 0 = .zero := hf.position
  have hpairs : ∀ (p : Position) (r : Nat), (s₁.pairs.insert .zero 0)[p]? = some r ↔
      p = Tag.zero ∧ r = 0 := by
    intro p r
    have : s₁.pairs = ∅ := rfl
    rw [this, Std.ExtTreeMap.getElem?_insert]
    simp only [Tag.compare_eq_eq_iff]
    split_ifs with hp
    · simp [hp.symm, eq_comm]
    · simp [Ne.symm hp]
  refine ⟨{s₁ with markers := c', root := t.top, pairs := s₁.pairs.insert .zero 0}, ?_, ?_, ?_⟩
  · rw [top_node, top_node] at hm
    unfold newSequenceIndex
    change Option.bind (mergeMarkers s₁.fuel (link s₁.markers ⟨0, .entry⟩ ⟨0, .exit⟩)
      (some ⟨empty.allocated, .entry⟩) (some ⟨empty.allocated, .exit⟩)) _ = _
    rw [hm]
    rfl
  · have hcells : ∀ side, (link s₁.markers ⟨0, .entry⟩ ⟨0, .exit⟩ ⟨0, side⟩).visible = false := by
      intro side
      rw [hsame.visible]
      cases side with
      | entry => exact hf.visible
      | exit => exact hf.hidden
    refine ⟨⟨⟨t, ht, hin', rfl⟩, ?_, ?_⟩, ?_, by simp, ?_, ?_, by simp⟩
    · refine hframe.chain ?_
      have hfresh : ∀ x : MarkerRef, (s₁.markers x).prev = none ∧ (s₁.markers x).next = none := by
        intro x
        simp only [hs₁, newSequencePair_markers]
        split_ifs <;> simp [empty]
      refine linkEnd_chain (l := []) (r := [⟨0, .exit⟩]) ⟨(hfresh _).1, rfl, trivial⟩ ⟨rfl, (hfresh _).2, trivial⟩ (by simp) ?_
      simp
    · simp [hs₁, newSequencePair, empty]
    · simp [label, hzero]
    · intro m hm
      rw [hframe.visible]
      simp only [mem_cons, not_mem_nil, or_false] at hm
      rcases hm with rfl | rfl
      · rw [hcells]
        simp [hzero, hvis]
      · rw [hcells]
        rfl
    intro p r
    rw [hpairs]
    simp only [mem_cons, MarkerRef.mk.injEq, and_true, not_mem_nil, or_false]
    constructor
    · rintro ⟨rfl, rfl⟩
      exact ⟨hzero, by simp⟩
    rintro ⟨rfl, hr⟩
    have : r = 0 := by simpa using hr
    exact ⟨by rw [this]; exact hzero, this⟩
  · intro r
    simp [hs₁, newSequencePair, empty]

/-! ### Visibility -/

theorem setVisible_spec (h : s.Holds l marks vis) (p : Position) (v : Bool) :
    ∃ s', s.setVisible p v = some s' ∧ s'.Holds l marks (Function.update vis p v) ∧
      Kept s s' ∧ s'.pairs = s.pairs := by
  cases hp : s.pairs[p]? with
  | none =>
    refine ⟨s, by simp [setVisible, entry, pair, hp], ⟨h.rep, h.labels, h.nodup, ?_, h.pairs, h.both⟩,
      ⟨rfl, rfl, rfl⟩, rfl⟩
    intro m hm
    -- no marker of the index has an unregistered position
    have hne : s.position m.pair ≠ p := by
      intro he
      have hentry : (⟨m.pair, .entry⟩ : MarkerRef) ∈ l := by
        obtain ⟨x, side⟩ := m
        cases side with
        | entry => exact hm
        | exit => exact (h.both x).mpr hm
      rw [(h.pairs p m.pair).mpr ⟨he, hentry⟩] at hp
      simp at hp
    rw [Function.update_of_ne hne, h.visible m hm]
  | some r =>
    obtain ⟨hpos, hentry, _⟩ := h.of_pair hp
    have hvis := h.visible _ hentry
    simp only [beq_self_eq_true, Bool.true_and, hpos] at hvis
    have hpair : s.entry p = some ⟨r, .entry⟩ := by simp [entry, pair, hp]
    by_cases hv : (s.markers ⟨r, .entry⟩).visible = v
    · refine ⟨s, by simp [setVisible, hpair, hv], ?_, ⟨rfl, rfl, rfl⟩, rfl⟩
      rw [hv] at hvis
      rwa [Function.update_eq_self_iff.mpr hvis]
    obtain ⟨t, ht, rfl, hroot⟩ := h.rep.tree
    obtain ⟨c', hup, ho, hf⟩ := refreshUp_spec ht hentry v h.rep.length_lt_fuel.le
    refine ⟨{s with markers := c'}, by simp [setVisible, hpair, hv, hup],
      ⟨⟨⟨t, ho, rfl, hroot⟩, hf.chain (h.rep.chain.congr ?_), h.rep.allocated⟩, h.labels, h.nodup, ?_,
        h.pairs, h.both⟩, ⟨rfl, rfl, rfl⟩, rfl⟩
    · intro x _
      rw [Markers.modify_apply]
      split_ifs <;> exact ⟨rfl, rfl⟩
    intro m hm
    show (c' m).visible = _
    rw [hf.visible, Markers.modify_apply]
    obtain ⟨x, side⟩ := m
    by_cases hx : (⟨x, side⟩ : MarkerRef) = ⟨r, .entry⟩
    · cases hx
      simp [hpos]
    rw [if_neg hx, h.visible _ hm]
    cases side with
    | exit => rfl
    | entry =>
      have hne : s.position x ≠ p := by
        intro he
        have := (h.pairs p x).mpr ⟨he, hm⟩
        rw [hp] at this
        cases this
        exact hx rfl
      rw [Function.update_of_ne hne]

/-! ### Removal -/

theorem removeLeaf_rep (before after : List MarkerRef) {b : MarkerRef}
    (h : s.Rep (before ++ b :: ([⟨r, .entry⟩, ⟨r, .exit⟩] ++ after))) (hp : s.pairs[p]? = some r) :
    ∃ s', s.removeLeaf p = some (s', true) ∧ s'.Rep (before ++ b :: after) ∧ Kept s s' ∧
      (∀ x, (s'.markers x).visible = (s.markers x).visible) ∧ s'.pairs = s.pairs.erase p := by
  obtain ⟨t, ht, hin, hroot⟩ := h.tree
  have hnodup := h.nodup
  have hlt := h.length_lt_fuel
  rw [← hin] at hlt
  -- the neighbours of the leaf
  have hshape : before ++ b :: ([⟨r, .entry⟩, ⟨r, .exit⟩] ++ after) =
      (before ++ [b]) ++ ⟨r, .entry⟩ :: ⟨r, .exit⟩ :: after := by simp
  have hshape' : before ++ b :: ([⟨r, .entry⟩, ⟨r, .exit⟩] ++ after) =
      (before ++ [b, ⟨r, .entry⟩]) ++ ⟨r, .exit⟩ :: after := by simp
  obtain ⟨hprev, hnext⟩ := (hshape ▸ h.chain).at
  obtain ⟨_, hafter⟩ := (hshape' ▸ h.chain).at
  rw [or_none] at hafter
  simp only [getLast?_concat, some_or, head?_cons] at hprev hnext
  have hsame := sameTree_linkEnd s.markers b after.head?
  have hchain : Chain (linkEnd s.markers b after.head?) none (before ++ b :: after) none := by
    have hparts := h.chain
    rw [append_cons] at hparts
    obtain ⟨hleft, hright⟩ := seg_append.mp hparts
    refine linkEnd_chain hleft (seg_append.mp hright).2 (fun _ => rfl) (hnodup.sublist ?_)
    exact .append_left (.cons_cons _ (sublist_append_right _ _)) _
  -- cut before the entry, cut off two, join what is left
  obtain ⟨rank, c₁, tl, tr, hrank, hsplit, htl, htr, hinl, hinr, hf₁⟩ :=
    cut_spec 0 (hsame.owned ht) (hin.trans hshape) hlt
  obtain ⟨c₂, tm, ta, hsplit₂, htm, hta, hinm, hina, hf₂⟩ := split_spec htr 2 (n := s.fuel) (by
    rw [hinr, drop_zero]; rw [hin, hshape] at hlt; simp at hlt ⊢; omega)
  rw [take_zero, append_nil] at hinl
  rw [Nat.add_zero] at hsplit
  rw [hinr, drop_zero] at hinm hina hf₂
  have hina' : ta.inorder = after := by simpa using hina
  rw [hshape] at hnodup
  have htl₂ := htl.frame hf₂ fun x hx hx' =>
    (nodup_append.mp hnodup).2.2 x (by rwa [hinl] at hx) x hx' rfl
  obtain ⟨c₃, t₃, hm₃, ht₃, hin₃, hf₃⟩ := merge_spec htl₂ hta (by
      rw [hinl, hina']
      refine hnodup.sublist (List.Sublist.append_left ?_ _)
      exact .cons _ (.cons _ (List.Sublist.refl _))) (n := s.fuel)
    (by rw [hinl, hina']; rw [hin, hshape] at hlt; simp at hlt ⊢; omega)
  rw [hinl, hina'] at hin₃ hf₃
  have hf : Frame ((before ++ [b]) ++ ⟨r, .entry⟩ :: ⟨r, .exit⟩ :: after) (linkEnd s.markers b after.head?) c₃ := by
    rw [hin, hshape] at hf₁
    refine .trans (.trans hf₁ (hf₂.mono ?_)) (hf₃.mono ?_)
    all_goals
      intro x
      simp only [mem_append, mem_cons]
      tauto
  refine ⟨{s with markers := c₃, root := t₃.top, pairs := s.pairs.erase p}, ?_,
    ⟨⟨t₃, ht₃, by simpa using hin₃, rfl⟩, hf.chain hchain, fun m hm => h.allocated m ?_⟩,
    ⟨rfl, rfl, rfl⟩, fun x => (hf.visible x).trans (hsame.visible x), rfl⟩
  · unfold linkEnd at hrank hsplit
    simp only [removeLeaf, pair, hp, hnext, ne_eq, not_true_eq_false, if_false, hprev, hafter, hrank,
      hroot, bind_eq_bind, bind_some, hsplit, hsplit₂, hm₃]
    rfl
  · simp only [mem_append, mem_cons] at hm ⊢
    tauto

theorem removeLeaf_spec (h : s.Holds l marks vis) {mb ma : List (Mark Position)}
    {m : Mark Position} (hm : marks = mb ++ m :: ([.enter p, .exit p] ++ ma)) :
    ∃ s' l', s.removeLeaf p = some (s', true) ∧ s'.Holds l' (mb ++ m :: ma) vis ∧ Kept s s' ∧
      s'.pairs = s.pairs.erase p := by
  obtain ⟨before, rest, rfl, rfl, hrest⟩ := map_eq_append_iff.mp (h.labels.trans hm)
  obtain ⟨b, rest', rfl, rfl, hrest'⟩ := map_eq_cons_iff.mp hrest
  obtain ⟨x, rest'', rfl, hx, hrest''⟩ := map_eq_cons_iff.mp hrest'
  obtain ⟨y, after, rfl, hy, rfl⟩ := map_eq_cons_iff.mp hrest''
  obtain ⟨r, rfl, rfl⟩ : ∃ r, x = ⟨r, .entry⟩ ∧ s.position r = p := by
    obtain ⟨r, side⟩ := x
    cases side with
    | entry => exact ⟨r, rfl, by simpa [label] using hx⟩
    | exit => simp [label] at hx
  have hp : s.pairs[s.position r]? = some r := (h.pairs _ r).mpr ⟨rfl, by simp⟩
  obtain rfl : y = ⟨r, .exit⟩ := by
    refine h.label_inj (by simp) ?_ hy
    exact (h.both r).mp (by simp)
  obtain ⟨s', hrem, hrep, hkept, hvis, hpairs⟩ := removeLeaf_rep before after h.rep hp
  have hmem : ∀ z, z ∈ before ++ b :: after ↔
      z ∈ before ++ b :: ⟨r, .entry⟩ :: ⟨r, .exit⟩ :: after ∧ z.pair ≠ r := by
    rintro ⟨z, side⟩
    have hnodup := h.rep.nodup
    cases side <;> grind
  have hlabel : s'.label = s.label := by
    funext z
    simp only [label, hkept.position]
  refine ⟨s', before ++ b :: after, hrem, ⟨hrep, by simp [hlabel], ?_, ?_, ?_, ?_⟩, hkept, hpairs⟩
  · have hnd := h.nodup
    rw [← h.labels] at hnd
    refine hnd.sublist ?_
    rw [← map_cons, ← map_append]
    refine List.Sublist.map _ (List.Sublist.append_left ?_ _)
    exact .cons_cons _ (.cons _ (.cons _ (List.Sublist.refl _)))
  · intro z hz
    rw [hvis, hkept.position]
    exact h.visible z ((hmem z).mp hz).1
  · intro q z
    rw [hpairs, Std.ExtTreeMap.getElem?_erase, hkept.position, hmem]
    simp only [Tag.compare_eq_eq_iff]
    split_ifs with hq
    · subst hq
      simp only [false_iff, not_and, not_not]
      intro he hz
      have := (h.pairs _ z).mpr ⟨he, hz⟩
      rw [hp] at this
      cases this
      rfl
    rw [h.pairs]
    constructor
    · rintro ⟨rfl, hz⟩
      exact ⟨rfl, hz, by rintro rfl; exact hq rfl⟩
    · exact fun ⟨he, hz, _⟩ => ⟨he, hz⟩
  · intro z
    rw [hmem, hmem, h.both]

/-! ### Queries -/

/-- The visible positions of a mark sequence, in the order of their entries. -/
def visibleOf (vis : Position → Bool) (marks : List (Mark Position)) : List Position :=
  marks.filterMap fun
    | .enter p => if vis p then some p else none
    | .exit _ => none

section
variable (vis : Position → Bool)

@[simp] theorem visibleOf_enter (p : Position) (m : List (Mark Position)) :
    visibleOf vis (.enter p :: m) = if vis p then p :: visibleOf vis m else visibleOf vis m := by
  unfold visibleOf
  by_cases hp : vis p <;> simp [hp]

@[simp] theorem visibleOf_exit (p : Position) (m : List (Mark Position)) :
    visibleOf vis (.exit p :: m) = visibleOf vis m := rfl

@[simp] theorem visibleOf_nil : visibleOf vis [] = [] := rfl

theorem visibleOf_eq_filter (marks : List (Mark Position)) :
    visibleOf vis marks = (marks.filterMap Mark.entered).filter vis := by
  rw [filter_filterMap]
  refine filterMap_congr fun m _ => ?_
  cases m with
  | enter q => by_cases hq : vis q <;> simp [hq, Option.filter, Mark.entered]
  | exit q => rfl

theorem visibleOf_eq_preorder (kids : Position → List Position) (n : Nat)
    (p : Position) : visibleOf vis (walk kids n p) = (preorder kids n p).filter vis := by
  rw [preorder_eq_walk, visibleOf_eq_filter]

end

theorem map_visibleIn (h : ∀ m ∈ l, (s.markers m).visible = (m.side == .entry && vis (s.position m.pair))) :
    (visibleIn s.markers l).map (fun x => s.position x.pair) = visibleOf vis (l.map s.label) := by
  induction l with
  | nil => rfl
  | cons m l ih =>
    have ih := ih fun x hx => h x (by simp [hx])
    have hm := h m (by simp)
    obtain ⟨r, side⟩ := m
    unfold visibleIn at *
    cases side with
    | entry =>
      by_cases hv : vis (s.position r) <;> simp_all [label]
    | exit => simp_all [label]

namespace Holds

variable (h : s.Holds l marks vis)
include h

theorem visibleCount : visibleCount s.markers s.root = (visibleOf vis marks).length := by
  obtain ⟨t, ht, rfl, hroot⟩ := h.rep.tree
  rw [hroot, ht.counted.visibleCount, ← h.labels, ← map_visibleIn h.visible, length_map, length_visibleIn]

theorem visibleAt (offset : Int) : s.visibleAt offset =
      some (if offset < 0 then none else (visibleOf vis marks)[offset.toNat]?) := by
  rw [SequenceIndex.visibleAt, h.visibleCount]
  by_cases hneg : offset < 0
  · simp [hneg]
  by_cases hlt : offset < (visibleOf vis marks).length
  · rw [if_neg (by omega), if_neg hneg]
    obtain ⟨t, ht, rfl, hroot⟩ := h.rep.tree
    rw [hroot, descend_spec s ht h.rep.length_lt_fuel, ← h.labels, ← map_visibleIn h.visible, getElem?_map]
  · rw [if_pos (by omega), if_neg hneg, getElem?_eq_none (by omega)]

theorem visibleRank (hp : s.pairs[p]? = some r)
    {mb ma : List (Mark Position)} (hm : marks = mb ++ .enter p :: ma) :
    visibleRank s.fuel s.markers ⟨r, .entry⟩ = some (visibleOf vis mb).length := by
  obtain ⟨t, ht, hin, hroot⟩ := h.rep.tree
  obtain ⟨hpos, hr, _⟩ := h.of_pair hp
  obtain ⟨before, after, hl, hrank⟩ := visibleRank_spec ht (x := ⟨r, .entry⟩) (by rw [hin]; exact hr)
    (n := s.fuel) (by rw [hin]; exact h.rep.length_lt_fuel.le)
  rw [hin] at hl
  have hlab : mb ++ .enter p :: ma = before.map s.label ++ .enter p :: after.map s.label := by
    rw [← hm, ← h.labels, hl, map_append, map_cons]
    simp [label, hpos]
  have hnd := h.nodup
  rw [hm] at hnd
  obtain ⟨rfl, _⟩ := append_inj_of_nodup hnd hlab
  rw [hrank, ← map_visibleIn fun m hmem => h.visible m (by rw [hl]; simp [hmem]), length_map,
    length_visibleIn]

end Holds

theorem visibleFrom_spec {c : Markers} {p : Option MarkerRef} {n : Nat}
    (h : Chain c p l none) (hn : l.length ≤ n) :
    visibleFrom c n l.head? = some ((visibleIn c l).map MarkerRef.pair) := by
  induction l generalizing p n with
  | nil => cases n <;> rfl
  | cons x l ih =>
    obtain ⟨_, hnext, hl⟩ := h
    rw [or_none] at hnext
    obtain ⟨n, rfl⟩ : ∃ m, n = m + 1 := ⟨n - 1, by simp at hn; omega⟩
    simp only [head?_cons, visibleFrom, hnext, ih hl (by simpa using hn), bind_eq_bind,
      bind_some, visibleIn, filter_cons]
    by_cases hx : (c x).visible <;> simp [hx]

variable (h : s.Holds l marks vis) {rest : List (Mark Position)} (hm : marks = .enter .zero :: rest)
  (hzero : vis .zero = false)
include h hm hzero

theorem Holds.visiblePairs : ∃ rs, s.visiblePairs = some rs ∧ rs.map s.position = visibleOf vis marks := by
  obtain ⟨x, l', rfl, hx, rfl⟩ := map_eq_cons_iff.mp (h.labels.trans hm)
  obtain ⟨r, hr⟩ : ∃ r, s.pairs[Tag.zero]? = some r := h.exists_pair_iff.mpr (by simp [hm])
  obtain ⟨hpos, hmem, _⟩ := h.of_pair hr
  obtain rfl : x = ⟨r, .entry⟩ := h.label_inj (by simp) hmem (hx.trans (by simp [label, hpos]))
  have hnext := (h.rep.chain).2.1
  rw [or_none] at hnext
  have hchain := (h.rep.chain).2.2
  have hlen := h.rep.length_lt_fuel
  refine ⟨(visibleIn s.markers l').map MarkerRef.pair, ?_, ?_⟩
  · have hroot : s.entry .zero = some ⟨r, .entry⟩ := by
      rw [entry, pair, hr]
      rfl
    simp only [SequenceIndex.visiblePairs, hroot, bind_eq_bind, bind_some, hnext]
    exact visibleFrom_spec hchain (by simp at hlen; omega)
  · rw [List.map_map, hm, visibleOf_enter, hzero, if_neg (by simp)]
    exact map_visibleIn fun m hmem => h.visible m (by simp [hmem])

theorem Holds.visiblePositions : s.visiblePositions = some (visibleOf vis marks) := by
  obtain ⟨rs, hrs, hpos⟩ := h.visiblePairs hm hzero
  simp only [SequenceIndex.visiblePositions, hrs, bind_eq_bind, bind_some, hpos]
  rfl

end SequenceIndex

end Crdt.Sequence
