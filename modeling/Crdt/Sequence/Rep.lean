import Crdt.Sequence.Splice

/-! The index holds one list of markers twice.

`Rep s l` says that the treap and the linked list of an index both spell `l`. The
three insertions of the source keep that (`insertPairAfter_rep`,
`insertLinearPairsAfter_rep` and, for the list package, `insertPairAfterOneByOne_rep`);
what else they do is the same for all of them (`Splices`). -/
namespace Crdt.Sequence

open BinaryTree Segment List

namespace SequenceIndex

/-- The treap and the linked list both hold `l`. -/
structure Rep (s : SequenceIndex) (l : List MarkerRef) : Prop where
  tree : ∃ t, Owned s.markers none t ∧ t.inorder = l ∧ s.root = t.top
  chain : Chain s.markers none l none
  allocated : ∀ m ∈ l, m.pair < s.allocated

variable {s s' : SequenceIndex} {l l' before after ms : List MarkerRef} {a : MarkerRef}

theorem Rep.nodup (h : s.Rep l) : l.Nodup := by
  obtain ⟨t, ht, rfl, _⟩ := h.tree
  exact ht.nodup

theorem length_lt_of_bounded {n : Nat} (hnodup : l.Nodup) (h : ∀ m ∈ l, m.pair < n) : l.length < 2 * n + 1 := by
  have hsub : l ⊆ (List.range n).flatMap fun r => [⟨r, .entry⟩, ⟨r, .exit⟩] := by
    rintro ⟨r, side⟩ hm
    simp only [mem_flatMap, mem_range]
    refine ⟨r, h _ hm, ?_⟩
    cases side <;> simp
  have := hnodup.length_le_of_subset hsub
  simp at this
  omega

theorem Rep.length_lt_fuel (h : s.Rep l) : l.length < s.fuel := length_lt_of_bounded h.nodup h.allocated

/-! ### Splicing a run -/

/-- What every splice yields: the new run stands in the index, its pairs are registered
and nothing else changed. -/
structure Splices (s s' : SequenceIndex) (l' : List MarkerRef) (pairs : List Nat) : Prop where
  rep : s'.Rep l'
  position : s'.position = s.position
  singleChild : s'.singleChild = s.singleChild
  allocated : s'.allocated = s.allocated
  visible : ∀ x, (s'.markers x).visible = (s.markers x).visible
  pairs : s'.pairs = s.register pairs

/-- A run that is spliced in is itself without repetition, and so is its anchor. -/
theorem nodup_run (hnodup : (before ++ a :: (ms ++ after)).Nodup) : (a :: ms).Nodup := by
  rw [← cons_append, ← append_assoc] at hnodup
  exact hnodup.of_append_left.of_append_right

section
variable (h : s.Rep (before ++ a :: after)) (ms : List MarkerRef)
  (hnodup : (before ++ a :: (ms ++ after)).Nodup) (halloc : ∀ m ∈ ms, m.pair < s.allocated)
include h hnodup halloc

theorem spliceWith_links_spec (join : Markers → Option MarkerRef → Option (Markers × Option MarkerRef))
    (hjoin : ∀ c tl, (before ++ [a] ++ ms).Nodup → (before ++ [a] ++ ms).length < s.fuel →
      (∀ x ∈ ms, c x = spliceLinks s.markers a ms x) → Owned c none tl → tl.inorder = before ++ [a] →
      Builds c (before ++ [a] ++ ms) (join c tl.top)) :
    ∃ c' root, {s with markers := spliceLinks s.markers a ms}.spliceWith a join = some (c', root) ∧
      ∀ pairs, Splices s {s with markers := c', root, pairs := s.register pairs}
        (before ++ a :: (ms ++ after)) pairs := by
  obtain ⟨t, ht, hin, hroot⟩ := h.tree
  have hsame := sameTree_spliceLinks s.markers a ms
  have hbound : ∀ m ∈ before ++ a :: (ms ++ after), m.pair < s.allocated := by
    intro m hm
    by_cases hm' : m ∈ ms
    · exact halloc m hm'
    refine h.allocated m ?_
    simp only [mem_append, mem_cons] at hm ⊢
    tauto
  have hlen := length_lt_of_bounded hnodup hbound
  have hshape : before ++ a :: (ms ++ after) = (before ++ [a] ++ ms) ++ after := by simp
  obtain ⟨c', t', hsplice, ht', hin', hf⟩ :=
    spliceWith_spec {s with markers := spliceLinks s.markers a ms} (hsame.owned ht) hroot hin hnodup
      hlen fun c tl => hjoin c tl (hshape ▸ hnodup).of_append_left (by
        rw [hshape, length_append] at hlen
        exact (Nat.le_add_right ..).trans_lt hlen)
  refine ⟨c', t'.top, hsplice, fun pairs => ⟨⟨⟨t', ht', hin', rfl⟩, ?_, hbound⟩, rfl, rfl, rfl, ?_, rfl⟩⟩
  · exact hf.chain (spliceLinks_spec h.chain hnodup)
  · exact fun x => (hf.visible x).trans (hsame.visible x)

/-- Any way to build a tree over the run between the halves will do. -/
theorem spliceTree_links_spec (middle : Markers → Option (Markers × Option MarkerRef))
    (hmiddle : ∀ c, Builds c ms (middle c)) :
    ∃ c' root, {s with markers := spliceLinks s.markers a ms}.spliceTree a middle = some (c', root) ∧
      ∀ pairs, Splices s {s with markers := c', root, pairs := s.register pairs}
        (before ++ a :: (ms ++ after)) pairs := by
  obtain ⟨c', root, hsplice, hs⟩ := spliceWith_links_spec h ms hnodup halloc
      (fun c left => (middle c).bind fun p => mergeMarkers s.fuel p.1 left p.2) (by
    intro c tl hnd hlen _ htl hinl
    obtain ⟨c₁, tm, hmid, htm, hinm, hf₁⟩ := hmiddle c
    have htl₁ := htl.frame hf₁ fun x hx hx' =>
      (nodup_append.mp hnd).2.2 x (hinl ▸ hx) x hx' rfl
    obtain ⟨c₂, t, hm, ht, hin, hf₂⟩ := merge_spec htl₁ htm (by rw [hinl, hinm]; exact hnd)
      (n := s.fuel) (by rw [hinl, hinm, ← length_append]; exact hlen)
    rw [hinl, hinm] at hin hf₂
    exact ⟨c₂, t, by simp [hmid, hm], ht, hin, (hf₁.mono (subset_append_right ..)).trans hf₂⟩)
  refine ⟨c', root, ?_, hs⟩
  rw [← hsplice]
  simp only [spliceTree, spliceWith, Option.bind_eq_bind, Option.bind_assoc]
  rfl

end

section
variable (h : s.Rep (before ++ a :: after))
include h

theorem insertLinearMarkersAfter_spec {n : Nat} (hn : n ≠ 0)
    (hlen : ms.length = n * 2) (hnodup : (before ++ a :: (ms ++ after)).Nodup)
    (halloc : ∀ m ∈ ms, m.pair < s.allocated) : ∃ s', s.insertLinearMarkersAfter a ms n = some s' ∧
      Splices s s' (before ++ a :: (ms ++ after)) ((ms.take n).map MarkerRef.pair) := by
  cases ms with
  | nil => simp at hlen; omega
  | cons first rest =>
    have hsub := nodup_run hnodup
    have hfuel : (first :: rest).length ≤ s.fuel := (length_lt_of_bounded (nodup_cons.mp hsub).2 halloc).le
    obtain ⟨c', root, hsplice, hs⟩ := spliceTree_links_spec h (first :: rest) hnodup halloc
      (fun c => markerTree s.fuel c (first :: rest))
      fun c => markerTree_spec c (nodup_cons.mp hsub).2 hfuel
    refine ⟨_, ?_, hs ((first :: rest).take n |>.map MarkerRef.pair)⟩
    simp only [insertLinearMarkersAfter, hn, hlen, ne_eq, not_true_eq_false, or_self, if_false]
    rw [spliceLinks_eq s.markers hsub]
    change Option.bind ({s with markers := spliceLinks s.markers a (first :: rest)}.spliceTree a
      fun c => markerTree s.fuel c (first :: rest)) _ = _
    rw [hsplice]
    rfl

theorem insertPairAfter_rep {r : Nat}
    (hnodup : (before ++ a :: ([⟨r, .entry⟩, ⟨r, .exit⟩] ++ after)).Nodup) (halloc : r < s.allocated) :
    ∃ s', s.insertPairAfter a r = some s' ∧
      Splices s s' (before ++ a :: ([⟨r, .entry⟩, ⟨r, .exit⟩] ++ after)) [r] :=
  insertLinearMarkersAfter_spec h (n := 1) (by decide) rfl hnodup (by simpa using halloc)

theorem insertLinearPairsAfter_rep {pairs : List Nat}
    (hpairs : pairs ≠ []) (hnodup : (before ++ a :: (linearMarkers pairs ++ after)).Nodup)
    (halloc : ∀ r ∈ pairs, r < s.allocated) : ∃ s', s.insertLinearPairsAfter a pairs = some s' ∧
      Splices s s' (before ++ a :: (linearMarkers pairs ++ after)) pairs := by
  have hbound : ∀ m ∈ linearMarkers pairs, m.pair < s.allocated := by
    intro m hm
    simp only [linearMarkers, mem_append, mem_map, mem_reverse] at hm
    rcases hm with ⟨r, hr, rfl⟩ | ⟨r, hr, rfl⟩ <;> exact halloc r hr
  have hsub := (nodup_run hnodup).of_cons
  have hfuel : (linearMarkers pairs).length < s.fuel := length_lt_of_bounded hsub hbound
  obtain ⟨c', root, hsplice, hs⟩ := spliceTree_links_spec h _ hnodup hbound
    (fun c => markerTreeForLinearPairs s.fuel c pairs)
    fun c => markerTreeForLinearPairs_spec c hsub hfuel
  refine ⟨_, ?_, hs pairs⟩
  rw [insertLinearPairsAfter, if_neg hpairs]
  change Option.bind ({s with markers := spliceLinks s.markers a (linearMarkers pairs)}.spliceTree a
    fun c => markerTreeForLinearPairs s.fuel c pairs) _ = _
  rw [hsplice]
  rfl

end

/-- A single marker that is a tree of its own. -/
abbrev Leaf (c : Markers) (x : MarkerRef) : Prop := Owned c none (.node x .nil .nil)

theorem insertPairAfterOneByOne_rep (h : s.Rep (before ++ a :: after)) {r : Nat}
    (hentry : Leaf s.markers ⟨r, .entry⟩) (hexit : Leaf s.markers ⟨r, .exit⟩)
    (hnodup : (before ++ a :: ([⟨r, .entry⟩, ⟨r, .exit⟩] ++ after)).Nodup) (halloc : r < s.allocated) :
    ∃ s', s.insertPairAfterOneByOne a r = some s' ∧
      Splices s s' (before ++ a :: ([⟨r, .entry⟩, ⟨r, .exit⟩] ++ after)) [r] := by
  have hsame := sameTree_spliceLinks s.markers a [⟨r, .entry⟩, ⟨r, .exit⟩]
  obtain ⟨c', root, hsplice, hs⟩ := spliceWith_links_spec h [⟨r, .entry⟩, ⟨r, .exit⟩] hnodup
    (by simpa using halloc) (fun c left => (mergeMarkers s.fuel c left (some ⟨r, .entry⟩)).bind fun p =>
      mergeMarkers s.fuel p.1 p.2 (some ⟨r, .exit⟩)) (by
    intro c tl hnd hlen hc htl hinl
    -- the two new markers are away from the old tree
    have hleaf : ∀ {x : MarkerRef}, x ∈ [⟨r, .entry⟩, (⟨r, .exit⟩ : MarkerRef)] → Leaf s.markers x →
        Leaf c x := fun hx hl => (hsame.owned hl).congr fun y hy => hc y (by
      rw [mem_singleton.mp hy]
      exact hx)
    have hshape : before ++ [a] ++ [⟨r, .entry⟩, ⟨r, .exit⟩] =
        before ++ [a] ++ [⟨r, .entry⟩] ++ [⟨r, .exit⟩] := by simp
    rw [hshape] at hnd hlen ⊢
    obtain ⟨hnd₁, _, hd⟩ := nodup_append.mp hnd
    obtain ⟨c₁, t₁, hm₁, ht₁, hin₁, hf₁⟩ := merge_spec htl (hleaf (by simp) hentry)
      (by rw [hinl]; exact hnd₁) (n := s.fuel) (by rw [hinl]; simp at hlen ⊢; omega)
    rw [hinl] at hin₁ hf₁
    have hexit₁ : Leaf c₁ ⟨r, .exit⟩ := (hleaf (by simp) hexit).frame hf₁ fun y hy hy' =>
      hd y hy' y hy rfl
    obtain ⟨c₂, t₂, hm₂, ht₂, hin₂, hf₂⟩ := merge_spec ht₁ hexit₁ (by rw [hin₁]; exact hnd)
      (n := s.fuel) (by rw [hin₁, ← length_append]; exact hlen)
    rw [hin₁] at hin₂ hf₂
    refine ⟨c₂, t₂, ?_, ht₂, hin₂, (hf₁.mono (subset_append_left ..)).trans hf₂⟩
    rw [show some (⟨r, .entry⟩ : MarkerRef) = (node ⟨r, .entry⟩ nil nil).top from rfl, hm₁]
    exact hm₂)
  refine ⟨_, ?_, hs [r]⟩
  have heq := congrArg (Option.bind · fun p : Markers × Option MarkerRef =>
    some {s with markers := p.1, root := p.2, pairs := s.register [r]}) hsplice
  simp only [spliceWith, Option.bind_eq_bind, Option.bind_assoc, Option.bind_some] at heq
  exact heq

end SequenceIndex

end Crdt.Sequence
