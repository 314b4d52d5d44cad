import Crdt.Lib.Segment
import Crdt.Sequence.Build

/-! Splices: a run of markers goes behind an anchor, in the list and in the treap.

The three functions of the source that splice differ in the order in which they
write the list links and in how they build the middle tree. All of them write the
links of `spliceLinks`, and all of them join the run to the left half of the old tree
before the right half comes back (`spliceWith_spec`). -/
namespace Crdt.Sequence

open BinaryTree Segment List Markers

variable {c c' c'' : Markers}

/-- The list links of the markers in `l` spell `l`. -/
abbrev Chain (c : Markers) (p : Option MarkerRef) (l : List MarkerRef) (n : Option MarkerRef) :
    Prop :=
  Seg (fun x => (c x).prev) (fun x => (c x).next) p l n

/-- `c'` is `c` but for list links. -/
def SameTree (c c' : Markers) : Prop :=
  ∀ x, c' x = {c x with prev := (c' x).prev, next := (c' x).next}

theorem SameTree.refl (c : Markers) : SameTree c c := fun _ => rfl

theorem SameTree.trans (h : SameTree c c') (h' : SameTree c' c'') : SameTree c c'' := fun x => by
  rw [h' x, h x]

theorem SameTree.modify (c : Markers) (m : MarkerRef) (f : SequenceMarker → SequenceMarker)
    (hf : ∀ s, f s = {s with prev := (f s).prev, next := (f s).next}) :
    SameTree c (c.modify m f) := fun x => by
  rw [modify_apply]
  split
  · exact hf _
  · rfl

theorem SameTree.modify? (c : Markers) (m : Option MarkerRef) (f : SequenceMarker → SequenceMarker)
    (hf : ∀ s, f s = {s with prev := (f s).prev, next := (f s).next}) : SameTree c (c.modify? m f) := by
  cases m with
  | none => exact .refl c
  | some m => exact .modify c m f hf

theorem SameTree.visible (h : SameTree c c') (x : MarkerRef) : (c' x).visible = (c x).visible := by
  rw [h x]

variable {p : Option MarkerRef} {t : BinaryTree MarkerRef}

theorem SameTree.linked (h : SameTree c c') (ht : Linked c p t) : Linked c' p t := by
  induction t generalizing p with
  | nil => trivial
  | node x l r ihl ihr =>
    obtain ⟨hp, hl, hr, hll, hlr⟩ := ht
    exact ⟨by rw [h x]; exact hp, by rw [h x]; exact hl, by rw [h x]; exact hr, ihl hll, ihr hlr⟩

theorem SameTree.owned (h : SameTree c c') (ht : Owned c p t) : Owned c' p t := by
  refine ⟨h.linked ht.linked, ht.counted.congr fun x _ => ?_, ht.nodup⟩
  rw [h x]
  exact ⟨rfl, rfl, rfl⟩

variable {ms : List MarkerRef}

theorem Frame.chain {l : List MarkerRef} {n : Option MarkerRef} (h : Frame ms c c')
    (hl : Chain c p l n) : Chain c' p l n :=
  hl.congr fun x _ => ⟨h.prev x, h.next x⟩

/-! ### List links -/

variable {a : MarkerRef}

section
variable (c : Markers)

theorem link_comm {f p m : MarkerRef} (hap : a ≠ p) (ham : a ≠ m) (hfm : f ≠ m) :
    link (link c a f) p m = link (link c p m) a f := by
  funext x
  simp only [link, modify_apply]
  split_ifs <;> simp_all

theorem linkRun_link {f p : MarkerRef} (ha : a ∉ p :: ms) (hf : f ∉ ms) :
    linkRun (link c a f) p ms = (link (linkRun c p ms).1 a f, (linkRun c p ms).2) := by
  induction ms generalizing c p with
  | nil => rfl
  | cons m ms ih =>
    simp only [mem_cons, not_or] at ha hf
    rw [linkRun, link_comm c ha.1 ha.2.1 hf.1, ih _ (by simp [ha.2]) hf.2]
    rfl

theorem sameTree_link (a b : MarkerRef) : SameTree c (link c a b) :=
  .trans (.modify c a _ fun _ => rfl) (.modify _ b _ fun _ => rfl)

theorem sameTree_linkEnd (a : MarkerRef) (n : Option MarkerRef) : SameTree c (linkEnd c a n) :=
  .trans (.modify c a _ fun _ => rfl) (.modify? _ n _ fun _ => rfl)

theorem sameTree_linkRun (a : MarkerRef) (ms : List MarkerRef) : SameTree c (linkRun c a ms).1 := by
  induction ms generalizing c a with
  | nil => exact .refl c
  | cons m ms ih => exact (sameTree_link c a m).trans (ih _ m)

theorem linkRun_of_not_mem {x : MarkerRef} (hx : x ∉ a :: ms) : (linkRun c a ms).1 x = c x := by
  induction ms generalizing c a with
  | nil => rfl
  | cons m ms ih =>
    simp only [mem_cons, not_or] at hx
    rw [linkRun, ih _ (by simp [hx]), link, modify_of_ne _ hx.2.1, modify_of_ne _ hx.1]

end

section Chain
variable {p q n n' : Option MarkerRef} {l r : List MarkerRef} {x : MarkerRef}

theorem linkEnd_chain (h : Chain c p (l ++ [x]) n) (h' : Chain c q r n') (hr : r = [] → n' = none)
    (hnodup : (l ++ x :: r).Nodup) : Chain (linkEnd c x r.head?) p (l ++ x :: r) n' := by
  obtain ⟨_, hxr, hd⟩ := nodup_append.mp hnodup
  obtain ⟨hx, hnr⟩ := nodup_cons.mp hxr
  have hne : ∀ y ∈ l ++ [x], r.head? ≠ some y := by
    intro y hy he
    rcases mem_append.mp hy with hy | hy
    · exact hd y hy y (by simp [mem_of_head? he]) rfl
    · exact hx (mem_singleton.mp hy ▸ mem_of_head? he)
  have hcell : ∀ y, linkEnd c x r.head? y = if y = x then {c y with next := r.head?}
      else if r.head? = some y then {c y with prev := some x} else c y := by
    intro y
    simp only [linkEnd, modify?_apply, modify_apply]
    by_cases hy : y = x
    · subst hy
      simp [hne y (by simp)]
    · simp [hy]
  rw [append_cons]
  refine seg_append.mpr ⟨h.setNext _ ?_ ?_ fun y hy => ?_, ?_⟩
  · rw [hcell, if_pos rfl]
    cases r with
    | nil => rw [hr rfl]; rfl
    | cons y r => rfl
  · rw [hcell, if_pos rfl]
  · rw [hcell, if_neg (by rintro rfl; exact hd y hy y (by simp) rfl), if_neg (hne y (by simp [hy]))]
    exact ⟨rfl, rfl⟩
  cases r with
  | nil => trivial
  | cons y r =>
    have hyx : y ≠ x := by rintro rfl; simp at hx
    refine h'.setPrev _ ?_ ?_ fun z hz => ?_
    · rw [hcell, if_neg hyx, if_pos head?_cons]
      simp
    · rw [hcell, if_neg hyx, if_pos head?_cons]
    · have hzx : z ≠ x := by rintro rfl; simp [hz] at hx
      have hyz : y ≠ z := by rintro rfl; exact (nodup_cons.mp hnr).1 hz
      rw [hcell, if_neg hzx, if_neg (by simpa using hyz)]
      exact ⟨rfl, rfl⟩

theorem linkRun_chain (h : Chain c p (l ++ [a]) n) (hnodup : (l ++ a :: ms).Nodup) :
    ∃ init n', init ++ [(linkRun c a ms).2] = l ++ a :: ms ∧
      Chain (linkRun c a ms).1 p (init ++ [(linkRun c a ms).2]) n' := by
  induction ms generalizing c l a n with
  | nil => exact ⟨l, n, rfl, h⟩
  | cons m ms ih =>
    have hm : Chain c (c m).prev [m] (c m).next := ⟨rfl, rfl, trivial⟩
    rw [append_cons] at hnodup
    have hlink := linkEnd_chain h hm nofun (by simpa using hnodup.sublist (.append_left (by simp) _))
    obtain ⟨init, n', hinit, hchain⟩ := ih (by rwa [append_cons] at hlink) hnodup
    exact ⟨init, n', hinit.trans (append_cons ..).symm, hchain⟩

end Chain

/-- The links of a run spliced behind `a`. -/
def spliceLinks (c : Markers) (a : MarkerRef) (ms : List MarkerRef) : Markers :=
  linkEnd (linkRun c a ms).1 (linkRun c a ms).2 (c a).next

theorem sameTree_spliceLinks (c : Markers) (a : MarkerRef) (ms : List MarkerRef) : SameTree c (spliceLinks c a ms) :=
  (sameTree_linkRun c a ms).trans (sameTree_linkEnd _ _ _)

variable {before after : List MarkerRef}

theorem spliceLinks_spec (hc : Chain c none (before ++ a :: after) none)
    (hnodup : (before ++ a :: (ms ++ after)).Nodup) :
    Chain (spliceLinks c a ms) none (before ++ a :: (ms ++ after)) none := by
  obtain ⟨_, hnext⟩ := hc.at
  rw [append_cons] at hc
  obtain ⟨hleft, hright⟩ := seg_append.mp hc
  rw [← cons_append, ← append_assoc] at hnodup ⊢
  obtain ⟨hrun, _, hd⟩ := nodup_append.mp hnodup
  obtain ⟨init, n, hinit, hchain⟩ := linkRun_chain hleft hrun
  rw [spliceLinks, hnext, Option.or_none]
  rw [← hinit, ← append_cons] at hnodup ⊢
  refine linkEnd_chain hchain (hright.congr fun x hx => ?_) (fun _ => rfl) hnodup
  rw [linkRun_of_not_mem c fun hm => hd x (mem_append_right _ hm) x hx rfl]
  exact ⟨rfl, rfl⟩

/-- The order of writes of `insertLinearMarkersAfter`: the run first, then its two ends. -/
theorem spliceLinks_eq (c : Markers) {first : MarkerRef} {rest : List MarkerRef}
    (h : (a :: first :: rest).Nodup) :
    linkEnd (link (linkRun c first rest).1 a first) (linkRun c first rest).2
      ((linkRun c first rest).1 a).next = spliceLinks c a (first :: rest) := by
  obtain ⟨ha, hrest⟩ := nodup_cons.mp h
  rw [spliceLinks, linkRun, linkRun_link c ha (nodup_cons.mp hrest).1, linkRun_of_not_mem c ha]

/-! ### The treap -/

/-- Lists without repetition split at one place only. -/
theorem append_inj_of_nodup {α : Type*} {a : α} {l r l' r' : List α} (h : (l ++ a :: r).Nodup)
    (he : l ++ a :: r = l' ++ a :: r') : l = l' ∧ r = r' := by
  rw [nodup_middle, nodup_cons, mem_append, not_or] at h
  obtain ⟨hl, -, hr⟩ := (append_cons_inj_of_notMem h.1.1 h.1.2).mp he
  exact ⟨hl, hr⟩

/-- A rank and a cut: the tree falls apart `k` markers from its marker `a`. -/
theorem cut_spec {n : Nat} (k : Nat) (h : Owned c none t) (hin : t.inorder = before ++ a :: after)
    (hn : t.inorder.length < n) : ∃ rank c' tl tr, markerRank n c a = some rank ∧
      splitMarkers n c t.top (rank + k) = some (c', tl.top, tr.top) ∧ Owned c' none tl ∧ Owned c' none tr ∧
      tl.inorder = before ++ (a :: after).take k ∧ tr.inorder = (a :: after).drop k ∧
      Frame t.inorder c c' := by
  obtain ⟨before', after', hin', hrank⟩ := markerRank_spec h (x := a) (by simp [hin]) hn.le
  obtain ⟨rfl, rfl⟩ := append_inj_of_nodup (hin ▸ h.nodup) (hin.symm.trans hin')
  obtain ⟨c', tl, tr, hsplit, htl, htr, hinl, hinr, hf⟩ := split_spec h (before.length + k) hn
  refine ⟨before.length, c', tl, tr, hrank, hsplit, htl, htr, ?_, ?_, hf⟩
  · rw [hinl, hin, take_length_add_append]
  · rw [hinr, hin, drop_length_add_append]

/-- Cut behind the anchor, let `join` carry the left half on, put the right half back. -/
def SequenceIndex.spliceWith (s : SequenceIndex) (anchor : MarkerRef)
    (join : Markers → Option MarkerRef → Option (Markers × Option MarkerRef)) :
    Option (Markers × Option MarkerRef) := do
  let rank ← markerRank s.fuel s.markers anchor
  let (c, left, right) ← splitMarkers s.fuel s.markers s.root (rank + 1)
  let (c, left) ← join c left
  mergeMarkers s.fuel c left right

/-- Any way to join the run to the left half will do. -/
theorem spliceWith_spec (s : SequenceIndex) (h : Owned s.markers none t) (hroot : s.root = t.top)
    (hin : t.inorder = before ++ a :: after) (hnodup : (before ++ a :: (ms ++ after)).Nodup)
    (hfuel : (before ++ a :: (ms ++ after)).length < s.fuel)
    {join : Markers → Option MarkerRef → Option (Markers × Option MarkerRef)}
    (hjoin : ∀ c tl, (∀ x ∈ ms, c x = s.markers x) → Owned c none tl → tl.inorder = before ++ [a] →
      Builds c (before ++ [a] ++ ms) (join c tl.top)) :
    Builds s.markers (before ++ a :: (ms ++ after)) (s.spliceWith a join) := by
  obtain ⟨rank, c₁, tl, tr, hrank, hsplit, htl, htr, hinl, hinr, hf₁⟩ :=
    cut_spec 1 h hin (n := s.fuel) (by rw [hin]; simp at hfuel ⊢; omega)
  have hinr : tr.inorder = after := hinr
  have hshape : before ++ a :: (ms ++ after) = (before ++ [a] ++ ms) ++ after := by simp
  rw [hshape] at hnodup hfuel ⊢
  obtain ⟨hnl, _, hd⟩ := nodup_append.mp hnodup
  have hmst : ∀ x ∈ ms, x ∉ t.inorder := by
    intro x hx hm
    rw [hin, ← singleton_append, ← append_assoc, mem_append] at hm
    rcases hm with hm | hm
    · exact (nodup_append.mp hnl).2.2 x hm x hx rfl
    · exact hd x (by simp [hx]) x hm rfl
  obtain ⟨c₂, t₂, hj, ht₂, hin₂, hf₂⟩ := hjoin c₁ tl (fun x hx => hf₁.outside x (hmst x hx)) htl hinl
  have htr₂ := htr.frame hf₂ fun x hx hx' => hd x hx' x (hinr ▸ hx) rfl
  obtain ⟨c₃, t₃, hm₃, ht₃, hin₃, hf₃⟩ := merge_spec ht₂ htr₂ (by rw [hin₂, hinr]; exact hnodup)
    (n := s.fuel) (by rw [hin₂, hinr, ← length_append]; exact hfuel)
  rw [hin₂, hinr] at hin₃ hf₃
  refine ⟨c₃, t₃, ?_, ht₃, hin₃, ?_⟩
  · simp only [SequenceIndex.spliceWith, hrank, hroot, Option.bind_eq_bind, Option.bind_some, hsplit, hj,
      hm₃]
  rw [hin] at hf₁
  refine .trans (.trans (hf₁.mono ?_) (hf₂.mono (subset_append_left ..))) hf₃
  intro x
  simp only [mem_append, mem_cons]
  tauto

end Crdt.Sequence
