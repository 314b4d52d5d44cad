import Crdt.Lib.InOrder
import Crdt.Sequence.Index

/-! The treap operations against the tree they act on.

`Owned c p t` says that the cells of `c` hold the binary tree `t` of marker
addresses below the parent `p`: child and parent links are exact and so are both
cached counts. Every operation is specified by what it does to the in-order
traversal. `Frame` says what an operation leaves alone: every cell of other
addresses, and the visibility, priority and list links of all. -/
namespace Crdt.Sequence

open BinaryTree List Markers SequenceIndex

variable {c c' : Markers} {t : BinaryTree MarkerRef} {p q : Option MarkerRef} {m x : MarkerRef}
  {n : Nat}

@[simp] theorem Markers.modify_self (c : Markers) (m : MarkerRef)
    (f : SequenceMarker → SequenceMarker) : c.modify m f m = f (c m) := by
  simp [modify]

theorem Markers.modify_of_ne (c : Markers) (h : x ≠ m)
    (f : SequenceMarker → SequenceMarker) : c.modify m f x = c x := by
  simp [modify, h]

theorem Markers.modify_apply (c : Markers) (m x : MarkerRef)
    (f : SequenceMarker → SequenceMarker) : c.modify m f x = if x = m then f (c x) else c x := by
  by_cases h : x = m
  · subst h
    simp
  · simp [h, modify_of_ne]

theorem Markers.modify?_apply (c : Markers) (m : Option MarkerRef) (x : MarkerRef)
    (f : SequenceMarker → SequenceMarker) : c.modify? m f x = if m = some x then f (c x) else c x := by
  cases m with
  | none => simp [modify?]
  | some m => simp [modify?, modify_apply, eq_comm]

/-! ### Frames -/

/-- A write of tree fields only. -/
def TreeWrite (f : SequenceMarker → SequenceMarker) : Prop :=
  ∀ s, (f s).visible = s.visible ∧ (f s).priority = s.priority ∧ (f s).prev = s.prev ∧
    (f s).next = s.next

/-- `c'` is `c` but for the tree fields of the markers in `l`. -/
structure Frame (l : List MarkerRef) (c c' : Markers) : Prop where
  outside : ∀ x ∉ l, c' x = c x
  visible : ∀ x, (c' x).visible = (c x).visible
  priority : ∀ x, (c' x).priority = (c x).priority
  prev : ∀ x, (c' x).prev = (c x).prev
  next : ∀ x, (c' x).next = (c x).next

namespace Frame
variable {l l' : List MarkerRef} {c'' : Markers} {f : SequenceMarker → SequenceMarker}

theorem refl (l : List MarkerRef) (c : Markers) : Frame l c c :=
  ⟨fun _ _ => rfl, fun _ => rfl, fun _ => rfl, fun _ => rfl, fun _ => rfl⟩

theorem trans (h : Frame l c c') (h' : Frame l c' c'') : Frame l c c'' :=
  ⟨fun x hx => (h'.outside x hx).trans (h.outside x hx),
    fun x => (h'.visible x).trans (h.visible x), fun x => (h'.priority x).trans (h.priority x),
    fun x => (h'.prev x).trans (h.prev x), fun x => (h'.next x).trans (h.next x)⟩

theorem mono (h : Frame l c c') (hsub : l ⊆ l') : Frame l' c c' :=
  {h with outside := fun x hx => h.outside x (fun hm => hx (hsub hm))}

theorem shown (h : Frame l c c') (x : MarkerRef) : (c' x).shown = (c x).shown := by
  simp only [SequenceMarker.shown, h.visible]

theorem modify (hm : m ∈ l) (c : Markers) (hf : TreeWrite f) : Frame l c (c.modify m f) where
  outside x hx := modify_of_ne c (by rintro rfl; exact hx hm) f
  visible x := by rw [modify_apply]; split <;> simp [hf _]
  priority x := by rw [modify_apply]; split <;> simp [hf _]
  prev x := by rw [modify_apply]; split <;> simp [hf _]
  next x := by rw [modify_apply]; split <;> simp [hf _]

theorem modify? {m : Option MarkerRef}
    (hm : ∀ x, m = some x → x ∈ l) (c : Markers) (hf : TreeWrite f) : Frame l c (c.modify? m f) := by
  cases m with
  | none => exact refl l c
  | some m => exact modify (hm m rfl) c hf

end Frame

/-! ### Trees in the store -/

/-- Child links and parent links are those of the tree below the parent `p`. -/
def Linked (c : Markers) : Option MarkerRef → BinaryTree MarkerRef → Prop
  | _, .nil => True
  | p, .node x l r => (c x).parent = p ∧ (c x).left = l.top ∧ (c x).right = r.top ∧
      Linked c (some x) l ∧ Linked c (some x) r

/-- How many of the markers are visible. -/
def shownIn (c : Markers) (l : List MarkerRef) : Nat := (l.map fun x => (c x).shown).sum

/-- Both cached counts are those of the tree. -/
def Counted (c : Markers) : BinaryTree MarkerRef → Prop
  | .nil => True
  | .node x l r => (c x).markers = (node x l r).inorder.length ∧
      (c x).visibleN = shownIn c (node x l r).inorder ∧ Counted c l ∧ Counted c r

/-- The store holds the tree below the parent `p`. -/
structure Owned (c : Markers) (p : Option MarkerRef) (t : BinaryTree MarkerRef) : Prop where
  linked : Linked c p t
  counted : Counted c t
  nodup : t.inorder.Nodup

@[simp] theorem shownIn_nil (c : Markers) : shownIn c [] = 0 := rfl

@[simp] theorem shownIn_cons (c : Markers) (x : MarkerRef) (l : List MarkerRef) :
    shownIn c (x :: l) = (c x).shown + shownIn c l := by simp [shownIn]

@[simp] theorem shownIn_append (c : Markers) (l l' : List MarkerRef) :
    shownIn c (l ++ l') = shownIn c l + shownIn c l' := by simp [shownIn]

theorem shownIn_congr {l : List MarkerRef} (h : ∀ x ∈ l, (c' x).shown = (c x).shown) :
    shownIn c' l = shownIn c l := by
  unfold shownIn
  rw [map_congr_left h]

theorem Linked.congr (h : Linked c p t) (hc : ∀ x ∈ t.inorder, c' x = c x) : Linked c' p t := by
  induction t generalizing p with
  | nil => trivial
  | node x l r ihl ihr =>
    obtain ⟨hp, hl, hr, hll, hlr⟩ := h
    simp only [Linked, hc x (by simp)]
    exact ⟨hp, hl, hr, ihl hll fun y hy => hc y (by simp [hy]), ihr hlr fun y hy => hc y (by simp [hy])⟩

theorem Linked.reparent (h : Linked c p t)
    (hnodup : t.inorder.Nodup) (htop : ∀ x, t.top = some x → c' x = {c x with parent := q})
    (hrest : ∀ x ∈ t.inorder, t.top ≠ some x → c' x = c x) : Linked c' q t := by
  cases t with
  | nil => trivial
  | node x l r =>
    obtain ⟨hp, hl, hr, hll, hlr⟩ := h
    obtain ⟨_, _, hxl, hxr, _⟩ := nodup_node hnodup
    have hx := htop x rfl
    refine ⟨by rw [hx], by rw [hx]; exact hl, by rw [hx]; exact hr, hll.congr ?_, hlr.congr ?_⟩
    · intro y hy
      exact hrest y (by simp [hy]) (by rintro ⟨⟩; exact hxl hy)
    · intro y hy
      exact hrest y (by simp [hy]) (by rintro ⟨⟩; exact hxr hy)

section
variable {t : BinaryTree MarkerRef} (h : Counted c t)
include h

theorem Counted.congr
    (hc : ∀ x ∈ t.inorder, (c' x).markers = (c x).markers ∧ (c' x).visibleN = (c x).visibleN ∧
      (c' x).shown = (c x).shown) : Counted c' t := by
  induction t with
  | nil => trivial
  | node x l r ihl ihr =>
    obtain ⟨hm, hv, hl, hr⟩ := h
    obtain ⟨hxm, hxv, _⟩ := hc x (by simp)
    refine ⟨by rw [hxm, hm], ?_, ihl hl fun y hy => hc y (by simp [hy]),
      ihr hr fun y hy => hc y (by simp [hy])⟩
    rw [hxv, hv, shownIn_congr fun y hy => (hc y hy).2.2]

theorem Counted.markerCount : markerCount c t.top = t.inorder.length := by
  cases t with
  | nil => rfl
  | node x l r => exact h.1

theorem Counted.visibleCount : visibleCount c t.top = shownIn c t.inorder := by
  cases t with
  | nil => rfl
  | node x l r => exact h.2.1

end

namespace Owned
variable {p q : Option MarkerRef} {t l r : BinaryTree MarkerRef} {x : MarkerRef}

theorem nil (c : Markers) (p : Option MarkerRef) : Owned c p .nil := ⟨trivial, trivial, .nil⟩

theorem congr (h : Owned c p t) (hc : ∀ x ∈ t.inorder, c' x = c x) : Owned c' p t :=
  ⟨h.linked.congr hc, h.counted.congr fun x hx => by simp [hc x hx], h.nodup⟩

theorem frame {ms : List MarkerRef} (h : Owned c p t) (hf : Frame ms c c')
    (hd : ∀ x ∈ t.inorder, x ∉ ms) : Owned c' p t :=
  h.congr fun x hx => hf.outside x (hd x hx)

theorem modify_of_not_mem (h : Owned c p t) (hx : x ∉ t.inorder) (f : SequenceMarker → SequenceMarker) :
    Owned (c.modify x f) p t :=
  h.congr fun y hy => modify_of_ne c (fun he : y = x => hx (he ▸ hy)) f

theorem parent_top (h : Owned c p t) (htop : t.top = some x) : (c x).parent = p := by
  cases t with
  | nil => cases htop
  | node y l r =>
    cases htop
    exact h.linked.1

theorem left (h : Owned c p (.node x l r)) : Owned c (some x) l :=
  ⟨h.linked.2.2.2.1, h.counted.2.2.1, (nodup_node h.nodup).1⟩

theorem right (h : Owned c p (.node x l r)) : Owned c (some x) r :=
  ⟨h.linked.2.2.2.2, h.counted.2.2.2, (nodup_node h.nodup).2.1⟩

/-- The write of a root's parent link that ends every operation. -/
theorem setParent (h : Owned c p t) (q : Option MarkerRef) :
    Owned (c.modify? t.top ({· with parent := q})) q t := by
  refine ⟨h.linked.reparent h.nodup ?_ ?_, h.counted.congr ?_, h.nodup⟩
  · intro x hx
    simp [modify?_apply, hx]
  · intro x _ hx
    simp [modify?_apply, hx]
  intro x _
  rw [modify?_apply]
  split <;> exact ⟨rfl, rfl, rfl⟩

theorem frame_setParent (c : Markers) (t : BinaryTree MarkerRef) (q : Option MarkerRef) :
    Frame t.inorder c (c.modify? t.top ({· with parent := q})) :=
  Frame.modify? (fun _ h => mem_inorder_of_top h) c fun _ => ⟨rfl, rfl, rfl, rfl⟩

theorem setParents (h : Owned c p l) (h' : Owned c q r) (hd : ∀ y ∈ l.inorder, y ∉ r.inorder)
    (o : Option MarkerRef) :
    let c' := (c.modify? l.top ({· with parent := o})).modify? r.top ({· with parent := o})
    Owned c' o l ∧ Owned c' o r ∧ Frame (l.inorder ++ r.inorder) c c' :=
  ⟨(h.setParent o).frame (frame_setParent _ r o) hd,
    (h'.frame (frame_setParent c l o) fun y hy hy' => hd y hy' hy).setParent o,
    .trans ((frame_setParent c l o).mono (subset_append_left ..))
      ((frame_setParent _ r o).mono (subset_append_right ..))⟩

end Owned

/-! ### Refreshing a marker -/

theorem refreshMarker_self (hl : (c m).left ≠ some m) (hr : (c m).right ≠ some m) :
    refreshMarker c m m = {c m with
      markers := 1 + markerCount c (c m).left + markerCount c (c m).right
      visibleN := visibleCount c (c m).left + visibleCount c (c m).right + (c m).shown} := by
  simp [refreshMarker, modify?_apply, hl, hr]

theorem refreshMarker_other (hx : x ≠ m) (hl : (c m).left ≠ some x)
    (hr : (c m).right ≠ some x) : refreshMarker c m x = c x := by
  simp [refreshMarker, modify?_apply, modify_of_ne _ hx, hl, hr]

/-- Over two trees that are held, with the child links in place, a refresh makes the
node's tree held: the counts and the children's parent links become exact. -/
theorem refresh_spec {p q q' : Option MarkerRef} {l r : BinaryTree MarkerRef}
    (hl : Owned c q l) (hr : Owned c q' r) (hparent : (c x).parent = p)
    (hleft : (c x).left = l.top) (hright : (c x).right = r.top) (hnodup : (node x l r).inorder.Nodup) :
    Owned (refreshMarker c x) p (.node x l r) ∧ Frame (node x l r).inorder c (refreshMarker c x) := by
  obtain ⟨_, _, hxl, hxr, hlr⟩ := nodup_node hnodup
  have hself := refreshMarker_self (fun h => hxl (mem_inorder_of_top (hleft ▸ h)))
    fun h => hxr (mem_inorder_of_top (hright ▸ h))
  -- each subtree: its root gets `x` for a parent, the rest is untouched
  have hsubtrees := fun f => (hl.modify_of_not_mem hxl f).setParents (hr.modify_of_not_mem hxr f) hlr (some x)
  obtain ⟨hl', hr', hframe⟩ : Owned (refreshMarker c x) (some x) l ∧ Owned (refreshMarker c x) (some x) r ∧
      Frame (node x l r).inorder c (refreshMarker c x) := by
    unfold refreshMarker
    rw [hleft, hright]
    refine ⟨(hsubtrees _).1, (hsubtrees _).2.1, .trans (.modify (by simp) c ?_) ((hsubtrees _).2.2.mono ?_)⟩
    · exact fun _ => ⟨rfl, rfl, rfl, rfl⟩
    · exact ((sublist_cons_self x r.inorder).append_left l.inorder).subset
  refine ⟨⟨⟨by rw [hself]; exact hparent, by rw [hself]; exact hleft, by rw [hself]; exact hright,
    hl'.linked, hr'.linked⟩, ⟨?_, ?_, hl'.counted, hr'.counted⟩, hnodup⟩, hframe⟩
  · rw [hself]
    simp only [hleft, hright, hl.counted.markerCount, hr.counted.markerCount, inorder_node,
      length_append, length_cons]
    omega
  rw [hself, shownIn_congr fun y _ => hframe.shown y]
  simp only [hleft, hright, hl.counted.visibleCount, hr.counted.visibleCount, inorder_node,
    shownIn_append, shownIn_cons]
  omega

section Replace
variable {p q q' : Option MarkerRef} {x : MarkerRef} {l r t : BinaryTree MarkerRef} {ms : List MarkerRef}

theorem rehang_spec {f : SequenceMarker → SequenceMarker} (hf : TreeWrite f) (hl : Owned c q l)
    (hr : Owned c q' r) (hparent : (f (c x)).parent = p) (hleft : (f (c x)).left = l.top)
    (hright : (f (c x)).right = r.top) (hnodup : (node x l r).inorder.Nodup) :
    Owned (refreshMarker (c.modify x f) x) p (.node x l r) ∧
      Frame (node x l r).inorder c (refreshMarker (c.modify x f) x) := by
  obtain ⟨_, _, hxl, hxr, _⟩ := nodup_node hnodup
  rw [← modify_self c x f] at hparent hleft hright
  obtain ⟨ho, hfr⟩ := refresh_spec (hl.modify_of_not_mem hxl f) (hr.modify_of_not_mem hxr f) hparent
    hleft hright hnodup
  exact ⟨ho, .trans (.modify (by simp) c hf) hfr⟩

variable (h : Owned c p (.node x l r)) (hf : Frame ms c c')
include h hf

/-- Work on the right subtree and elsewhere, then hang the outcome on the right. -/
theorem replaceRight_spec (hms : (l.inorder ++ x :: ms).Nodup) (ht : Owned c' q t) (hsub : t.inorder ⊆ ms) :
    Owned (refreshMarker (c'.modify x ({· with right := t.top})) x) p (.node x l t) ∧
      Frame (node x l t).inorder c' (refreshMarker (c'.modify x ({· with right := t.top})) x) := by
  obtain ⟨hp, hleft, _, _, _⟩ := h.linked
  obtain ⟨hnl, _, _, hx, hl⟩ := nodup_node hms
  have hcx : c' x = c x := hf.outside x hx
  exact rehang_spec (fun _ => ⟨rfl, rfl, rfl, rfl⟩) (h.left.frame hf hl) ht (hcx ▸ hp) (hcx ▸ hleft) rfl
    (nodup_node_of hms hnl ht.nodup (List.Subset.refl _) hsub)

theorem replaceLeft_spec (hms : (ms ++ x :: r.inorder).Nodup) (ht : Owned c' q t) (hsub : t.inorder ⊆ ms) :
    Owned (refreshMarker (c'.modify x ({· with left := t.top})) x) p (.node x t r) ∧
      Frame (node x t r).inorder c' (refreshMarker (c'.modify x ({· with left := t.top})) x) := by
  obtain ⟨hp, _, hright, _, _⟩ := h.linked
  obtain ⟨_, hnr, hx, _, hr⟩ := nodup_node hms
  have hcx : c' x = c x := hf.outside x hx
  exact rehang_spec (fun _ => ⟨rfl, rfl, rfl, rfl⟩) ht (h.right.frame hf fun y hy hy' => hr y hy' hy)
    (hcx ▸ hp) rfl (hcx ▸ hright) (nodup_node_of hms ht.nodup hnr hsub (List.Subset.refl _))

end Replace

/-! ### Merging and splitting -/

/-- A computation leaves a tree that holds `ms`, and nothing else is changed. -/
abbrev Builds (c : Markers) (ms : List MarkerRef) (result : Option (Markers × Option MarkerRef)) : Prop :=
  ∃ c' t, result = some (c', t.top) ∧ Owned c' none t ∧ t.inorder = ms ∧ Frame ms c c'

/-- Two trees merge into one whose traversal is theirs, one after the other. -/
theorem merge_spec {tl tr : BinaryTree MarkerRef}
    (hl : Owned c p tl) (hr : Owned c q tr) (hd : (tl.inorder ++ tr.inorder).Nodup)
    (hn : tl.inorder.length + tr.inorder.length < n) :
    Builds c (tl.inorder ++ tr.inorder) (mergeMarkers n c tl.top tr.top) := by
  induction n generalizing c p q tl tr with
  | zero => omega
  | succ n ih =>
    match tl, tr with
    | .nil, tr =>
      exact ⟨_, tr, rfl, hr.setParent none, rfl, Owned.frame_setParent c tr none⟩
    | .node x l r, .nil =>
      refine ⟨_, .node x l r, rfl, hl.setParent none, by simp, ?_⟩
      rw [inorder_nil, append_nil]
      exact Owned.frame_setParent c (.node x l r) none
    | .node x l r, .node y l' r' =>
      simp only [top_node, mergeMarkers]
      by_cases hprio : (c x).priority > (c y).priority
      · -- the left root stays on top: its right subtree absorbs the right tree
        have hms : (l.inorder ++ x :: (r.inorder ++ (node y l' r').inorder)).Nodup := by simpa using hd
        obtain ⟨c₁, t, hm, ht, hin, hf⟩ := ih hl.right hr (nodup_node hms).2.1 (by simp at hn ⊢; omega)
        obtain ⟨ho, hfr⟩ := replaceRight_spec hl hf hms ht (by rw [hin]; exact fun _ => id)
        have hall : (node x l t).inorder = (node x l r).inorder ++ (node y l' r').inorder := by simp [hin]
        refine ⟨_, .node x l t, ?_, ho.setParent none, hall, ?_⟩
        · rw [if_pos hprio, hl.linked.2.2.1, show some y = (node y l' r').top from rfl, hm]
          rfl
        rw [← hall]
        refine .trans (.trans (hf.mono fun z hz => ?_) hfr) (Owned.frame_setParent _ _ _)
        simp [hin.symm ▸ hz]
      have hms : ((node x l r).inorder ++ l'.inorder ++ y :: r'.inorder).Nodup := by simpa using hd
      obtain ⟨c₁, t, hm, ht, hin, hf⟩ := ih hl hr.left (nodup_node hms).1 (by simp at hn ⊢; omega)
      obtain ⟨ho, hfr⟩ := replaceLeft_spec hr hf hms ht (by rw [hin]; exact fun _ => id)
      have hall : (node y t r').inorder = (node x l r).inorder ++ (node y l' r').inorder := by simp [hin]
      refine ⟨_, .node y t r', ?_, ho.setParent none, hall, ?_⟩
      · rw [if_neg hprio, hr.linked.2.1, show some x = (node x l r).top from rfl, hm]
        rfl
      rw [← hall]
      refine .trans (.trans (hf.mono fun z hz => ?_) hfr) (Owned.frame_setParent _ _ _)
      simp [hin.symm ▸ hz]

/-- A tree splits into its first `count` markers and the others. -/
theorem split_spec (h : Owned c p t) (count : Nat) (hn : t.inorder.length < n) :
    ∃ c' tl tr, splitMarkers n c t.top count = some (c', tl.top, tr.top) ∧
      Owned c' none tl ∧ Owned c' none tr ∧ tl.inorder = t.inorder.take count ∧
      tr.inorder = t.inorder.drop count ∧ Frame t.inorder c c' := by
  induction n generalizing c p t count with
  | zero => omega
  | succ n ih =>
    cases t with
    | nil => exact ⟨c, .nil, .nil, rfl, .nil c none, .nil c none, by simp, by simp, .refl _ c⟩
    | node x l r =>
      obtain ⟨hnl, hnr, hxl, hxr, hlr⟩ := nodup_node h.nodup
      have hcount : markerCount c (c x).left = l.inorder.length := by
        rw [h.linked.2.1, h.left.counted.markerCount]
      simp only [top_node, splitMarkers, hcount]
      by_cases hle : count ≤ l.inorder.length
      · obtain ⟨c₁, tl, tr, hs, htl, htr, hintl, hintr, hf⟩ := ih h.left count (by simp at hn; omega)
        have hl : tl.inorder ++ tr.inorder = l.inorder := by rw [hintl, hintr, take_append_drop]
        have hsub : tr.inorder ⊆ l.inorder := hl ▸ subset_append_right ..
        obtain ⟨ho, hfr⟩ := replaceLeft_spec h hf h.nodup htr hsub
        have hall : tl.inorder ++ (node x tr r).inorder = (node x l r).inorder := by simp [← hl]
        -- the cut part is away from the node that is put together again
        have hcut : ∀ y ∈ tl.inorder, y ∉ (node x tr r).inorder := disjoint_of_nodup_append (hall ▸ h.nodup)
        obtain ⟨hol, hor, hf'⟩ := (htl.frame hfr hcut).setParents ho hcut none
        refine ⟨_, tl, .node x tr r, ?_, hol, hor, ?_, ?_, ?_⟩
        · rw [if_pos hle, h.linked.2.1, hs]
          rfl
        · rw [hintl, inorder_node, take_append_of_le_length hle]
        · rw [inorder_node, inorder_node, hintr, drop_append_of_le_length hle]
        · refine .trans (.trans (hf.mono (subset_append_left ..)) (hfr.mono ?_)) (hall ▸ hf')
          exact hall ▸ subset_append_right ..
      obtain ⟨c₁, tl, tr, hs, htl, htr, hintl, hintr, hf⟩ :=
        ih h.right (count - l.inorder.length - 1) (by simp at hn; omega)
      have hr : tl.inorder ++ tr.inorder = r.inorder := by rw [hintl, hintr, take_append_drop]
      have hsub : tl.inorder ⊆ r.inorder := hr ▸ subset_append_left ..
      obtain ⟨ho, hfr⟩ := replaceRight_spec h hf h.nodup htl hsub
      have hall : (node x l tl).inorder ++ tr.inorder = (node x l r).inorder := by simp [← hr]
      have hcut : ∀ y ∈ (node x l tl).inorder, y ∉ tr.inorder := disjoint_of_nodup_append (hall ▸ h.nodup)
      obtain ⟨hor, hol, hf'⟩ := (htr.frame hfr fun y hy hy' => hcut y hy' hy).setParents ho
        (fun y hy hy' => hcut y hy' hy) none
      have hsucc : count = l.inorder.length + (count - l.inorder.length - 1 + 1) := by omega
      refine ⟨_, .node x l tl, tr, ?_, hol, hor, ?_, ?_, ?_⟩
      · rw [if_neg hle, h.linked.2.2.1, hs]
        rfl
      · rw [inorder_node, inorder_node, hintl, hsucc, take_length_add_append, take_succ_cons]
        simp
      · rw [inorder_node, hintr, hsucc, drop_length_add_append, drop_succ_cons]
        simp
      refine .trans (.trans (hf.mono fun z hz => by simp [hz]) (hfr.mono ?_)) (hf'.mono ?_)
      · exact hall ▸ subset_append_left ..
      · exact fun z hz => hall ▸ perm_append_comm.subset hz

/-! ### Ranks -/

section Climb
variable {own : SequenceMarker → Nat} {count : Option MarkerRef → Nat} {w : MarkerRef → Nat}
  {t : BinaryTree MarkerRef} {x : MarkerRef}

/-- From a marker to the top of a held tree: the rank becomes the weight of what
stands before the marker. -/
theorem climb_to_top (hown : ∀ x, own (c x) = w x)
    (hcount : ∀ t : BinaryTree MarkerRef, Counted c t → count t.top = (t.inorder.map w).sum)
    (h : Owned c p t) (hx : x ∈ t.inorder) :
    ∃ before after top k, t.inorder = before ++ x :: after ∧ t.top = some top ∧
      k < t.inorder.length ∧ ∀ n, climb c own count (n + k) x (count (c x).left) =
        climb c own count n top (before.map w).sum := by
  induction t generalizing p with
  | nil => simp at hx
  | node y l r ihl ihr =>
    obtain ⟨_, _, hyl, hyr, hlr⟩ := nodup_node h.nodup
    obtain ⟨_, hleft, hright, _, _⟩ := h.linked
    have hlen := length_inorder_node y l r
    simp only [inorder_node, mem_append, mem_cons] at hx
    rcases hx with hx | rfl | hx
    · obtain ⟨before, after, top, k, hin, htop, hk, hclimb⟩ := ihl h.left hx
      refine ⟨before, after ++ y :: r.inorder, y, k + 1, by simp [hin], rfl, by omega, fun n => ?_⟩
      have hpar : (c top).parent = some y := h.left.parent_top htop
      have hne : (c y).right ≠ some top := fun he =>
        hlr top (mem_inorder_of_top htop) (mem_inorder_of_top (hright ▸ he))
      rw [show n + (k + 1) = n + 1 + k by omega, hclimb]
      simp only [climb, hpar, hne, if_false]
    · refine ⟨l.inorder, r.inorder, x, 0, by simp, rfl, by omega, fun n => ?_⟩
      rw [hleft, hcount l h.left.counted]
      rfl
    obtain ⟨before, after, top, k, hin, htop, hk, hclimb⟩ := ihr h.right hx
    refine ⟨l.inorder ++ y :: before, after, y, k + 1, by simp [hin], rfl, by omega, fun n => ?_⟩
    have hpar : (c top).parent = some y := h.right.parent_top htop
    rw [show n + (k + 1) = n + 1 + k by omega, hclimb]
    simp only [climb, hpar, hright, htop, if_true, hown, hleft, hcount l h.left.counted,
      map_append, map_cons, sum_append, sum_cons]
    congr 1
    omega

theorem climb_spec (own : SequenceMarker → Nat) (count : Option MarkerRef → Nat)
    (hown : ∀ x, own (c x) = w x)
    (hcount : ∀ t : BinaryTree MarkerRef, Counted c t → count t.top = (t.inorder.map w).sum)
    (h : Owned c none t) (hx : x ∈ t.inorder) (hn : t.inorder.length ≤ n) :
    ∃ before after, t.inorder = before ++ x :: after ∧
      climb c own count n x (count (c x).left) = some (before.map w).sum := by
  obtain ⟨before, after, top, k, hin, htop, hk, hclimb⟩ := climb_to_top hown hcount h hx
  refine ⟨before, after, hin, ?_⟩
  obtain ⟨m, rfl⟩ : ∃ m, n = m + 1 + k := ⟨n - k - 1, by omega⟩
  rw [hclimb, climb, h.parent_top htop]

end Climb

section
variable {t : BinaryTree MarkerRef} (h : Owned c none t) {x : MarkerRef} (hx : x ∈ t.inorder) {n : Nat}
  (hn : t.inorder.length ≤ n)
include h hx hn

theorem markerRank_spec : ∃ before after, t.inorder = before ++ x :: after ∧
      markerRank n c x = some before.length := by
  obtain ⟨before, after, hin, hr⟩ := climb_spec (fun _ => 1) (markerCount c)
    (w := fun _ => 1) (fun _ => rfl) (fun t ht => by simp [ht.markerCount]) h hx hn
  refine ⟨before, after, hin, ?_⟩
  rw [markerRank, hr]
  simp

theorem visibleRank_spec : ∃ before after, t.inorder = before ++ x :: after ∧
      visibleRank n c x = some (shownIn c before) :=
  climb_spec SequenceMarker.shown (visibleCount c)
    (w := fun x => (c x).shown) (fun _ => rfl) (fun _ ht => ht.visibleCount) h hx hn

end

/-! ### Changing a marker's visibility -/

/-- A marker of a held tree changes its visibility: refreshing upwards makes the
counts exact again. -/
theorem refreshUp_to_top (h : Owned c p t) (hx : x ∈ t.inorder) (visible : Bool) :
    ∃ c' k, k ≤ t.inorder.length ∧ Owned c' p t ∧ Frame t.inorder (c.modify x ({· with visible})) c' ∧
      ∀ n, refreshUp (n + k) (c.modify x ({· with visible})) (some x) = refreshUp n c' p := by
  induction t generalizing p with
  | nil => simp at hx
  | node y l r ihl ihr =>
    obtain ⟨_, _, hyl, hyr, hlr⟩ := nodup_node h.nodup
    obtain ⟨hpar, hleft, hright, _, _⟩ := h.linked
    have hlen := length_inorder_node y l r

    -- the subtree with the marker is refreshed and the other one untouched
    have hnode : ∀ {c₁ : Markers} {k : Nat}, c₁ y = c y → Owned c₁ (some y) l → Owned c₁ (some y) r →
        Frame (node y l r).inorder (c.modify x ({· with visible})) c₁ → k < (node y l r).inorder.length →
        (∀ n, refreshUp (n + k) (c.modify x ({· with visible})) (some x) = refreshUp n c₁ (some y)) →
        ∃ c' k, k ≤ (node y l r).inorder.length ∧ Owned c' p (.node y l r) ∧
          Frame (node y l r).inorder (c.modify x ({· with visible})) c' ∧
          ∀ n, refreshUp (n + k) (c.modify x ({· with visible})) (some x) = refreshUp n c' p := by
      intro c₁ k hy hl₁ hr₁ hf hk hup
      obtain ⟨ho', hf'⟩ := refresh_spec (p := p) hl₁ hr₁ (by rw [hy, hpar]) (by rw [hy, hleft])
        (by rw [hy, hright]) h.nodup
      refine ⟨_, k + 1, hk, ho', hf.trans hf', fun n => ?_⟩
      rw [show n + (k + 1) = n + 1 + k by omega, hup, refreshUp, ho'.linked.1]
    simp only [inorder_node, mem_append, mem_cons] at hx
    rcases hx with hx | rfl | hx
    · obtain ⟨c₁, k, hk, ho, hf, hup⟩ := ihl h.left hx
      have hxy : y ≠ x := by rintro rfl; exact hyl hx
      have hy : c₁ y = c y := by rw [hf.outside y hyl, modify_of_ne _ hxy]
      have hr₁ : Owned c₁ (some y) r :=
        (h.right.modify_of_not_mem (hlr x hx) _).frame hf fun z hz hz' => hlr z hz' hz
      exact hnode hy ho hr₁ (hf.mono fun z hz => by simp [hz]) (by omega) hup
    · obtain ⟨ho', hf'⟩ := refresh_spec (p := p) (h.left.modify_of_not_mem hyl ({· with visible}))
        (h.right.modify_of_not_mem hyr _) (by simp [hpar]) (by simp [hleft]) (by simp [hright]) h.nodup
      refine ⟨_, 1, by omega, ho', hf', fun n => ?_⟩
      rw [refreshUp, ho'.linked.1]
    obtain ⟨c₁, k, hk, ho, hf, hup⟩ := ihr h.right hx
    have hxy : y ≠ x := by rintro rfl; exact hyr hx
    have hy : c₁ y = c y := by rw [hf.outside y hyr, modify_of_ne _ hxy]
    have hl₁ : Owned c₁ (some y) l := (h.left.modify_of_not_mem (fun hm => hlr x hm hx) _).frame hf hlr
    exact hnode hy hl₁ ho (hf.mono fun z hz => by simp [hz]) (by omega) hup

theorem refreshUp_spec (h : Owned c none t)
    (hx : x ∈ t.inorder) (visible : Bool) (hn : t.inorder.length ≤ n) :
    ∃ c', refreshUp n (c.modify x ({· with visible})) (some x) = some c' ∧
      Owned c' none t ∧ Frame t.inorder (c.modify x ({· with visible})) c' := by
  obtain ⟨c', k, hk, ho, hf, hup⟩ := refreshUp_to_top h hx visible
  obtain ⟨m, rfl⟩ : ∃ m, n = m + k := ⟨n - k, by omega⟩
  exact ⟨c', by rw [hup]; cases m <;> rfl, ho, hf⟩

/-! ### Selecting by visible offset -/

/-- The markers of a list that are visible. -/
def visibleIn (c : Markers) (l : List MarkerRef) : List MarkerRef := l.filter fun x => (c x).visible

@[simp] theorem length_visibleIn (c : Markers) (l : List MarkerRef) :
    (visibleIn c l).length = shownIn c l := by
  induction l with
  | nil => rfl
  | cons x l ih =>
    simp only [visibleIn, shownIn_cons, SequenceMarker.shown] at *
    by_cases hx : (c x).visible <;> simp [hx, ih]
    omega

theorem descend_spec (s : SequenceIndex)
    (h : Owned s.markers p t) (hn : t.inorder.length < n) (offset : Nat) : s.descend n t.top offset =
      some ((visibleIn s.markers t.inorder)[offset]?.map fun x => s.position x.pair) := by
  induction t generalizing p n offset with
  | nil =>
    obtain _ | n := n
    · omega
    simp [descend, visibleIn]
  | node y l r ihl ihr =>
    obtain _ | n := n
    · omega
    have hlen := length_inorder_node y l r
    obtain ⟨_, hleft, hright, _, _⟩ := h.linked
    have hv : visibleCount s.markers l.top = (visibleIn s.markers l.inorder).length := by
      rw [h.left.counted.visibleCount, length_visibleIn]
    have hsplit : visibleIn s.markers (node y l r).inorder =
        visibleIn s.markers l.inorder ++ visibleIn s.markers (y :: r.inorder) := by
      simp [visibleIn]
    simp only [top_node, descend, hleft, hright, hv]
    by_cases hlt : offset < (visibleIn s.markers l.inorder).length
    · rw [if_pos hlt, ihl h.left (by omega), hsplit, getElem?_append_left hlt]
    rw [if_neg hlt, hsplit, getElem?_append_right (by omega)]
    by_cases hy : (s.markers y).visible
    · have hcons : visibleIn s.markers (y :: r.inorder) = y :: visibleIn s.markers r.inorder := by
        simp [visibleIn, hy]
      rw [if_pos hy, hcons]
      generalize offset - (visibleIn s.markers l.inorder).length = i
      cases i with
      | zero => simp
      | succ i => simp [ihr h.right (n := n) (by omega)]
    have hcons : visibleIn s.markers (y :: r.inorder) = visibleIn s.markers r.inorder := by
      simp [visibleIn, hy]
    rw [if_neg hy, hcons, ihr h.right (by omega)]

end Crdt.Sequence
