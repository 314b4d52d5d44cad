import Crdt.Sequence.Treap

/-! Bulk construction: both ways of building a treap from a run of markers.

Both push the markers one by one on the right spine of a growing tree and hang
what they pop on the left of the new marker. `markerTree` leaves all counts to a
second pass over the finished tree and keeps its stack in the slice it is reading;
`markerTreeForLinearPairs` refreshes each marker when it leaves the spine. Either
way the outcome is a held tree whose traversal is the run (`markerTree_spec`,
`markerTreeForLinearPairs_spec`). -/
namespace Crdt.Sequence

open BinaryTree List Markers

variable {c c' : Markers} {s : List (BinaryTree MarkerRef × MarkerRef)} {fuel : Nat}

/-- The pointers of a right spine, innermost marker first, above `inner`. -/
def Spine (c : Markers) : List (BinaryTree MarkerRef × MarkerRef) → Option MarkerRef → Prop
  | [], _ => True
  | (l, x) :: rest, inner => (c x).left = l.top ∧ (c x).right = inner ∧
      (c x).parent = spineEnd rest ∧ Linked c (some x) l ∧ Spine c rest (some x)

section Spine
variable {s : List (BinaryTree MarkerRef × MarkerRef)} {inner : Option MarkerRef}

theorem Spine.congr (h : Spine c s inner) (hc : ∀ x ∈ spineOrder s, c' x = c x) : Spine c' s inner := by
  induction s generalizing inner with
  | nil => trivial
  | cons p s ih =>
    obtain ⟨l, x⟩ := p
    obtain ⟨hl, hr, hp, hll, hs⟩ := h
    have hx : c' x = c x := hc x (by simp [spineOrder])
    refine ⟨by rw [hx, hl], by rw [hx, hr], by rw [hx, hp], hll.congr fun y hy => ?_, ih hs ?_⟩
    · exact hc y (by simp [spineOrder, hy])
    · exact fun y hy => hc y (by simp [spineOrder, hy])

theorem Spine.setInner (h : Spine c s inner) (hnodup : (spineOrder s).Nodup)
    (inner' : Option MarkerRef) (hend : ∀ x, spineEnd s = some x → c' x = {c x with right := inner'})
    (hrest : ∀ x ∈ spineOrder s, spineEnd s ≠ some x → c' x = c x) : Spine c' s inner' := by
  cases s with
  | nil => trivial
  | cons p s =>
    obtain ⟨l, x⟩ := p
    obtain ⟨hl, _, hp, hll, hs⟩ := h
    have hx := hend x rfl
    rw [spineOrder, ← append_assoc, nodup_append] at hnodup
    have hne : ∀ y ∈ spineOrder s ++ l.inorder, c' y = c y := fun y hy =>
      hrest y (by simp only [spineOrder, mem_append] at *; tauto)
        (by rintro ⟨⟩; exact hnodup.2.2 x hy x (by simp) rfl)
    refine ⟨by rw [hx]; exact hl, by rw [hx], by rw [hx]; exact hp, hll.congr fun y hy => ?_,
      hs.congr fun y hy => ?_⟩
    · exact hne y (by simp [hy])
    · exact hne y (by simp [hy])

theorem Linked.plug {t : BinaryTree MarkerRef} (h : Linked c (spineEnd s) t)
    (hs : Spine c s t.top) : Linked c none (plug t s) := by
  induction s generalizing t with
  | nil => exact h
  | cons p s ih =>
    obtain ⟨l, x⟩ := p
    obtain ⟨hl, hr, hp, hll, hs⟩ := hs
    exact ih ⟨hp, hl, hr, hll, h⟩ hs

end Spine

theorem clearLinks_self (c : Markers) (m : MarkerRef) :
    clearLinks c m m = {c m with left := none, right := none, parent := none} := by
  simp [clearLinks]

theorem clearLinks_of_ne (c : Markers) {m x : MarkerRef} (h : x ≠ m) : clearLinks c m x = c x :=
  modify_of_ne c h _

theorem frame_clearLinks (c : Markers) {m : MarkerRef} {ms : List MarkerRef} (h : m ∈ ms) :
    Frame ms c (clearLinks c m) := .modify h c fun _ => ⟨rfl, rfl, rfl, rfl⟩

theorem hang_apply (c : Markers) (marker : MarkerRef) (left top : Option MarkerRef)
    (hl : left ≠ some marker) (ht : top ≠ some marker) (hlt : ∀ x, left = some x → top ≠ some x)
    (x : MarkerRef) : hang c marker left top x =
      if x = marker then {c x with left := left, parent := if top.isSome then top else (c x).parent}
      else if left = some x then {c x with parent := some marker}
      else if top = some x then {c x with right := some marker}
      else c x := by
  by_cases hx : x = marker
  · subst hx
    cases top with
    | none => simp [hang, modify?_apply, hl]
    | some t =>
      have hne : x ≠ t := by rintro rfl; exact ht rfl
      simp [hang, modify?_apply, hl, modify_of_ne _ hne]
  cases top with
  | none => simp [hang, modify?_apply, modify_of_ne _ hx, hx]
  | some t =>
    simp only [hang, modify_of_ne _ hx, modify_apply, modify?_apply, hx, if_false, Option.some.injEq]
    by_cases hxl : left = some x
    · have hxt : x ≠ t := by rintro rfl; exact hlt x hxl rfl
      simp [hxl, hxt]
    · simp [hxl, eq_comm]

section Hang
variable {m : MarkerRef} {t : BinaryTree MarkerRef} {s : List (BinaryTree MarkerRef × MarkerRef)}

/-- What the frame, the links and the counts of `hang` all need: its three markers differ. -/
theorem hang_distinct (hnodup : (spineOrder s ++ t.inorder ++ [m]).Nodup) :
    t.top ≠ some m ∧ spineEnd s ≠ some m ∧ ∀ x, t.top = some x → spineEnd s ≠ some x := by
  rw [nodup_append] at hnodup
  obtain ⟨hst, _, hm⟩ := hnodup
  refine ⟨fun h => hm m ?_ m (by simp) rfl, fun h => hm m ?_ m (by simp) rfl, fun x h h' => ?_⟩
  · simp [mem_inorder_of_top h]
  · simp [mem_of_spineEnd h]
  · exact (nodup_append.mp hst).2.2 x (mem_of_spineEnd h') x (mem_inorder_of_top h) rfl

section
variable (c : Markers) (hnodup : (spineOrder s ++ t.inorder ++ [m]).Nodup)
include hnodup

theorem hang_counts (x : MarkerRef) : (hang c m t.top (spineEnd s) x).markers = (c x).markers ∧
      (hang c m t.top (spineEnd s) x).visibleN = (c x).visibleN ∧
      (hang c m t.top (spineEnd s) x).shown = (c x).shown := by
  obtain ⟨h₁, h₂, h₃⟩ := hang_distinct hnodup
  rw [hang_apply c m _ _ h₁ h₂ h₃]
  split_ifs <;> exact ⟨rfl, rfl, rfl⟩

theorem frame_hang : Frame (spineOrder s ++ t.inorder ++ [m]) c (hang c m t.top (spineEnd s)) := by
  obtain ⟨h₁, h₂, h₃⟩ := hang_distinct hnodup
  have happly := hang_apply c m _ _ h₁ h₂ h₃
  refine ⟨fun x hx => ?_, fun x => ?_, fun x => ?_, fun x => ?_, fun x => ?_⟩
  · simp only [mem_append, mem_singleton, not_or] at hx
    rw [happly, if_neg hx.2, if_neg fun h => hx.1.2 (mem_inorder_of_top h),
      if_neg fun h => hx.1.1 (mem_of_spineEnd h)]
  all_goals
    rw [happly]
    split_ifs <;> rfl

end

/-- The new marker ends the spine, with the popped tree on its left. -/
theorem hang_spec (ht : Linked c (spineEnd s) t) (hs : Spine c s t.top)
    (hnodup : (spineOrder s ++ t.inorder ++ [m]).Nodup) (hright : (c m).right = none)
    (hparent : (c m).parent = none) : Spine (hang c m t.top (spineEnd s)) ((t, m) :: s) none := by
  obtain ⟨h₁, h₂, h₃⟩ := hang_distinct hnodup
  have happly := hang_apply c m _ _ h₁ h₂ h₃
  rw [nodup_append] at hnodup
  obtain ⟨hst, _, hm⟩ := hnodup
  obtain ⟨hns, hnt, hdisj⟩ := nodup_append.mp hst
  have hne : ∀ x ∈ spineOrder s ++ t.inorder, x ≠ m := fun x hx => hm x hx m (by simp)
  refine ⟨by simp [happly], by simp [happly, hright], ?_, ht.reparent hnt ?_ ?_, hs.setInner hns _ ?_ ?_⟩
  · rw [happly]
    cases h : spineEnd s <;> simp [hparent]
  · intro x hx
    rw [happly, if_neg (hne x (by simp [mem_inorder_of_top hx])), if_pos hx]
  · intro x hx hxt
    have hxm := hne x (by simp [hx])
    have hxs : spineEnd s ≠ some x := fun h => hdisj x (mem_of_spineEnd h) x hx rfl
    simp [happly, hxm, hxt, hxs]
  · intro x hx
    have hxm := hne x (by simp [mem_of_spineEnd hx])
    rw [happly, if_neg hxm, if_neg fun h => h₃ x h hx, if_pos hx]
  intro x hx hxs
  have hxm := hne x (by simp [hx])
  have hxt : t.top ≠ some x := fun h => hdisj x hx x (mem_inorder_of_top h) rfl
  simp [happly, hxm, hxt, hxs]

end Hang

/-! ### The stack in the slice -/

/-- What popping leaves: a shorter spine, and a tree that took the rest. -/
theorem popStack_spec (markers : List MarkerRef) (priority : UInt64) {t : BinaryTree MarkerRef}
    (hstack : markers.take s.length = (s.map Prod.snd).reverse)
    (ht : Linked c (spineEnd s) t) (hs : Spine c s t.top) :
    ∃ s' t', popStack c markers priority s.length t.top = (s'.length, t'.top) ∧ s' <:+ s ∧
      Linked c (spineEnd s') t' ∧ Spine c s' t'.top ∧
      spineOrder s' ++ t'.inorder = spineOrder s ++ t.inorder := by
  induction s generalizing t with
  | nil => exact ⟨[], t, rfl, suffix_rfl, ht, hs, rfl⟩
  | cons p s ih =>
    obtain ⟨l, x⟩ := p
    obtain ⟨hl, hr, hp, hll, hs'⟩ := id hs
    have hlen : s.length < markers.length := by
      have := congrArg List.length hstack
      simp at this
      omega
    rw [length_cons, take_succ_eq_append_getElem hlen, map_cons, reverse_cons] at hstack
    obtain ⟨htake, hget⟩ := append_inj' hstack rfl
    have hget? : markers[s.length]? = some x := by
      rw [getElem?_eq_getElem hlen]
      simpa using hget
    simp only [length_cons, popStack, hget?]
    by_cases hprio : (c x).priority < priority
    · obtain ⟨s', t', hpop, hsuf, ht', hs'', hord⟩ := ih (t := .node x l t) htake ⟨hp, hl, hr, hll, ht⟩ hs'
      refine ⟨s', t', by rw [if_pos hprio]; exact hpop, hsuf.trans (suffix_cons ..), ht', hs'', ?_⟩
      rw [hord]
      simp [spineOrder]
    · exact ⟨(l, x) :: s, t, by rw [if_neg hprio]; rfl, suffix_rfl, ht, hs, rfl⟩

/-- The first loop of `markerTree`, from the markers that are left to push: the spine
holds those pushed before. -/
theorem markerTreeLoop_spec {todo : List MarkerRef} {i : Nat} (markers : List MarkerRef)
    (hdrop : markers.drop i = todo)
    (hi : s.length ≤ i) (hstack : markers.take s.length = (s.map Prod.snd).reverse)
    (hs : Spine c s none) (hnodup : (spineOrder s ++ todo).Nodup) :
    ∃ c' markers' s', markerTreeLoop todo.length i s.length c markers = (c', markers') ∧
      markers'.take s'.length = (s'.map Prod.snd).reverse ∧ Spine c' s' none ∧
      spineOrder s' = spineOrder s ++ todo ∧ Frame (spineOrder s ++ todo) c c' := by
  induction todo generalizing i markers s c with
  | nil => exact ⟨c, markers, s, rfl, hstack, hs, by simp, .refl _ c⟩
  | cons m todo ih =>
    have hi' : i < markers.length := by
      by_contra h
      rw [drop_eq_nil_of_le (by omega)] at hdrop
      simp at hdrop
    rw [drop_eq_getElem_cons hi'] at hdrop
    obtain ⟨hget, hdrop⟩ := List.cons.inj hdrop
    have hget? : markers[i]? = some m := by rw [getElem?_eq_getElem hi', hget]
    have hmem : m ∈ spineOrder s ++ m :: todo := by simp
    have hms : m ∉ spineOrder s := fun h => (nodup_append.mp hnodup).2.2 m h m (by simp) rfl
    have hsc : Spine (clearLinks c m) s none := hs.congr fun x hx =>
      clearLinks_of_ne c (by rintro rfl; exact hms hx)
    obtain ⟨s', t, hpop, hsuf, ht, hs', hord⟩ := popStack_spec (c := clearLinks c m) markers
      (clearLinks c m m).priority (t := .nil) hstack trivial hsc
    rw [inorder_nil, append_nil] at hord
    have hlen' : s'.length ≤ s.length := hsuf.length_le
    have htake' : markers.take s'.length = (s'.map Prod.snd).reverse := by
      obtain ⟨u, rfl⟩ := hsuf
      have := congrArg (List.take s'.length) hstack
      rw [take_take, min_eq_left hlen', map_append, reverse_append, take_left' (by simp)] at this
      exact this
    have htop : (if s'.length = 0 then none else markers[s'.length - 1]?) = spineEnd s' := by
      cases s' with
      | nil => rfl
      | cons p s' =>
        have := congrArg (·[s'.length]?) htake'
        simpa [getElem?_take, spineEnd] using this
    have hnd : (spineOrder s' ++ t.inorder ++ [m]).Nodup := by
      rw [hord]
      exact hnodup.sublist (List.Sublist.append_left (by simp) _)
    have hs'' := hang_spec ht hs' hnd (by simp [clearLinks]) (by simp [clearLinks])
    have hf := frame_hang (clearLinks c m) hnd
    have hord' : spineOrder ((t, m) :: s') = spineOrder s ++ [m] := by
      rw [spineOrder, ← append_assoc, hord]
    obtain ⟨c', markers', s₂, hloop, hst₂, hs₂, hord₂, hf₂⟩ := ih (markers.set s'.length m)
      (i := i + 1) (s := (t, m) :: s')
      (by rw [drop_set_of_lt (by omega), hdrop]) (by simp; omega)
      (by
        rw [length_cons, take_succ_eq_append_getElem (by simp; omega)]
        simp [take_set_of_le, htake']) hs''
      (by rw [hord']; simpa using hnodup)
    refine ⟨c', markers', s₂, ?_, hst₂, hs₂, by rw [hord₂, hord']; simp, ?_⟩
    · rw [length_cons, markerTreeLoop, hget?]
      simp only []
      rw [show (none : Option MarkerRef) = (nil : BinaryTree MarkerRef).top from rfl, hpop]
      simp only [top_nil, htop]
      exact hloop
    rw [hord', append_assoc, singleton_append] at hf₂
    refine .trans (.trans (frame_clearLinks c hmem) (hf.mono ?_)) hf₂
    rw [hord]
    exact (List.Sublist.append_left (by simp) _).subset

/-! ### The pass that refreshes the finished tree -/

section
variable {p : Option MarkerRef} {t : BinaryTree MarkerRef} (h : Linked c p t)
include h

theorem markerTreeOrder_spec (n : Nat) (pending : List MarkerRef) :
    markerTreeOrder c (n + t.inorder.length) (t.top.toList ++ pending) =
      (markerTreeOrder c n pending).map (t.rightFirst ++ ·) := by
  induction t generalizing p n pending with
  | nil => simp [rightFirst]
  | node x l r ihl ihr =>
    obtain ⟨_, hleft, hright, hll, hlr⟩ := h
    have hfuel : n + (node x l r).inorder.length = n + l.inorder.length + r.inorder.length + 1 := by
      simp
      omega
    rw [hfuel]
    simp only [top_node, Option.toList_some, singleton_append, markerTreeOrder, hleft, hright,
      ihr hlr, ihl hll, rightFirst]
    cases markerTreeOrder c n pending <;> simp

/-- Children before parents: refreshing a linked tree in this order makes it held. -/
theorem refreshAll_spec (hnodup : t.inorder.Nodup) :
    Owned (t.rightFirst.reverse.foldl refreshMarker c) p t ∧
      Frame t.inorder c (t.rightFirst.reverse.foldl refreshMarker c) := by
  induction t generalizing c p with
  | nil => exact ⟨.nil c p, .refl _ c⟩
  | node x l r ihl ihr =>
    obtain ⟨hp, hleft, hright, hll, hlr⟩ := h
    obtain ⟨hnl, hnr, hxl, hxr, hd⟩ := nodup_node hnodup
    obtain ⟨hol, hfl⟩ := ihl hll hnl
    obtain ⟨hor, hfr⟩ := ihr (hlr.congr fun y hy => hfl.outside y fun hy' => hd y hy' hy) hnr
    simp only [rightFirst, reverse_cons, reverse_append, foldl_append, foldl_cons, foldl_nil]
    set c₁ := l.rightFirst.reverse.foldl refreshMarker c
    set c₂ := r.rightFirst.reverse.foldl refreshMarker c₁
    have hx : c₂ x = c x := (hfr.outside x hxr).trans (hfl.outside x hxl)
    obtain ⟨ho, hf⟩ := refresh_spec (p := p) (hol.frame hfr hd) hor (by rw [hx, hp])
      (by rw [hx, hleft]) (by rw [hx, hright]) hnodup
    refine ⟨ho, .trans (.trans (hfl.mono ?_) (hfr.mono ?_)) hf⟩
    · exact fun y hy => by simp [hy]
    · exact fun y hy => by simp [hy]

end

theorem markerTree_spec (c : Markers) {markers : List MarkerRef} (hnodup : markers.Nodup)
    (hfuel : markers.length ≤ fuel) : Builds c markers (markerTree fuel c markers) := by
  cases markers with
  | nil => exact ⟨c, .nil, rfl, .nil c none, rfl, .refl _ c⟩
  | cons m rest =>
    obtain ⟨c₁, markers', s, hloop, hstack, hs, hord, hf⟩ :=
      markerTreeLoop_spec (c := c) (m :: rest) (i := 0) (s := []) rfl (by simp) rfl
        trivial (by simpa [spineOrder] using hnodup)
    simp only [spineOrder, nil_append, length_nil, drop_zero] at hloop hord hf
    have hlinked : Linked c₁ none (plug .nil s) := Linked.plug trivial hs
    have hin : (plug nil s).inorder = m :: rest := by simp [hord]
    have hroot : markers'[0]? = (plug nil s).top := by
      have hne : s ≠ [] := by
        rintro rfl
        simp [spineOrder] at hord
      have := congrArg (·[0]?) hstack
      rw [getElem?_take_of_lt (by simpa [length_pos_iff] using hne)] at this
      rw [top_plug, this, ← head?_eq_getElem?, head?_reverse]
      simp
    obtain ⟨k, rfl⟩ : ∃ k, fuel = k + (plug nil s).inorder.length := ⟨fuel - (m :: rest).length, by
      rw [hin]; omega⟩
    have horder := markerTreeOrder_spec hlinked k []
    rw [append_nil] at horder
    obtain ⟨ho, hf'⟩ := refreshAll_spec hlinked (by rw [hin]; exact hnodup)
    refine ⟨_, plug nil s, ?_, ho, hin, hf.trans (hin ▸ hf')⟩
    simp only [markerTree, hloop, hroot, horder]
    cases k <;> simp [markerTreeOrder]

/-! ### Refreshing on the way -/

/-- All left subtrees along a spine have exact counts. -/
def SpineCounted (c : Markers) (s : List (BinaryTree MarkerRef × MarkerRef)) : Prop :=
  ∀ p ∈ s, Counted c p.1

/-- A counted spine above a tree that is held. -/
structure SpineHeld (c : Markers) (s : List (BinaryTree MarkerRef × MarkerRef))
    (t : BinaryTree MarkerRef) : Prop where
  spine : Spine c s t.top
  counted : SpineCounted c s
  held : Owned c (spineEnd s) t
  nodup : (spineOrder s ++ t.inorder).Nodup

section SpineHeld
variable {s : List (BinaryTree MarkerRef × MarkerRef)} {l t : BinaryTree MarkerRef} {x m : MarkerRef}
  {n : Nat}

theorem SpineCounted.congr (h : SpineCounted c s) (hc : ∀ x ∈ spineOrder s, c' x = c x) :
    SpineCounted c' s := fun p hp =>
  (h p hp).congr fun y hy => by simp [hc y ((mem_spineOrder_of_mem hp).2 hy)]

theorem SpineHeld.pop (h : SpineHeld c ((l, x) :: s) t) : SpineHeld (refreshMarker c x) s (.node x l t) ∧
      Frame (spineOrder ((l, x) :: s) ++ t.inorder) c (refreshMarker c x) := by
  obtain ⟨hl, hr, hp, hll, hs⟩ := h.spine
  have hnodup := h.nodup
  rw [spineOrder_cons] at hnodup ⊢
  obtain ⟨_, hnode, hd⟩ := nodup_append.mp hnodup
  have hol : Owned c (some x) l := ⟨hll, h.counted (l, x) (by simp), (nodup_node hnode).1⟩
  obtain ⟨ho, hf⟩ := refresh_spec hol h.held hp hl hr hnode
  have hout : ∀ y ∈ spineOrder s, refreshMarker c x y = c y := fun y hy =>
    hf.outside y fun hy' => hd y hy y hy' rfl
  have hc : SpineCounted c s := fun p hps => h.counted p (by simp [hps])
  exact ⟨⟨hs.congr hout, hc.congr hout, ho, hnodup⟩, hf.mono (subset_append_right ..)⟩

theorem popSpine_spec (priority : UInt64) (h : SpineHeld c s t) (hn : s.length < n) :
    ∃ c' s' t', popSpine priority n c (spineEnd s) t.top = some (c', spineEnd s', t'.top) ∧
      SpineHeld c' s' t' ∧ spineOrder s' ++ t'.inorder = spineOrder s ++ t.inorder ∧
      Frame (spineOrder s ++ t.inorder) c c' := by
  induction s generalizing t c n with
  | nil =>
    obtain _ | n := n
    · omega
    exact ⟨c, [], t, rfl, h, rfl, .refl _ c⟩
  | cons p s ih =>
    obtain ⟨l, x⟩ := p
    obtain _ | n := n
    · omega
    simp only [spineEnd_cons, popSpine]
    by_cases hprio : (c x).priority < priority
    · obtain ⟨h', hf⟩ := h.pop
      obtain ⟨c₂, s₂, t₂, hpop, h₂, hord₂, hf₂⟩ := ih h' (by simp at hn; omega)
      rw [← spineOrder_cons] at hord₂ hf₂
      refine ⟨c₂, s₂, t₂, ?_, h₂, hord₂, hf.trans hf₂⟩
      rw [if_pos hprio, h.spine.2.2.1]
      exact hpop
    · exact ⟨c, (l, x) :: s, t, by rw [if_neg hprio]; rfl, h, rfl, .refl _ c⟩

theorem appendLinearMarkerToTree_spec (h : SpineHeld c s .nil) (hm : m ∉ spineOrder s) (hn : s.length < n) :
    ∃ c' s', appendLinearMarkerToTree n c (spineEnd s) m = some (c', spineEnd s') ∧
      SpineHeld c' s' .nil ∧ spineOrder s' = spineOrder s ++ [m] ∧ Frame (spineOrder s ++ [m]) c c' := by
  have hout : ∀ x ∈ spineOrder s, clearLinks c m x = c x := fun x hx =>
    clearLinks_of_ne c (by rintro rfl; exact hm hx)
  obtain ⟨c₁, s₁, t, hpop, h₁, hord, hf⟩ := popSpine_spec (c := clearLinks c m) (t := .nil)
    (clearLinks c m m).priority ⟨h.spine.congr hout, h.counted.congr hout, .nil _ _, h.nodup⟩ hn
  rw [inorder_nil, append_nil] at hord hf
  have hcell : c₁ m = clearLinks c m m := hf.outside m hm
  have hnd : (spineOrder s₁ ++ t.inorder ++ [m]).Nodup := by
    rw [hord]
    exact nodup_append_comm.mp (nodup_cons.mpr ⟨hm, by simpa using h.nodup⟩)
  have hord' : spineOrder ((t, m) :: s₁) = spineOrder s ++ [m] := by
    rw [spineOrder, ← append_assoc, hord]
  refine ⟨hang c₁ m t.top (spineEnd s₁), (t, m) :: s₁, ?_, ⟨?_, ?_, .nil _ _, ?_⟩, hord', ?_⟩
  · rw [appendLinearMarkerToTree, show (none : Option MarkerRef) = (nil : BinaryTree MarkerRef).top
      from rfl, hpop]
    rfl
  · exact hang_spec h₁.held.linked h₁.spine hnd (by rw [hcell, clearLinks_self])
      (by rw [hcell, clearLinks_self])
  · intro p hp
    rcases mem_cons.mp hp with rfl | hp
    · exact h₁.held.counted.congr fun x _ => hang_counts c₁ hnd x
    · exact (h₁.counted p hp).congr fun x _ => hang_counts c₁ hnd x
  · rwa [hord', inorder_nil, append_nil, ← hord]
  have hf' := frame_hang c₁ hnd
  rw [hord] at hf'
  exact .trans (.trans (frame_clearLinks c (by simp)) (hf.mono (by simp))) hf'

theorem appendLinearMarkersToTree_spec (ms : List MarkerRef) (h : SpineHeld c s .nil)
    (hnodup : (spineOrder s ++ ms).Nodup) (hn : (spineOrder s ++ ms).length < n) :
    ∃ c' s', appendLinearMarkersToTree n c (spineEnd s) ms = some (c', spineEnd s') ∧
      SpineHeld c' s' .nil ∧ spineOrder s' = spineOrder s ++ ms ∧ Frame (spineOrder s ++ ms) c c' := by
  induction ms generalizing c s with
  | nil => exact ⟨c, s, rfl, h, by simp, .refl _ c⟩
  | cons m ms ih =>
    have hsplit : spineOrder s ++ m :: ms = spineOrder s ++ [m] ++ ms := by simp
    have hlen := length_le_spineOrder s
    obtain ⟨c₁, s₁, happ, h₁, hord₁, hf₁⟩ := appendLinearMarkerToTree_spec h (nodup_node hnodup).2.2.1
      (n := n) (by simp at hn; omega)
    obtain ⟨c₂, s₂, happ₂, h₂, hord₂, hf₂⟩ := ih h₁ (by rw [hord₁, ← hsplit]; exact hnodup)
      (by rw [hord₁, ← hsplit]; exact hn)
    rw [hord₁, ← hsplit] at hord₂ hf₂
    refine ⟨c₂, s₂, ?_, h₂, hord₂, .trans (hf₁.mono ?_) hf₂⟩
    · rw [appendLinearMarkersToTree, happ]
      exact happ₂
    · rw [hsplit]
      exact subset_append_left ..

theorem refreshSpine_spec (h : SpineHeld c s t) (hn : s.length < n) :
    Builds c (spineOrder s ++ t.inorder) (refreshSpine n c (spineEnd s) t.top) := by
  induction s generalizing t c n with
  | nil =>
    obtain _ | n := n
    · omega
    exact ⟨c, t, rfl, h.held, rfl, .refl _ c⟩
  | cons p s ih =>
    obtain ⟨l, x⟩ := p
    obtain _ | n := n
    · omega
    obtain ⟨h', hf⟩ := h.pop
    obtain ⟨c₂, t₂, href, ho₂, hord₂, hf₂⟩ := ih h' (by simp at hn; omega)
    rw [← spineOrder_cons] at hord₂ hf₂
    refine ⟨c₂, t₂, ?_, ho₂, hord₂, hf.trans hf₂⟩
    rw [spineEnd_cons, refreshSpine, h.spine.2.2.1]
    exact href

end SpineHeld

theorem markerTreeForLinearPairs_spec (c : Markers) {pairs : List Nat}
    (hnodup : (linearMarkers pairs).Nodup) (hfuel : (linearMarkers pairs).length < fuel) :
    Builds c (linearMarkers pairs) (markerTreeForLinearPairs fuel c pairs) := by
  obtain ⟨c₁, s, happ, h, hord, hf⟩ := appendLinearMarkersToTree_spec (linearMarkers pairs)
    (c := c) (s := []) ⟨trivial, by simp [SpineCounted], .nil _ _, .nil⟩ hnodup hfuel
  simp only [spineOrder, nil_append] at hord hf
  have hlen := length_le_spineOrder s
  obtain ⟨c₂, t, href, ho, hin, hf₂⟩ := refreshSpine_spec h (n := fuel) (by rw [hord] at hlen; omega)
  rw [inorder_nil, append_nil, hord] at hin hf₂
  refine ⟨c₂, t, ?_, ho, hin, hf.trans hf₂⟩
  rw [markerTreeForLinearPairs, show (none : Option MarkerRef) = spineEnd [] from rfl, happ]
  exact href

end Crdt.Sequence
