import Crdt.Text.Plan

/-! A chain of new nodes in one splice.

`integrateRun` allocates the pairs of a run together, links each to the next as its only
child and splices all their marks behind one anchor. That is the same as integrating the
nodes one by one: the marks of the rest of the chain nest within those of each node. -/
namespace Crdt.Text

open Rga Sequence Forest MapLoop Option List

/-- Nodes of a delta, put into the known ones. -/
def putNodes (nodes known : TagMap (Node Rune)) (ids : List Position) : TagMap (Node Rune) :=
  ids.foldl (fun known id => known.insert id (nodes[id]?.getD ⟨.zero, 0⟩)) known

section
variable (nodes known : TagMap (Node Rune))

@[simp] theorem putNodes_nil : putNodes nodes known [] = known := rfl

theorem putNodes_cons (id : Position) (ids : List Position) : putNodes nodes known (id :: ids) =
      putNodes nodes (known.insert id (nodes[id]?.getD ⟨.zero, 0⟩)) ids := rfl

theorem getElem?_putNodes (ids : List Position) (x : Position) : (putNodes nodes known ids)[x]? =
      if x ∈ ids then some (nodes[x]?.getD ⟨.zero, 0⟩) else known[x]? := by
  induction ids generalizing known with
  | nil => simp
  | cons id ids ih =>
    rw [putNodes_cons, ih, get?_insert]
    by_cases hx : x ∈ ids
    · simp [hx]
    by_cases he : id = x
    · simp [he]
    · simp [hx, he, Ne.symm he]

end

/-- Each node is below the one before it. -/
def ChainFrom (nodes : TagMap (Node Rune)) : Position → List Position → Prop
  | _, [] => True
  | previous, id :: rest => parentOf nodes id = some previous ∧ ChainFrom nodes id rest

/-- The rest of a chain below a leaf `previous`: its links, and the marks they stand for. -/
theorem linkSingleChildren_spec {nodes known : TagMap (Node Rune)} {ch : ChildIndex}
    {s : SequenceIndex} {pair : Nat} {previous : Position} {pairs : List Nat} {rest : List Position}
    (hf : Forested known) (hrep : ch.Rep s (kidsOf known))
    (hreg : ∀ (q : Position) x, s.pairs[q]? = some x → s.position x = q ∧ (q = .zero ∨ q ∈ known))
    (hprev : s.pairs[previous]? = some pair) (hmem : previous ∈ known)
    (hleaf : kidsOf known previous = []) (hbranch : ch.branches[previous]? = none)
    (hpos : pairs.map s.position = rest) (hslots : ∀ x ∈ pairs, s.singleChild x = none)
    (hnew : ∀ id ∈ rest, id ∉ known ∧ id.valid = true) (hnodup : rest.Nodup)
    (hchain : ChainFrom nodes previous rest) :
    ∃ slots, (∀ registered, linkSingleChildren {s with pairs := registered} (pair :: pairs) =
        {s with singleChild := slots, pairs := registered}) ∧
      ch.Rep {s with singleChild := slots, pairs := s.register pairs} (kidsOf (putNodes nodes known rest)) ∧
      Forested (putNodes nodes known rest) ∧ marksOf (putNodes nodes known rest) =
        splice (.enter previous) (rest.map .enter ++ rest.reverse.map .exit) (marksOf known) := by
  induction rest generalizing known s pair previous pairs with
  | nil =>
    obtain rfl := map_eq_nil_iff.mp hpos
    refine ⟨s.singleChild, fun _ => rfl, hrep, hf, ?_⟩
    simp [splice]
  | cons id rest ih =>
    obtain ⟨r, pairs, rfl, hr, hpos⟩ := map_eq_cons_iff.mp hpos
    obtain ⟨hid, hv⟩ := hnew id (by simp)
    obtain ⟨hidr, hnodup⟩ := nodup_cons.mp hnodup
    obtain ⟨item, hitem, rfl⟩ := parentOf_eq_some.mp hchain.1
    have hz := Tag.ne_zero_of_valid hv
    have hget : nodes[id]?.getD ⟨.zero, 0⟩ = item := by rw [hitem]; rfl
    have hne : item.parent ≠ id := by
      rintro he
      exact hid (he ▸ hmem)
    have hunreg : s.pairs[id]? = none := by
      cases hx : s.pairs[id]? with
      | none => rfl
      | some x => exact ((hreg id x hx).2.elim hz hid).elim
    have hpp : s.position pair = item.parent := (hreg _ _ hprev).1
    have hnil : ch.siblings s pair = [] := map_eq_nil_iff.mp ((hrep.siblings _ _ hprev).trans hleaf)
    have hup : ch.Updates s pair [r] ch (ChildIndex.setSingleChild s pair (some r)) :=
      ChildIndex.setSingleChild_updates (by rw [hpp]; exact hbranch) (some r)
    have hnone : kidsOf known item.parent = [] ++ [] := hleaf
    have hkids := kidsOf_insert hid hz hne hnone (by simp) (by simp)
    set s₁ : SequenceIndex :=
      {ChildIndex.setSingleChild s pair (some r) with pairs := s.pairs.insert id r} with hs₁
    have hrep₁ : ch.Rep s₁ (kidsOf (known.insert id item)) :=
      hrep.insert hunreg hr (hslots r (by simp)) (hf.kidsOf_eq_nil hid hz) hprev (fun q x hx => (hreg q x hx).1)
        (hnil.trans (append_nil []).symm) hup hkids ⟨rfl, rfl, rfl⟩ rfl
    have hf₁ := hf.insert hv hid (.inr hmem : item.parent = .zero ∨ item.parent ∈ known)
    obtain ⟨slots, hlink, hrep', hf', hmarks⟩ := ih hf₁ hrep₁ (fun q x hx => by
        rw [get?_insert] at hx
        rw [mem_insert]
        split_ifs at hx with he
        · cases hx
          exact ⟨hr.trans he, .inr (.inl he)⟩
        · obtain ⟨h₁, h₂⟩ := hreg q x hx
          exact ⟨h₁, h₂.imp_right .inr⟩)
      (by rw [hs₁, get?_insert, if_pos rfl]) (by simp)
      (hf.kidsOf_insert_self hid hz hne) (hrep.branches_eq_none hunreg) hpos
      (fun x hx => by
        have hxp : x ≠ pair := by
          rintro rfl
          refine (hnew item.parent ?_).1 hmem
          rw [← hpp, ← hpos]
          exact mem_cons_of_mem _ (mem_map_of_mem hx)
        rw [hs₁]
        simp [ChildIndex.setSingleChild, hxp, hslots x (by simp [hx])])
      (fun x hx => by
        obtain ⟨h₁, h₂⟩ := hnew x (by simp [hx])
        rw [mem_insert]
        refine ⟨?_, h₂⟩
        rintro (rfl | h)
        · exact hidr hx
        · exact h₁ h)
      hnodup hchain.2
    have hput : putNodes nodes known (id :: rest) = putNodes nodes (known.insert id item) rest := by
      rw [putNodes_cons, hget]
    rw [hput]
    refine ⟨slots, fun registered => ?_, ?_, hf', ?_⟩
    · exact hlink registered
    · rw [show s.register (r :: pairs) = s₁.register pairs by
        simp [SequenceIndex.register, hs₁, hr, ChildIndex.setSingleChild]]
      exact hrep'
    have henter : .enter id ∉ marksOf known := fun hm =>
      (hf.enter_mem_marksOf.mp hm).elim hz hid
    rw [hmarks, marksOf_insert hf hid hv (.inr hmem) hnone (by simp) (by simp)]
    change splice _ _ (splice (Mark.enter item.parent) _ _) = _
    rw [splice_splice henter]
    simp [splice]

theorem ChildIndex.Rep.newSequencePairs {index : ChildIndex} {s : SequenceIndex}
    {kids : Position → List Position} {l : List MarkerRef} {marks : List (Mark Position)}
    {vis : Position → Bool} (h : index.Rep s kids) (hs : s.Holds l marks vis)
    (items : List (Position × Bool)) : index.Rep (s.newSequencePairs items).1 kids := by
  induction items generalizing s with
  | nil => exact h
  | cons item items ih => exact ih (h.newSequencePair hs item.1 item.2) (hs.newSequencePair item.1 item.2)

variable {r r' : Replica Rune} {nodes : TagMap (Node Rune)} {ids : List Position}

/-- A chain of new nodes below the root or a known node. -/
structure Linear (r : Replica Rune) (nodes : TagMap (Node Rune)) (ids : List Position) : Prop where
  nodup : ids.Nodup
  mem : ∀ x, x ∈ ids ↔ x ∈ nodes
  unknown : ∀ x ∈ ids, r.known x = none
  chain : ∃ first rest item, ids = first :: rest ∧ nodes[first]? = some item ∧ r.Reached item.parent ∧
    ChainFrom nodes first rest

theorem integrateRun_spec (h : r.Inv) (hd : ValidNodes nodes) (hl : Linear r nodes ids) :
    ∃ s' ch', integrateRun r nodes ids =
        some {r with nodes := putNodes nodes r.nodes ids, sequence := s', children := ch'} ∧
      Indexed (putNodes nodes r.nodes ids) r.tombstones s' ch' := by
  obtain ⟨l, hholds⟩ := h.indexed.holds
  obtain ⟨first, rest, item, hids, hitem, hreach, hchain⟩ := hl.chain
  have hvalid : ∀ x ∈ ids, x.valid = true := fun x hx => by
    obtain ⟨it, hit⟩ := mem_iff.mp ((hl.mem x).mp hx)
    exact (hd.valid x it hit).1
  have hnew : ∀ x ∈ ids, x ∉ r.nodes := fun x hx => (not_mem_of_known (hl.unknown x hx)).1
  have hf := h.indexed.forested
  have hfar : ∀ x ∈ ids, ¬ r.Reached x := fun x hx hp =>
    hp.elim (Tag.ne_zero_of_valid (hvalid x hx)) (hnew x hx)
  -- the pairs of the run
  set items := ids.map fun id => (id, !r.tombstones.contains id) with hitems
  obtain ⟨s₁, hs₁, hkeep, _, hfresh, hsingle⟩ := r.sequence.newSequencePairs_spec items
  have hrep₁ := ChildIndex.Rep.newSequencePairs h.indexed.kids hholds items
  rw [hs₁] at hrep₁
  set pairs := List.range' r.sequence.allocated items.length with hpairs
  have hl₁ := hkeep _ _ _ hholds
  have hpos : pairs.map s₁.position = ids := by
    refine ext_getElem (by simp [hpairs, hitems]) fun i h₁ h₂ => ?_
    have := (hfresh i (by simpa [hitems] using h₂)).position
    simpa [hpairs, hitems] using this
  have hslot : ∀ x ∈ pairs, s₁.singleChild x = none := fun x hx => by
    rw [hsingle, if_pos (by simpa [hpairs, mem_range'_1] using hx)]
  have hfresh' : ∀ x ∈ pairs, s₁.Fresh x (s₁.position x) (shown r.tombstones (s₁.position x)) := by
    intro x hx
    obtain ⟨i, hi, rfl⟩ : ∃ i, i < items.length ∧ x = r.sequence.allocated + i := by
      obtain ⟨h₁, h₂⟩ := mem_range'_1.mp hx
      exact ⟨x - r.sequence.allocated, by omega, by omega⟩
    have hfi := hfresh i hi
    have hz : items[i].1 ≠ .zero := by
      refine Tag.ne_zero_of_valid (hvalid _ ?_)
      simp [hitems]
    have hvis : shown r.tombstones items[i].1 = items[i].2 := by
      simp only [hitems, getElem_map] at hz ⊢
      simp [shown, hz]
    rw [hfi.position, hvis]
    exact hfi
  clear_value pairs
  rw [hids] at hpos
  obtain ⟨pair, pairs, rfl, hpair, hpos'⟩ := map_eq_cons_iff.mp hpos
  have hfirst : first ∈ ids := by simp [hids]
  have hz := Tag.ne_zero_of_valid (hvalid first hfirst)
  have hne : item.parent ≠ first := fun he => hfar first hfirst (he ▸ hreach)
  -- the first pair takes its place, the others follow it
  obtain ⟨parent, ch', slots, previous, hparent, hins, hal, hmarks, hslots, hpp, hbranch, hkids⟩ :=
    place_spec hf hl₁ hrep₁ (hnew first hfirst) (hvalid first hfirst) hreach hpair (hslot pair (by simp))
  set s₂ : SequenceIndex := {s₁ with singleChild := slots, pairs := s₁.pairs.insert first pair} with hs₂
  have hrep₂ := hkids s₂ ⟨rfl, rfl, rfl⟩ rfl
  have hrest : ∀ x ∈ rest, x ∈ ids := fun x hx => by simp [hids, hx]
  obtain ⟨hfr, hnodup⟩ := nodup_cons.mp (hids ▸ hl.nodup)
  obtain ⟨slots', hlink, hrep₃, hf₃, hmarks₃⟩ := linkSingleChildren_spec
    (hf.insert (hvalid first hfirst) (hnew first hfirst) hreach) hrep₂
    (fun q x hx => by
      rw [get?_insert] at hx
      rw [mem_insert]
      split_ifs at hx with he
      · cases hx
        exact ⟨hpair.trans he, .inr (.inl he)⟩
      · have hq := hl₁.exists_pair_iff.mp ⟨x, hx⟩
        exact ⟨(hl₁.of_pair hx).1, (hf.enter_mem_marksOf.mp hq).imp_right .inr⟩)
    (by rw [hs₂, get?_insert, if_pos rfl]) (by simp)
    (hf.kidsOf_insert_self (hnew first hfirst) hz hne) hbranch hpos'
    (fun x hx => by
      rw [← hslot x (by simp [hx])]
      refine hslots x ?_
      rintro rfl
      have hm : s₁.position x ∈ rest := hpos' ▸ mem_map_of_mem hx
      rw [hpp] at hm
      exact hfar _ (hrest _ hm) hreach)
    (fun x hx => by
      refine ⟨?_, hvalid x (hrest x hx)⟩
      rw [mem_insert]
      rintro (rfl | hm)
      · exact hfr hx
      · exact hnew x (hrest x hx) hm)
    hnodup hchain
  have hput : putNodes nodes r.nodes ids = putNodes nodes (r.nodes.insert first item) rest := by
    rw [hids, putNodes_cons, hitem]
    rfl
  -- one splice for all their marks
  have hl₃ := hl₁.withSingleChild slots'
  obtain ⟨s', l', hsp, hl', hkept, hreg⟩ := SequenceIndex.insertLinearPairsAfter_spec hl₃ hal
    (cons_ne_nil pair pairs) (fun x hx => (hfresh' x hx).withSingleChild slots')
    (fun x hx hm => by
      have hx' : s₁.position x ∈ ids := by rw [hids, ← hpos]; exact mem_map_of_mem hx
      exact hfar _ hx' (hf.enter_mem_marksOf.mp hm))
    (by
      rw [hpos, ← hids]
      exact hl.nodup)
  rw [hput]
  refine ⟨s', ch', ?_, hf₃, ⟨l', ?_⟩, ?_⟩
  · rw [← hput]
    unfold integrateRun
    rw [hs₁]
    clear_value items
    subst hids
    simp only [hitem, getD_some, hparent, hins, bind_eq_bind, bind_some]
    rw [show linkSingleChildren {s₁ with singleChild := slots} (pair :: pairs) =
      {s₁ with singleChild := slots'} from hlink s₁.pairs, hsp]
    rfl
  · have henter : .enter first ∉ marksOf r.nodes := fun hm => hfar first hfirst (hf.enter_mem_marksOf.mp hm)
    have hlabel : SequenceIndex.label {s₁ with singleChild := slots'} (anchorAfter parent previous) =
        s₁.label (anchorAfter parent previous) := rfl
    have hposm : (pair :: pairs).map (SequenceIndex.position {s₁ with singleChild := slots'}) =
        first :: rest := hpos
    rw [hlabel, hposm] at hl'
    rw [hmarks₃, ← hmarks, splice_splice henter]
    simpa [splice] using hl'
  refine hrep₃.kept ⟨hkept.position, hkept.singleChild, hkept.allocated⟩ ?_
  rw [hreg]
  simp [SequenceIndex.register, hs₂, hpair]

/-! ### Which deltas are runs -/

theorem linearFrom_spec {replicaID : List UInt8} {previous : Option Position}
    (h : linearFrom r nodes replicaID previous ids = true) :
    (∀ x ∈ ids, r.known x = none) ∧ ∀ p, previous = some p → ChainFrom nodes p ids := by
  induction ids generalizing previous with
  | nil => exact ⟨by simp, fun _ _ => trivial⟩
  | cons id rest ih =>
    simp only [linearFrom, Bool.and_eq_true, Bool.not_eq_true'] at h
    obtain ⟨⟨⟨⟨_, hn⟩, hp⟩, hprev⟩, hrest⟩ := h
    obtain ⟨h₁, h₂⟩ := ih hrest
    refine ⟨fun x hx => ?_, fun p hp' => ⟨?_, h₂ id rfl⟩⟩
    · rcases mem_cons.mp hx with rfl | hx
      · rw [Std.ExtTreeMap.contains_eq_isSome_getElem?, isSome_eq_false_iff, isNone_iff_eq_none] at hn hp
        rw [Replica.known, hn, hp]
        rfl
      · exact h₁ x hx
    · subst hp'
      simpa using hprev

theorem cachedCanonicalNodeIDs_spec (delta : Delta) :
    let ids := delta.cachedCanonicalNodeIDs.getD delta.nodes.keys
    ids.Nodup ∧ ∀ x, x ∈ ids ↔ x ∈ delta.nodes := by
  unfold Delta.cachedCanonicalNodeIDs
  simp only []
  split_ifs with h₁ h₂
  · exact ⟨delta.nodes.nodup_keys, fun x => Std.ExtTreeMap.mem_keys⟩
  · obtain ⟨hchain, hmem⟩ := h₂
    simp only [not_or, not_not] at h₁
    have hnodup : delta.canonicalNodeIDs.Nodup := hchain.pairwise.imp fun h => ne_of_lt h
    refine ⟨hnodup, fun x => ⟨hmem x, fun hx => ?_⟩⟩
    -- as many distinct members as there are nodes: all of them
    have hsub : delta.canonicalNodeIDs ⊆ delta.nodes.keys := fun y hy =>
      Std.ExtTreeMap.mem_keys.mpr (hmem y hy)
    have hperm := (subperm_of_subset hnodup hsub).perm_of_length_le
      (by rw [Std.ExtTreeMap.length_keys, h₁.2])
    exact hperm.mem_iff.mpr (Std.ExtTreeMap.mem_keys.mpr hx)
  · exact ⟨delta.nodes.nodup_keys, fun x => Std.ExtTreeMap.mem_keys⟩

theorem resolvedLinearRun_spec {delta : Delta} (hd : ValidNodes delta.nodes)
    (h : resolvedLinearRun r delta = some ids) : Linear r delta.nodes ids := by
  obtain ⟨hnodup, hmem⟩ := cachedCanonicalNodeIDs_spec delta
  unfold resolvedLinearRun at h
  split_ifs at h
  revert h hnodup hmem
  generalize delta.cachedCanonicalNodeIDs.getD delta.nodes.keys = ids'
  intro hnodup hmem h
  cases ids' with
  | nil => simp at h
  | cons first rest =>
    simp only [] at h
    split_ifs at h with h₁ h₂
    cases h
    obtain ⟨hunknown, _⟩ := linearFrom_spec h₂
    simp only [linearFrom, Bool.and_eq_true] at h₂
    obtain ⟨_, hchain⟩ := linearFrom_spec h₂.2
    obtain ⟨item, hitem⟩ := mem_iff.mp ((hmem first).mp (by simp))
    refine ⟨hnodup, hmem, hunknown, first, rest, item, rfl, hitem, ?_, hchain first rfl⟩
    rw [parentOf, hitem] at h₁
    simp only [map_some, getD_some, Bool.and_eq_true, Bool.not_eq_true', not_and,
      Bool.not_eq_false, Std.ExtTreeMap.contains_iff_mem] at h₁
    exact (hd.valid first item hitem).2.2.1.imp_right h₁

end Crdt.Text
