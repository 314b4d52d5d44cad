import Crdt.Text.Apply

/-! Compaction: tombstoned leaves go for good.

`compactTombstones` takes a list of leaves or nothing. `compactEligibleTombstones` plans
first: by counting children it lists the requested tombstones so that every node comes
after all its children, as far as that is possible, and removes them in that order. Both
refuse while anything is pending. -/
namespace Crdt.Text

open Rga Sequence Forest MapLoop
open Option hiding sequence
open List

/-! ### All or nothing -/

/-- The requested tombstones, without repetitions; `none` if one of them is not a leaf. -/
def compactable (r : Replica Rune) : TagSet → List Position → Option (List Position)
  | _, [] => some []
  | seen, tag :: tags =>
    if seen.contains tag then compactable r seen tags
    else if !r.tombstones.contains tag then compactable r (seen.insert tag) tags
    else if !r.nodes.contains tag || r.children.count r.sequence (r.sequence.pair tag) > 0 ||
        (r.waitingByParent[tag]?.getD ∅).size > 0 || !r.sequence.has tag then none
    else (compactable r (seen.insert tag) tags).map (tag :: ·)

/-- Remove leaves one by one; the answer says whether all of them could be removed. -/
def removeTombstones (r : Replica Rune) : List Position → Option (Replica Rune × Bool)
  | [] => some (r, true)
  | tag :: tags => do
    let item := r.nodes[tag]?.getD ⟨.zero, 0⟩
    let parent ← r.sequence.pair item.parent
    let child ← r.sequence.pair tag
    let (children, sequence, removed) := r.children.remove r.sequence parent child
    if !removed then return ({r with children, sequence}, false)
    let (sequence, removed) ← sequence.removeLeaf tag
    if !removed then return ({r with children, sequence}, false)
    removeTombstones {r with
      nodes := r.nodes.erase tag, tombstones := r.tombstones.erase tag, children, sequence} tags

def RGA.compactTombstones (r : RGA) (tags : List Position) : Option (RGA × Except Err Nat) :=
  if tags.any (!·.valid) || r.pending.size > 0 then some (r, .error .unsafeCompaction) else
  match compactable r.toReplica ∅ tags with
  | none => some (r, .error .unsafeCompaction)
  | some compact => do
    let (state, ok) ← removeTombstones r.toReplica compact
    if !ok then return ({r with toReplica := state}, .error .unsafeCompaction)
    let version := if compact.length > 0 then state.version + 1 else state.version
    return ({r with toReplica := {state with version}}, .ok compact.length)

/-! ### As much as possible -/

structure EligibleCompactionPlan where
  tags : List Position
  candidateIndexes : TagMap Nat

def eligibleCompactionCandidate (r : Replica Rune) (tag : Position) : Bool :=
  r.tombstones.contains tag && r.nodes.contains tag &&
    !((r.waitingByParent[tag]?.getD ∅).size > 0) && r.sequence.has tag

/-- The loop of the plan: a candidate is ready when none of its children remains. -/
def compactionLoop (r : Replica Rune) (candidates : List Position) (candidateIndexes : TagMap Nat) :
    Nat → List Int → List Nat → Option (List Position)
  | _, _, [] => some []
  | 0, _, _ :: _ => none
  | n + 1, remainingChildren, index :: ready => do
    let tag ← candidates[index]?
    let parent := (parentOf r.nodes tag).getD .zero
    match candidateIndexes[parent]? with
    | none =>
      let compact ← compactionLoop r candidates candidateIndexes n remainingChildren ready
      return tag :: compact
    | some parentIndex =>
      let left := (← remainingChildren[parentIndex]?) - 1
      let compact ← compactionLoop r candidates candidateIndexes n
        (remainingChildren.set parentIndex left) (if left = 0 then ready ++ [parentIndex] else ready)
      return tag :: compact

/-- A removal order with every child before its parent. -/
def eligibleCompactionPlan (r : Replica Rune) (tags : List Position) :
    Option EligibleCompactionPlan := do
  let candidates := (tags.foldl (fun selected tag =>
    if eligibleCompactionCandidate r tag then selected.insert tag else selected)
    (∅ : TagSet)).toList
  let candidateIndexes := candidates.zipIdx.foldl (fun indexes (tag, index) => indexes.insert tag index)
    (∅ : TagMap Nat)
  let remainingChildren := candidates.map fun tag =>
    (r.children.count r.sequence (r.sequence.pair tag) : Int)
  let ready := (range candidates.length).filter fun index => remainingChildren[index]? = some 0
  let compact ← compactionLoop r candidates candidateIndexes candidates.length remainingChildren ready
  return ⟨compact, candidateIndexes⟩

/-- Take leaves out of the sequence, with their nodes and tombstones. -/
def removeLeaves (r : Replica Rune) : List Position → Option (Replica Rune × Bool)
  | [] => some (r, true)
  | tag :: tags => do
    let (sequence, removed) ← r.sequence.removeLeaf tag
    if !removed then return ({r with sequence}, false)
    removeLeaves {r with
      nodes := r.nodes.erase tag, tombstones := r.tombstones.erase tag, sequence} tags

/-- Filter the child lists of the parents of removed nodes. -/
def removeSelectedChildren (r : Replica Rune) (candidates : TagMap Nat) (removed : List Bool) :
    List (Option Nat) → Option (Replica Rune)
  | [] => some r
  | none :: _ => none
  | some parent :: parents =>
    let (children, sequence) := r.children.removeSelected r.sequence parent candidates removed
    removeSelectedChildren {r with children, sequence} candidates removed parents

def applyEligibleCompactionPlan (r : Replica Rune) (plan : EligibleCompactionPlan) :
    Option (Replica Rune × Bool) :=
  if plan.tags.any (!r.nodes.contains ·) then some (r, false) else do
  let removed := plan.tags.foldl (fun removed tag =>
    removed.set (plan.candidateIndexes[tag]?.getD 0) true)
    (replicate plan.candidateIndexes.size false)
  let affectedParents := plan.tags.foldl (fun parents tag =>
    let parent := (parentOf r.nodes tag).getD .zero
    parents.insert parent (r.sequence.pair parent)) (∅ : TagMap (Option Nat))
  let (state, ok) ← removeLeaves r plan.tags
  if !ok then return (state, false)
  let state ← removeSelectedChildren state plan.candidateIndexes removed
    (affectedParents.toList.map Prod.snd)
  return (state, true)

def RGA.compactEligibleTombstones (r : RGA) (tags : List Position) : Option (RGA × Except Err Nat) :=
  if tags.any (!·.valid) || r.pending.size > 0 then some (r, .error .unsafeCompaction) else do
  let plan ← eligibleCompactionPlan r.toReplica tags
  if plan.tags.length = 0 then return (r, .ok 0)
  let (state, ok) ← applyEligibleCompactionPlan r.toReplica plan
  if !ok then return ({r with toReplica := state}, .error .unsafeCompaction)
  return ({r with toReplica := {state with version := state.version + 1}}, .ok plan.tags.length)

/-! ### Removal in an order with children first -/

/-- Each node is a leaf once those before it are gone. -/
def ChildFirst : TagMap (Node Rune) → List Position → Prop
  | _, [] => True
  | nodes, tag :: tags => tag ∈ nodes ∧ kidsOf nodes tag = [] ∧ ChildFirst (nodes.erase tag) tags

/-- What a compaction does. -/
structure Pruned (r r' : Replica Rune) (tags : List Position) : Prop where
  indexed : Indexed r'.nodes r'.tombstones r'.sequence r'.children
  nodes : ∀ x : Position, r'.nodes[x]? = if x ∈ tags then none else r.nodes[x]?
  tombstones : ∀ x, x ∈ r'.tombstones ↔ x ∉ tags ∧ x ∈ r.tombstones
  pending : r'.pending = r.pending
  waiting : r'.waitingByParent = r.waitingByParent

variable {r r' : Replica Rune}

theorem getElem?_erase_cons (nodes : TagMap (Node Rune)) (tag x : Position) (tags : List Position) :
    (if x ∈ tags then none else (nodes.erase tag)[x]?) = if x ∈ tag :: tags then none else nodes[x]? := by
  rw [getElem?_erase]
  by_cases hx : x ∈ tags
  · simp [hx]
  by_cases he : tag = x
  · simp [he]
  · simp [hx, he, Ne.symm he]

theorem mem_erase_cons (tombstones : TagSet) (tag x : Position) (tags : List Position) :
    x ∉ tags ∧ x ∈ tombstones.erase tag ↔ x ∉ tag :: tags ∧ x ∈ tombstones := by
  rw [TagSet.mem_erase, mem_cons]
  tauto

variable {tags : List Position}

theorem removeTombstones_spec
    (h : Indexed r.nodes r.tombstones r.sequence r.children) (hc : ChildFirst r.nodes tags) :
    ∃ r', removeTombstones r tags = some (r', true) ∧ Pruned r r' tags := by
  induction tags generalizing r with
  | nil => exact ⟨r, rfl, h, by simp, by simp, rfl, rfl⟩
  | cons tag tags ih =>
    obtain ⟨hmem, hleaf, hc⟩ := hc
    obtain ⟨item, hitem⟩ := mem_iff.mp hmem
    obtain ⟨parent, child, ch', s₂, s', hparent, hchild, hrem, hleafrem, hix⟩ := h.removeLeaf hitem hleaf
    obtain ⟨r', hrun, hp⟩ := ih (r := {r with
      nodes := r.nodes.erase tag, tombstones := r.tombstones.erase tag
      children := ch', sequence := s'}) hix hc
    refine ⟨r', ?_, hp.indexed, fun x => ?_, fun x => ?_, hp.pending, hp.waiting⟩
    · simp only [removeTombstones, hitem, getD_some, hparent, hchild, hrem, hleafrem,
        bind_eq_bind, bind_some]
      exact hrun
    · rw [hp.nodes, ← getElem?_erase_cons]
    · rw [hp.tombstones, ← mem_erase_cons]

/-- What taking leaves out of the sequence alone does. -/
structure Unlinked (r r' : Replica Rune) (tags : List Position) : Prop where
  forested : Forested r'.nodes
  holds : ∃ l, r'.sequence.Holds l (marksOf r'.nodes) (shown r'.tombstones)
  kept : r.sequence.Kept r'.sequence
  pairs : ∀ (q : Position) x,
    r'.sequence.pairs[q]? = some x ↔ q ∉ tags ∧ r.sequence.pairs[q]? = some x
  nodes : ∀ x : Position, r'.nodes[x]? = if x ∈ tags then none else r.nodes[x]?
  tombstones : ∀ x, x ∈ r'.tombstones ↔ x ∉ tags ∧ x ∈ r.tombstones
  pending : r'.pending = r.pending
  waiting : r'.waitingByParent = r.waitingByParent
  children : r'.children = r.children

theorem removeLeaves_spec {l : List MarkerRef} (hf : Forested r.nodes)
    (hl : r.sequence.Holds l (marksOf r.nodes) (shown r.tombstones)) (hc : ChildFirst r.nodes tags) :
    ∃ r', removeLeaves r tags = some (r', true) ∧ Unlinked r r' tags := by
  induction tags generalizing r l with
  | nil => exact ⟨r, rfl, hf, ⟨l, hl⟩, ⟨rfl, rfl, rfl⟩, by simp, by simp, by simp, rfl, rfl, rfl⟩
  | cons tag tags ih =>
    obtain ⟨hmem, hleaf, hc⟩ := hc
    obtain ⟨item, hitem⟩ := mem_iff.mp hmem
    obtain ⟨s', l', hrem, hl', hkept, hpairs⟩ := removeLeaf_marks hf hl hitem hleaf
    obtain ⟨r', hrun, hu⟩ := ih (r := {r with
      nodes := r.nodes.erase tag, tombstones := r.tombstones.erase tag
      sequence := s'}) (hf.erase hleaf) hl' hc
    refine ⟨r', ?_, hu.forested, hu.holds, ⟨hu.kept.position.trans hkept.position,
      hu.kept.singleChild.trans hkept.singleChild, hu.kept.allocated.trans hkept.allocated⟩,
      fun q x => ?_, fun x => ?_, fun x => ?_, hu.pending, hu.waiting, hu.children⟩
    · simp only [removeLeaves, hrem, bind_eq_bind, bind_some]
      exact hrun
    · rw [hu.pairs, hpairs, getElem?_erase, mem_cons, not_or]
      split_ifs with he
      · simp [he]
      · simp [Ne.symm he]
    · rw [hu.nodes, ← getElem?_erase_cons]
    · rw [hu.tombstones, ← mem_erase_cons]

/-- The child lists of some registered parents are filtered. The registrations may be older
than the index: a parent may itself be among the removed. -/
theorem removeSelectedChildren_spec {candidates : TagMap Nat} {removed : List Bool}
    {registered : TagMap Nat} {kids : Position → List Position} {parents : List (Position × Nat)}
    (h : r.children.Rep {r.sequence with pairs := registered} kids)
    (hpos : ∀ (q : Position) x, registered[q]? = some x → r.sequence.position x = q)
    (hparents : ∀ p ∈ parents, registered[p.1]? = some p.2) :
    ∃ ch' slots, removeSelectedChildren r candidates removed (parents.map fun p => some p.2) =
        some {r with children := ch', sequence := {r.sequence with singleChild := slots}} ∧
      ch'.Rep {r.sequence with singleChild := slots, pairs := registered} fun q =>
        if q ∈ parents.map Prod.fst then
          (kids q).filter fun x => !ChildIndex.selectedAt candidates removed x
        else kids q := by
  induction parents generalizing r kids with
  | nil => exact ⟨r.children, r.sequence.singleChild, rfl, by simpa using h⟩
  | cons p parents ih =>
    have hp := hparents p (by simp)
    have hex : r.children.Exclusive r.sequence p.2 := h.exclusive p.1 p.2 hp
    have hup := ChildIndex.removeSelected_spec hex candidates removed
    have hshrink := h.shrink hpos hp (fun x => !ChildIndex.selectedAt candidates removed x)
      (hup.withPairs registered)
    set ch₁ := (r.children.removeSelected r.sequence p.2 candidates removed).1 with hch₁
    set s₁ := (r.children.removeSelected r.sequence p.2 candidates removed).2 with hs₁
    obtain ⟨ch', slots, hrun, hrep⟩ := ih (r := {r with children := ch₁, sequence := s₁}) hshrink
      (fun q x hx => by rw [hup.position]; exact hpos q x hx)
      (fun q hq => hparents q (by simp [hq]))
    have hrest : {s₁ with singleChild := slots} = {r.sequence with singleChild := slots} := by
      rw [hup.rest]
    refine ⟨ch', slots, ?_, ?_⟩
    · rw [← hrest]
      exact hrun
    rw [hup.rest] at hrep
    convert hrep using 1
    funext q
    by_cases hq : q = p.1
    · subst hq
      simp
    · simp only [map_cons, mem_cons, hq, false_or, if_false]

/-! ### The plan -/

/-- Each of the listed positions comes after all its children. -/
def AfterChildren (nodes : TagMap (Node Rune)) : List Position → List Position → Prop
  | _, [] => True
  | done, tag :: tags => tag ∈ nodes ∧ tag ∉ done ∧ (∀ x ∈ kidsOf nodes tag, x ∈ done) ∧
    AfterChildren nodes (tag :: done) tags

variable {nodes : TagMap (Node Rune)} {done : List Position} {plan : EligibleCompactionPlan}
  {x : Position} {tag : Position}

theorem childFirst_of_afterChildren {nodes' : TagMap (Node Rune)} (h : AfterChildren nodes done tags)
    (hdone : ∀ x : Position, nodes'[x]? = if x ∈ done then none else nodes[x]?) : ChildFirst nodes' tags := by
  induction tags generalizing done nodes' with
  | nil => trivial
  | cons tag tags ih =>
    obtain ⟨hmem, hnew, hkids, hrest⟩ := h
    obtain ⟨item, hitem⟩ := mem_iff.mp hmem
    refine ⟨mem_iff.mpr ⟨item, by rw [hdone, if_neg hnew, hitem]⟩, ?_, ih hrest fun x => ?_⟩
    · rw [kidsOf_eq_filter (fun x => decide (x ∈ done)) (fun x => by simpa using hdone x)]
      exact filter_eq_nil_iff.mpr fun x hx => by simpa using hkids x hx
    rw [getElem?_erase, hdone]
    by_cases he : tag = x
    · simp [he]
    · simp [he, Ne.symm he]

/-- The number of children that are not done. -/
def childrenLeft (nodes : TagMap (Node Rune)) (done : List Position) (p : Position) : Nat :=
  (kidsOf nodes p).countP fun x => decide (x ∉ done)

theorem childrenLeft_eq_zero {p : Position} :
    childrenLeft nodes done p = 0 ↔ ∀ x ∈ kidsOf nodes p, x ∈ done := by
  rw [childrenLeft]
  simp

theorem countP_not_mem_cons {l : List Position} (hnew : tag ∉ done) (hl : l.Nodup) :
    (l.countP fun x => decide (x ∉ done)) =
      (l.countP fun x => decide (x ∉ tag :: done)) + if tag ∈ l then 1 else 0 := by
  induction l with
  | nil => rfl
  | cons a l ih =>
    obtain ⟨ha, hl⟩ := nodup_cons.mp hl
    rw [countP_cons, countP_cons, ih hl]
    by_cases hat : a = tag
    · subst hat
      simp [hnew, ha]
    · simp only [mem_cons, hat, Ne.symm hat, false_or]
      omega

theorem childrenLeft_cons (hnew : tag ∉ done) (p : Position) :
    childrenLeft nodes done p = childrenLeft nodes (tag :: done) p +
      if parentOf nodes tag = some p then 1 else 0 := by
  unfold childrenLeft
  rw [countP_not_mem_cons hnew (nodup_kidsOf _ _)]
  simp only [mem_kidsOf]

section Plan
variable {candidates : List Position} {candidateIndexes : TagMap Nat}

/-- The loop lists positions after their children. `done` is what it has listed so far:
the counters hold the children left of each candidate, and a candidate is in the queue
only when it has none. -/
theorem compactionLoop_spec (hmem : ∀ x ∈ candidates, x ∈ r.nodes) (hnodup : candidates.Nodup)
    (hindex : ∀ (x : Position) i, candidateIndexes[x]? = some i ↔ candidates[i]? = some x)
    {n : Nat} {remainingChildren : List Int} {ready : List Nat}
    (hremaining : ∀ (i : Nat) x, candidates[i]? = some x →
      remainingChildren[i]? = some (childrenLeft r.nodes done x : Int))
    (hready : ready.Nodup) (hqueued : ∀ i ∈ ready, ∃ x, candidates[i]? = some x ∧ x ∉ done ∧
      childrenLeft r.nodes done x = 0) (hdone : ∀ x ∈ done, childrenLeft r.nodes done x = 0)
    (hn : (candidates.countP fun x => decide (x ∉ done)) ≤ n) :
    ∃ compact, compactionLoop r candidates candidateIndexes n remainingChildren ready = some compact ∧
      AfterChildren r.nodes done compact ∧ compact ⊆ candidates := by
  induction n generalizing remainingChildren ready done with
  | zero =>
    cases ready with
    | nil => exact ⟨[], rfl, trivial, by simp⟩
    | cons i ready =>
      obtain ⟨x, hx, hxd, _⟩ := hqueued i (by simp)
      have : 0 < candidates.countP fun x => decide (x ∉ done) :=
        countP_pos_iff.mpr ⟨x, mem_of_getElem? hx, by simpa using hxd⟩
      omega
  | succ n ih =>
    cases ready with
    | nil => exact ⟨[], rfl, trivial, by simp⟩
    | cons i ready =>
      obtain ⟨hir, hready⟩ := nodup_cons.mp hready
      obtain ⟨tag, htag, hnew, hzero⟩ := hqueued i (by simp)
      have htagc := mem_of_getElem? htag
      obtain ⟨item, hitem⟩ := mem_iff.mp (hmem tag htagc)
      have hparent : parentOf r.nodes tag = some item.parent := parentOf_eq_some.mpr ⟨item, hitem, rfl⟩
      have hleft : ∀ p, childrenLeft r.nodes done p = childrenLeft r.nodes (tag :: done) p +
          if item.parent = p then 1 else 0 := fun p => by
        rw [childrenLeft_cons hnew, hparent]
        simp only [some.injEq]
      have hn' : (candidates.countP fun x => decide (x ∉ tag :: done)) ≤ n := by
        rw [countP_not_mem_cons hnew hnodup, if_pos htagc] at hn
        omega
      have hdone' : ∀ x ∈ tag :: done, childrenLeft r.nodes (tag :: done) x = 0 := by
        intro x hx
        have hx' : childrenLeft r.nodes done x = 0 := by
          rcases mem_cons.mp hx with rfl | hx
          · exact hzero
          · exact hdone x hx
        rw [hleft] at hx'
        omega
      have hinj : ∀ (j k : Nat) x, candidates[j]? = some x → candidates[k]? = some x → j = k := by
        intro j k x hj hk
        exact some.inj (((hindex x j).mpr hj).symm.trans ((hindex x k).mpr hk))
      have hqueued' : ∀ j ∈ ready, ∃ x, candidates[j]? = some x ∧ x ∉ tag :: done ∧
          childrenLeft r.nodes (tag :: done) x = 0 := by
        intro j hj
        obtain ⟨x, hx, hxd, hx0⟩ := hqueued j (by simp [hj])
        rw [hleft] at hx0
        refine ⟨x, hx, ?_, by omega⟩
        rw [mem_cons, not_or]
        refine ⟨?_, hxd⟩
        rintro rfl
        exact hir (hinj j i x hx htag ▸ hj)
      cases hpi : candidateIndexes[item.parent]? with
      | none =>
        have hrem : ∀ (j : Nat) x, candidates[j]? = some x →
            remainingChildren[j]? = some (childrenLeft r.nodes (tag :: done) x : Int) := by
          intro j x hx
          have hne : item.parent ≠ x := by
            rintro rfl
            rw [(hindex _ j).mpr hx] at hpi
            simp at hpi
          rw [hremaining j x hx, hleft x, if_neg hne, Nat.add_zero]
        obtain ⟨compact, hrun, hafter, hsub⟩ := ih hrem hready hqueued' hdone' hn'
        refine ⟨tag :: compact, ?_, ⟨hmem tag htagc, hnew, childrenLeft_eq_zero.mp hzero, hafter⟩,
          cons_subset.mpr ⟨htagc, hsub⟩⟩
        simp only [compactionLoop, htag, hparent, getD_some, hpi, hrun, bind_eq_bind, bind_some]
        rfl
      | some p =>
        have hp := (hindex _ p).mp hpi
        have hcount := hleft item.parent
        rw [if_pos rfl] at hcount
        have hold := hremaining p _ hp
        rw [hcount] at hold
        set left := childrenLeft r.nodes (tag :: done) item.parent with hl
        have hrem : ∀ (j : Nat) x, candidates[j]? = some x → (remainingChildren.set p (left : Int))[j]? =
              some (childrenLeft r.nodes (tag :: done) x : Int) := by
          intro j x hx
          by_cases hj : p = j
          · subst hj
            rw [hp] at hx
            cases hx
            rw [getElem?_set_self (List.getElem?_eq_some_iff.mp hold).1]
          have hne : item.parent ≠ x := by
            rintro rfl
            exact hj (hinj p j _ hp hx)
          rw [getElem?_set_ne hj, hremaining j x hx, hleft x, if_neg hne, Nat.add_zero]
        -- before this step the parent had a child left: it was neither listed nor queued
        have hpr : p ∉ ready := fun hm => by
          obtain ⟨x, hx, _, hx0⟩ := hqueued p (by simp [hm])
          rw [hp] at hx
          cases hx
          omega
        have hpd : item.parent ∉ tag :: done := fun hm => by
          rcases mem_cons.mp hm with he | hm
          · rw [he] at hcount
            omega
          · have := hdone _ hm
            omega
        have hready' : (if (left : Int) = 0 then ready ++ [p] else ready).Nodup := by
          split_ifs
          · simpa using hready.concat hpr
          · exact hready
        have hqueued'' : ∀ j ∈ (if (left : Int) = 0 then ready ++ [p] else ready),
            ∃ x, candidates[j]? = some x ∧ x ∉ tag :: done ∧ childrenLeft r.nodes (tag :: done) x = 0 := by
          intro j hj
          split_ifs at hj with h0
          · refine forall_mem_append.mpr ⟨hqueued', forall_mem_singleton.mpr ?_⟩ j hj
            exact ⟨item.parent, hp, hpd, by omega⟩
          · exact hqueued' j hj
        obtain ⟨compact, hrun, hafter, hsub⟩ := ih hrem hready' hqueued'' hdone' hn'
        refine ⟨tag :: compact, ?_, ⟨hmem tag htagc, hnew, childrenLeft_eq_zero.mp hzero, hafter⟩,
          cons_subset.mpr ⟨htagc, hsub⟩⟩
        have hminus : ((left + 1 : Nat) : Int) - 1 = left := by omega
        simp only [compactionLoop, htag, hparent, getD_some, hpi, hold, hminus, hrun,
          bind_eq_bind, bind_some]
        rfl

end Plan

theorem count_eq_length_kidsOf (h : Indexed r.nodes r.tombstones r.sequence r.children) (hx : x ∈ r.nodes) :
    r.children.count r.sequence (r.sequence.pair x) = (kidsOf r.nodes x).length := by
  obtain ⟨l, hl⟩ := h.holds
  obtain ⟨pair, hpair⟩ : ∃ pair, r.sequence.pairs[x]? = some pair :=
    hl.exists_pair_iff.mpr (h.forested.enter_mem_marksOf.mpr (.inr hx))
  rw [SequenceIndex.pair, hpair, ChildIndex.count_eq, ← h.kids.siblings x pair hpair, length_map]

theorem getElem?_indexes {candidates : List Position} (hnodup : candidates.Nodup) (x : Position) (i : Nat) :
    (candidates.zipIdx.foldl (fun indexes p => indexes.insert p.1 p.2) (∅ : TagMap Nat))[x]? = some i ↔
      candidates[i]? = some x := by
  have hpair : candidates.zipIdx.Pairwise (·.1 ≠ ·.1) := by
    have hmap : (candidates.zipIdx.map Prod.fst).Nodup := by simpa using hnodup
    exact pairwise_map.mp hmap
  rw [getElem?_foldl_assign hpair]
  constructor
  · rintro ⟨p, hp, rfl, rfl⟩
    exact mk_mem_zipIdx_iff_getElem?.mp hp
  · exact fun hi => ⟨(x, i), mk_mem_zipIdx_iff_getElem?.mpr hi, rfl, rfl⟩

/-- What a plan is good for. -/
structure PlansRemoval (r : Replica Rune) (tags : List Position) (plan : EligibleCompactionPlan) :
    Prop where
  order : AfterChildren r.nodes [] plan.tags
  requested : ∀ x ∈ plan.tags, x ∈ tags ∧ x ∈ r.tombstones
  indexed : ∀ x ∈ plan.tags, ∃ i < plan.candidateIndexes.size, plan.candidateIndexes[x]? = some i
  injective : ∀ (x y : Position) i, plan.candidateIndexes[x]? = some i →
    plan.candidateIndexes[y]? = some i → x = y

theorem mem_candidates {selected : TagSet} : x ∈ tags.foldl (fun selected tag =>
      if eligibleCompactionCandidate r tag then selected.insert tag else selected) selected ↔
      x ∈ selected ∨ x ∈ tags ∧ eligibleCompactionCandidate r x = true := by
  have hstep : ∀ (selected : TagSet) tag, x ∈ (if eligibleCompactionCandidate r tag then selected.insert tag else selected) ↔
      x ∈ selected ∨ eligibleCompactionCandidate r tag = true ∧ tag = x := by
    intro selected tag
    split_ifs with he
    · rw [TagSet.mem_insert, or_comm, and_iff_right he]
    · simp [he]
  refine (foldl_iff (P := fun s : TagSet => x ∈ s) hstep tags selected).trans ?_
  simp

theorem eligibleCompactionPlan_spec (h : Indexed r.nodes r.tombstones r.sequence r.children)
    (tags : List Position) :
    ∃ plan, eligibleCompactionPlan r tags = some plan ∧ PlansRemoval r tags plan := by
  set selected := tags.foldl (fun selected tag =>
    if eligibleCompactionCandidate r tag then selected.insert tag else selected) (∅ : TagSet) with hsel
  have hmem : ∀ x, x ∈ selected.toList ↔ x ∈ tags ∧ eligibleCompactionCandidate r x = true := by
    intro x
    rw [Std.ExtTreeSet.mem_toList, mem_candidates]
    simp
  have helig : ∀ x ∈ selected.toList, x ∈ r.tombstones ∧ x ∈ r.nodes := by
    intro x hx
    have := ((hmem x).mp hx).2
    simp only [eligibleCompactionCandidate, Bool.and_eq_true, Std.ExtTreeSet.contains_iff_mem,
      Std.ExtTreeMap.contains_iff_mem] at this
    exact this.1.1
  have hnodup : selected.toList.Nodup :=
    selected.ordered_toList.imp fun h => ((Tag.compare_eq_lt_iff _ _).mp h).ne
  set candidates := selected.toList with hcand
  set indexes := candidates.zipIdx.foldl (fun indexes p => indexes.insert p.1 p.2) (∅ : TagMap Nat)
    with hindexes
  have hindex : ∀ (x : Position) i, indexes[x]? = some i ↔ candidates[i]? = some x := fun x i =>
    getElem?_indexes hnodup x i
  set remaining := candidates.map fun tag =>
    (r.children.count r.sequence (r.sequence.pair tag) : Int) with hremaining
  have hcount : ∀ (i : Nat) x, candidates[i]? = some x →
      remaining[i]? = some (childrenLeft r.nodes [] x : Int) := by
    intro i x hx
    have hall : childrenLeft r.nodes [] x = (kidsOf r.nodes x).length := by
      simp [childrenLeft]
    rw [hremaining, getElem?_map, hx, hall, map_some,
      count_eq_length_kidsOf h (helig x (mem_of_getElem? hx)).2]
  have hqueued : ∀ i ∈ (range candidates.length).filter fun i => decide (remaining[i]? = some 0),
      ∃ x, candidates[i]? = some x ∧ x ∉ [] ∧ childrenLeft r.nodes [] x = 0 := by
    intro i hi
    obtain ⟨hlt, h0⟩ := List.mem_filter.mp hi
    have hget := getElem?_eq_getElem (mem_range.mp hlt)
    refine ⟨_, hget, by simp, ?_⟩
    have := some.inj ((of_decide_eq_true h0).symm.trans (hcount i _ hget))
    omega
  obtain ⟨compact, hrun, hafter, hsub⟩ := compactionLoop_spec (n := candidates.length)
    (fun x hx => (helig x hx).2) hnodup hindex hcount (nodup_range.filter _) hqueued (by simp)
    countP_le_length
  have hsize : indexes.size = candidates.length := by
    rw [← Std.ExtTreeMap.length_keys]
    refine ((perm_ext_iff_of_nodup indexes.nodup_keys hnodup).mpr fun x => ?_).length_eq
    rw [Std.ExtTreeMap.mem_keys, mem_iff, mem_iff_getElem?]
    simp only [hindex]
  refine ⟨⟨compact, indexes⟩, ?_, hafter, fun x hx => ?_, fun x hx => ?_, fun x y i hx hy => ?_⟩
  · change (compactionLoop r candidates indexes candidates.length remaining _ >>= fun compact =>
      some (EligibleCompactionPlan.mk compact indexes)) = _
    rw [hrun]
    rfl
  · exact ⟨((hmem x).mp (hsub hx)).1, (helig x (hsub hx)).1⟩
  · obtain ⟨i, hi⟩ := mem_iff_getElem?.mp (hsub hx)
    refine ⟨i, ?_, (hindex x i).mpr hi⟩
    rw [hsize]
    exact (List.getElem?_eq_some_iff.mp hi).1
  rw [hindex] at hx hy
  rw [hx] at hy
  exact some.inj hy

theorem selectedAt_removed (h : PlansRemoval r tags plan) (x : Position) :
    ChildIndex.selectedAt plan.candidateIndexes
      (plan.tags.foldl (fun removed tag => removed.set (plan.candidateIndexes[tag]?.getD 0) true)
        (replicate plan.candidateIndexes.size false)) x = true ↔ x ∈ plan.tags := by
  have hset : ∀ (l : List Position) (bits : List Bool) (i : Nat), (∀ t ∈ l, t ∈ plan.tags) →
      bits.length = plan.candidateIndexes.size →
      ((l.foldl (fun removed tag => removed.set (plan.candidateIndexes[tag]?.getD 0) true) bits)[i]? =
        some true ↔ bits[i]? = some true ∨ ∃ t ∈ l, plan.candidateIndexes[t]? = some i) := by
    intro l
    induction l with
    | nil => simp
    | cons t l ih =>
      intro bits i hl hlen
      obtain ⟨j, hj, hjt⟩ := h.indexed t (hl t (by simp))
      rw [foldl_cons, ih _ i (fun u hu => hl u (by simp [hu])) (by simpa using hlen), hjt, getD_some]
      by_cases hij : j = i
      · subst hij
        rw [getElem?_set_self (by omega)]
        simp [hjt]
      · rw [getElem?_set_ne hij]
        simp [hjt, hij]
  unfold ChildIndex.selectedAt
  cases hx : plan.candidateIndexes[x]? with
  | none =>
    refine ⟨fun hf => by simp at hf, fun hm => ?_⟩
    obtain ⟨i, _, hi⟩ := h.indexed x hm
    rw [hx] at hi
    simp at hi
  | some i =>
    have hbit := hset plan.tags (replicate plan.candidateIndexes.size false) i (fun _ ht => ht)
      (by simp)
    have hnone : (replicate plan.candidateIndexes.size false)[i]? ≠ some true := by
      rw [getElem?_replicate]
      split_ifs <;> simp
    simp only [hnone, false_or] at hbit
    have hgetD : ∀ o : Option Bool, o.getD false = true ↔ o = some true := by
      rintro (_ | _ | _) <;> simp
    rw [hgetD, hbit]
    constructor
    · rintro ⟨t, ht, hti⟩
      rwa [h.injective x t i hx hti]
    · exact fun hm => ⟨x, hm, hx⟩

/-- The parents of the nodes of a list, with their pairs. -/
def affectedParents (r : Replica Rune) (tags : List Position) (m : TagMap (Option Nat)) : TagMap (Option Nat) :=
  tags.foldl (fun parents tag =>
    let parent := (parentOf r.nodes tag).getD .zero
    parents.insert parent (r.sequence.pair parent)) m

theorem getElem?_affectedParents (r : Replica Rune) (tags : List Position) (m : TagMap (Option Nat))
    (p : Position) : (affectedParents r tags m)[p]? =
      if ∃ t ∈ tags, (parentOf r.nodes t).getD .zero = p then some (r.sequence.pair p) else m[p]? := by
  induction tags generalizing m with
  | nil => simp [affectedParents]
  | cons t tags ih =>
    rw [affectedParents, foldl_cons, ← affectedParents, ih]
    simp only [get?_insert, mem_cons, exists_eq_or_imp]
    by_cases hp : (parentOf r.nodes t).getD .zero = p
    · simp [hp]
    · simp [hp]

theorem affectedParents_spec (h : Indexed r.nodes r.tombstones r.sequence r.children)
    (hmem : ∀ t ∈ tags, t ∈ r.nodes) : ∃ parents : List (Position × Nat),
      ((affectedParents r tags ∅).toList.map Prod.snd = parents.map fun q => some q.2) ∧
      (∀ q ∈ parents, r.sequence.pairs[q.1]? = some q.2) ∧
      ∀ t ∈ tags, ∀ p, parentOf r.nodes t = some p → p ∈ parents.map Prod.fst := by
  obtain ⟨l, hl⟩ := h.holds
  set affected := affectedParents r tags ∅
  have hget : ∀ p : Position, affected[p]? = if ∃ t ∈ tags, (parentOf r.nodes t).getD .zero = p
      then some (r.sequence.pair p) else none := fun p => by
    rw [getElem?_affectedParents]
    simp
  have hentry : ∀ q ∈ affected.toList, ∃ x, r.sequence.pairs[q.1]? = some x ∧ q.2 = some x := by
    intro q hq
    have hq' := mem_toList.mp hq
    rw [hget] at hq'
    split_ifs at hq' with hex
    obtain ⟨t, ht, hpt⟩ := hex
    obtain ⟨item, hitem⟩ := mem_iff.mp (hmem t ht)
    have hp : parentOf r.nodes t = some item.parent := parentOf_eq_some.mpr ⟨item, hitem, rfl⟩
    obtain ⟨x, hx⟩ := hl.exists_pair_iff.mpr (h.forested.enter_mem_marksOf.mpr (h.forested.parent_known hp))
    rw [hp, getD_some] at hpt
    rw [hpt] at hx
    exact ⟨x, hx, (some.inj hq').symm.trans hx⟩
  refine ⟨affected.toList.map fun q => (q.1, q.2.getD 0), ?_, fun q hq => ?_, fun t ht p hp => ?_⟩
  · rw [List.map_map]
    refine map_congr_left fun q hq => ?_
    obtain ⟨x, _, hx⟩ := hentry q hq
    simp [hx]
  · obtain ⟨q', hq', rfl⟩ := mem_map.mp hq
    obtain ⟨x, hx, he⟩ := hentry q' hq'
    simp [hx, he]
  have hex : affected[p]? = some (r.sequence.pair p) := by
    rw [hget, if_pos ⟨t, ht, by rw [hp]; rfl⟩]
  rw [List.map_map]
  exact mem_map.mpr ⟨(p, _), mem_toList.mpr hex, rfl⟩

theorem AfterChildren.mem (h : AfterChildren nodes done tags) : ∀ x ∈ tags, x ∈ nodes := by
  induction tags generalizing done with
  | nil => simp
  | cons t tags ih =>
    obtain ⟨ht, _, _, hrest⟩ := h
    exact forall_mem_cons.mpr ⟨ht, ih hrest⟩

theorem applyEligibleCompactionPlan_spec
    (h : Indexed r.nodes r.tombstones r.sequence r.children) (hp : PlansRemoval r tags plan) :
    ∃ r', applyEligibleCompactionPlan r plan = some (r', true) ∧ Pruned r r' plan.tags := by
  obtain ⟨l, hl⟩ := h.holds
  have hmem := hp.order.mem
  obtain ⟨r₁, hleaves, hu⟩ := removeLeaves_spec h.forested hl
    (childFirst_of_afterChildren hp.order (by simp))
  obtain ⟨parents, hlist, hreg, hcover⟩ := affectedParents_spec h hmem
  set removed := plan.tags.foldl (fun removed tag =>
    removed.set (plan.candidateIndexes[tag]?.getD 0) true)
    (replicate plan.candidateIndexes.size false) with hremoved
  -- the child lists still hold the removed nodes: they are those of the old registrations
  have hkept : r.sequence.Kept {r₁.sequence with pairs := r.sequence.pairs} :=
    ⟨hu.kept.position, hu.kept.singleChild, hu.kept.allocated⟩
  have hrep₁ := h.kids.kept hkept rfl
  rw [← hu.children] at hrep₁
  have hpos : ∀ (q : Position) x, r.sequence.pairs[q]? = some x → r₁.sequence.position x = q :=
    fun q x hx => by rw [hu.kept.position]; exact (hl.of_pair hx).1
  obtain ⟨ch', slots, hrun, hrep⟩ := removeSelectedChildren_spec (r := r₁) hrep₁ hpos hreg
  have hbits : ∀ x, ChildIndex.selectedAt plan.candidateIndexes removed x = decide (x ∈ plan.tags) :=
    fun x => by rw [Bool.eq_iff_iff, selectedAt_removed hp, decide_eq_true_eq]
  have hkids : (fun q => if q ∈ parents.map Prod.fst then
      (kidsOf r.nodes q).filter fun x => !ChildIndex.selectedAt plan.candidateIndexes removed x
      else kidsOf r.nodes q) = kidsOf r₁.nodes := by
    funext q
    have hk : kidsOf r₁.nodes q = (kidsOf r.nodes q).filter fun x => !decide (x ∈ plan.tags) :=
      kidsOf_eq_filter (fun x => decide (x ∈ plan.tags)) (fun x => by simpa using hu.nodes x) q
    simp only [hbits, hk]
    split_ifs with hq
    · rfl
    refine (filter_eq_self.mpr fun x hx => ?_).symm
    have : x ∉ plan.tags := fun hm => hq (hcover x hm q (mem_kidsOf.mp hx))
    simpa using this
  rw [hkids] at hrep
  have hgone : ∀ x ∈ plan.tags, x ∉ r₁.nodes := fun x hx => by
    rw [not_mem_iff, hu.nodes, if_pos hx]
  obtain ⟨l', hl'⟩ := hu.holds
  refine ⟨{r₁ with children := ch', sequence := {r₁.sequence with singleChild := slots}}, ?_,
    ⟨hu.forested, ⟨l', hl'.withSingleChild slots⟩, ?_⟩, hu.nodes, hu.tombstones, hu.pending, hu.waiting⟩
  · have hall : plan.tags.any (!r.nodes.contains ·) = false := by
      rw [List.any_eq_false]
      intro x hx
      simpa using hmem x hx
    unfold affectedParents at hlist
    unfold applyEligibleCompactionPlan
    rw [hall]
    simp only [Bool.false_eq_true, if_false, hleaves, bind_eq_bind, bind_some, Bool.not_true, hlist]
    rw [hrun]
    rfl
  · refine hrep.unregister hpos ⟨rfl, rfl, rfl⟩ (· ∈ plan.tags) hu.pairs (fun q _ x hx hm => ?_)
      fun q hq => ?_
    · exact hgone x hm (mem_of_parentOf (mem_kidsOf.mp hx))
    · exact hu.forested.kidsOf_eq_nil (hgone q hq) (Tag.ne_zero_of_valid (h.forested.valid q (hmem q hq)))

theorem compactable_spec (h : Indexed r.nodes r.tombstones r.sequence r.children) {seen : TagSet}
    {compact : List Position} (hc : compactable r seen tags = some compact) :
    compact.Nodup ∧ ∀ x ∈ compact, x ∉ seen ∧ x ∈ tags ∧ x ∈ r.tombstones ∧ x ∈ r.nodes ∧
      kidsOf r.nodes x = [] := by
  induction tags generalizing seen compact with
  | nil =>
    cases hc
    exact ⟨nodup_nil, by simp⟩
  | cons tag tags ih =>
    unfold compactable at hc
    split_ifs at hc with hseen htomb hblock
    · exact (ih hc).imp_right fun hall x hx => (hall x hx).imp_right (.imp_left (mem_cons_of_mem _))
    · exact (ih hc).imp_right fun hall x hx => (hall x hx).imp (fun hs hm => hs (TagSet.mem_insert.mpr (.inr hm)))
        (.imp_left (mem_cons_of_mem _))
    obtain ⟨rest, hrest, rfl⟩ := map_eq_some_iff.mp hc
    obtain ⟨hnodup, hall⟩ := ih hrest
    simp only [Bool.or_eq_true, not_or, Bool.not_eq_true', Bool.not_eq_false, decide_eq_true_eq,
      Std.ExtTreeMap.contains_iff_mem] at hblock
    obtain ⟨⟨⟨hmem, hcount⟩, _⟩, _⟩ := hblock
    rw [count_eq_length_kidsOf h hmem] at hcount
    refine ⟨nodup_cons.mpr ⟨fun hm => ?_, hnodup⟩, fun x hx => ?_⟩
    · exact (hall tag hm).1 (TagSet.mem_insert.mpr (.inl rfl))
    rcases mem_cons.mp hx with rfl | hx
    · refine ⟨by simpa using hseen, by simp, by simpa using htomb, hmem, ?_⟩
      exact eq_nil_of_length_eq_zero (by omega)
    · exact (hall x hx).imp (fun hs hm => hs (TagSet.mem_insert.mpr (.inr hm))) (.imp_left (mem_cons_of_mem _))

/-- Leaves may go in any order. -/
theorem afterChildren_of_leaves
    (hnodup : tags.Nodup) (h : ∀ x ∈ tags, x ∈ nodes ∧ x ∉ done ∧ kidsOf nodes x = []) :
    AfterChildren nodes done tags := by
  induction tags generalizing done with
  | nil => trivial
  | cons t tags ih =>
    obtain ⟨ht, hnodup⟩ := nodup_cons.mp hnodup
    obtain ⟨hmem, hd, hk⟩ := h t (by simp)
    refine ⟨hmem, hd, by simp [hk], ih hnodup fun x hx => ?_⟩
    obtain ⟨h₁, h₂, h₃⟩ := h x (by simp [hx])
    refine ⟨h₁, ?_, h₃⟩
    rw [mem_cons, not_or]
    exact ⟨by rintro rfl; exact ht hx, h₂⟩

/-! ### Whole calls -/

/-- What a successful call does. -/
structure Compacted (r r' : RGA) (tags removed : List Position) : Prop where
  inv : r'.Inv
  settled : r'.Settled
  pruned : Pruned r.toReplica r'.toReplica removed
  order : AfterChildren r.nodes [] removed
  requested : ∀ x ∈ removed, x ∈ tags ∧ x ∈ r.tombstones
  options : r'.options = r.options
  clock : r'.clock = r.clock

/-- Nothing is pending, before and after. -/
theorem compacted_of_pruned {r : RGA} {state : Replica Rune} {removed : List Position}
    (h : r.Inv) (hempty : ¬ r.pending.size > 0) (hp : Pruned r.toReplica state removed)
    (ho : AfterChildren r.nodes [] removed) (hr : ∀ x ∈ removed, x ∈ tags ∧ x ∈ r.tombstones)
    (version : UInt64) : Compacted r {r with toReplica := {state with version}} tags removed := by
  have hnone : r.pending = ∅ := Std.ExtTreeMap.eq_empty_iff_size_eq_zero.mpr (by omega)
  refine ⟨⟨hp.indexed, h.queued.congr hp.pending hp.waiting ?_⟩, ?_,
    ⟨hp.indexed, hp.nodes, hp.tombstones, hp.pending, hp.waiting⟩, ho, hr, rfl, rfl⟩
  · simp [hnone]
  intro x p hx
  change parentOf state.pending x = some p at hx
  rw [hp.pending, hnone] at hx
  simp [parentOf] at hx

/-- How a compaction ends. -/
def CompactionEnds (r : RGA) (tags : List Position) (r' : RGA) (res : Except Err Nat) : Prop :=
  (∃ removed, res = .ok removed.length ∧ Compacted r r' tags removed) ∨
    (∃ err, res = .error err) ∧ r' = r

variable {r : RGA} (h : r.Inv)
include h

theorem compactTombstones_spec (tags : List Position) :
    ∃ r' res, r.compactTombstones tags = some (r', res) ∧ CompactionEnds r tags r' res := by
  unfold RGA.compactTombstones
  split_ifs with hbad
  · exact ⟨r, _, rfl, .inr ⟨⟨_, rfl⟩, rfl⟩⟩
  have hempty : ¬ r.pending.size > 0 := fun he => hbad (by simp [he])
  cases hc : compactable r.toReplica ∅ tags with
  | none => exact ⟨r, _, rfl, .inr ⟨⟨_, rfl⟩, rfl⟩⟩
  | some compact =>
    obtain ⟨hnodup, hall⟩ := compactable_spec h.indexed hc
    have horder : AfterChildren r.nodes [] compact := afterChildren_of_leaves hnodup fun x hx => by
      obtain ⟨_, _, _, h₁, h₂⟩ := hall x hx
      exact ⟨h₁, by simp, h₂⟩
    obtain ⟨state, hrun, hp⟩ := removeTombstones_spec h.indexed
      (childFirst_of_afterChildren horder (by simp))
    refine ⟨_, _, ?_, .inl ⟨compact, rfl, compacted_of_pruned h hempty hp horder
      (fun x hx => ⟨(hall x hx).2.1, (hall x hx).2.2.1⟩)
      (if compact.length > 0 then state.version + 1 else state.version)⟩⟩
    simp only [hrun, bind_eq_bind, bind_some]
    rfl

theorem compactEligibleTombstones_spec (hs : r.Settled) (tags : List Position) :
    ∃ r' res, r.compactEligibleTombstones tags = some (r', res) ∧ CompactionEnds r tags r' res := by
  unfold RGA.compactEligibleTombstones
  split_ifs with hbad
  · exact ⟨r, _, rfl, .inr ⟨⟨_, rfl⟩, rfl⟩⟩
  have hempty : ¬ r.pending.size > 0 := fun he => hbad (by simp [he])
  obtain ⟨plan, hplan, hp⟩ := eligibleCompactionPlan_spec h.indexed tags
  simp only [hplan, bind_eq_bind, bind_some]
  split_ifs with hnil
  · have htags : plan.tags = [] := eq_nil_of_length_eq_zero hnil
    refine ⟨r, _, rfl, .inl ⟨[], rfl, h, hs, ?_, trivial, by simp, rfl, rfl⟩⟩
    exact ⟨h.indexed, by simp, by simp, rfl, rfl⟩
  obtain ⟨state, hrun, hpr⟩ := applyEligibleCompactionPlan_spec h.indexed hp
  refine ⟨_, _, ?_, .inl ⟨plan.tags, rfl,
    compacted_of_pruned h hempty hpr hp.order hp.requested (state.version + 1)⟩⟩
  simp only [hrun, bind_some]
  rfl

end Crdt.Text
