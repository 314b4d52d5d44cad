import Crdt.Lib.Search
import Crdt.Sequence.Query

/-! The child index: the children of every position, greatest first.

A parent with one child keeps it in its own pair; only a parent with several has a
sibling slice. Both packages have this index. `ChildIndex.Rep index s kids` says that
it holds the child lists `kids`, whichever way each of them is stored;
`ChildIndex.insert_spec` is the placement of a child among its siblings. -/
namespace Crdt.Rga

open Sequence MapLoop List

structure ChildIndex where
  branches : TagMap (List Nat)

def newChildIndex : ChildIndex := ⟨∅⟩

namespace ChildIndex

section
variable (index : ChildIndex) (s : SequenceIndex)

def count : Option Nat → Nat
  | none => 0
  | some parent =>
    match index.branches[s.position parent]? with
    | some siblings => siblings.length
    | none => if (s.singleChild parent).isSome then 1 else 0

/-- `parent.singleChild = child` -/
def setSingleChild (parent : Nat) (child : Option Nat) : SequenceIndex :=
  {s with singleChild := Function.update s.singleChild parent child}

/-- Record `child` in descending order and return its preceding sibling, if any. -/
def insert (parent child : Nat) : ChildIndex × SequenceIndex × Option Nat :=
  match index.branches[s.position parent]? with
  | some siblings =>
    let insertAt := Search.search siblings.length fun position =>
      siblings[position]?.all fun q => (s.position q).compare (s.position child) == .lt
    let previous := if insertAt = 0 then none else siblings[insertAt - 1]?
    if siblings[insertAt]?.map s.position = some (s.position child) then (index, s, previous)
    else
      let siblings := siblings.take insertAt ++ child :: siblings.drop insertAt
      (⟨index.branches.insert (s.position parent) siblings⟩, s, previous)
  | none =>
    match s.singleChild parent with
    | none => (index, setSingleChild s parent (some child), none)
    | some current =>
      if s.position current = s.position child then (index, s, none) else
      let s := setSingleChild s parent none
      if (s.position current).compare (s.position child) = .lt then
        (⟨index.branches.insert (s.position parent) [child, current]⟩, s, none)
      else (⟨index.branches.insert (s.position parent) [current, child]⟩, s, some current)

/-- Store what is left of a sibling slice. -/
def retain (parent : Nat) (siblings : List Nat) : ChildIndex × SequenceIndex :=
  match siblings with
  | [] => (⟨index.branches.erase (s.position parent)⟩, s)
  | [child] => (⟨index.branches.erase (s.position parent)⟩, setSingleChild s parent (some child))
  | _ => (⟨index.branches.insert (s.position parent) siblings⟩, s)

def remove (parent child : Nat) : ChildIndex × SequenceIndex × Bool :=
  match index.branches[s.position parent]? with
  | some siblings =>
    let removeAt := Search.search siblings.length fun position =>
      siblings[position]?.all fun q => (s.position q).compare (s.position child) != .gt
    if siblings[removeAt]?.map s.position = some (s.position child) then
      let (index, s) := index.retain s parent (siblings.eraseIdx removeAt)
      (index, s, true)
    else (index, s, false)
  | none =>
    if (s.singleChild parent).map s.position = some (s.position child) then
      (index, setSingleChild s parent none, true)
    else (index, s, false)

/-- `candidateIndex, selected := candidates[position]; selected && removed[candidateIndex]` -/
def selectedAt (candidates : TagMap Nat) (removed : List Bool) (position : Position) : Bool :=
  match candidates[position]? with
  | none => false
  | some candidateIndex => removed[candidateIndex]?.getD false

/-- Remove exactly the candidates whose removed bit is true. -/
def removeSelected (parent : Nat)
    (candidates : TagMap Nat) (removed : List Bool) : ChildIndex × SequenceIndex :=
  match index.branches[s.position parent]? with
  | some siblings =>
    index.retain s parent
      (siblings.filter fun child => !selectedAt candidates removed (s.position child))
  | none =>
    match s.singleChild parent with
    | none => (index, s)
    | some child =>
      if selectedAt candidates removed (s.position child) then (index, setSingleChild s parent none)
      else (index, s)

end

/-! ### What the index holds -/

/-- The children of a pair, whichever way they are stored. -/
def siblings (index : ChildIndex) (s : SequenceIndex) (parent : Nat) : List Nat :=
  match index.branches[s.position parent]? with
  | some siblings => siblings
  | none => (s.singleChild parent).toList

/-- A parent's children are stored in one way only. -/
def Exclusive (index : ChildIndex) (s : SequenceIndex) (parent : Nat) : Prop :=
  (index.branches[s.position parent]?).isSome → s.singleChild parent = none

structure Rep (index : ChildIndex) (s : SequenceIndex) (kids : Position → List Position) : Prop where
  siblings : ∀ (p : Position) r, s.pairs[p]? = some r → (index.siblings s r).map s.position = kids p
  registered : ∀ (p : Position) r, s.pairs[p]? = some r → ∀ q ∈ index.siblings s r,
    s.pairs[s.position q]? = some q
  exclusive : ∀ (p : Position) r, s.pairs[p]? = some r → index.Exclusive s r
  known : ∀ p : Position, (index.branches[p]?).isSome → (s.pairs[p]?).isSome
  several : ∀ p : Position, index.branches[p]? ≠ some []

variable {index : ChildIndex} {s : SequenceIndex} {parent child : Nat} {l : List Nat}

theorem count_eq (index : ChildIndex) (s : SequenceIndex) (parent : Nat) :
    index.count s (some parent) = (index.siblings s parent).length := by
  simp only [count, siblings]
  cases index.branches[s.position parent]? with
  | some l => rfl
  | none => cases s.singleChild parent <;> rfl

/-- What an update of one parent's children changes. -/
structure Updates (index : ChildIndex) (s : SequenceIndex) (parent : Nat) (l : List Nat)
    (index' : ChildIndex) (s' : SequenceIndex) : Prop where
  rest : s' = {s with singleChild := s'.singleChild}
  singleChild : ∀ r, r ≠ parent → s'.singleChild r = s.singleChild r
  branches : ∀ p, p ≠ s.position parent → index'.branches[p]? = index.branches[p]?
  siblings : index'.siblings s' parent = l
  exclusive : index'.Exclusive s' parent
  several : index'.branches[s.position parent]? ≠ some []

theorem setSingleChild_updates (h : index.branches[s.position parent]? = none) (child : Option Nat) :
    Updates index s parent child.toList index (setSingleChild s parent child) := by
  refine ⟨rfl, fun r hr => ?_, fun _ _ => rfl, ?_, ?_, by simp [h]⟩
  · simp [setSingleChild, hr]
  · simp [ChildIndex.siblings, setSingleChild, h]
  · intro hs
    simp [setSingleChild, h] at hs

theorem insert_updates (h : s.singleChild parent = none) (hl : l ≠ []) :
    Updates index s parent l ⟨index.branches.insert (s.position parent) l⟩ s := by
  refine ⟨rfl, fun _ _ => rfl, fun p hp => ?_, ?_, fun _ => h, by simpa using hl⟩
  · rw [get?_insert, if_neg (Ne.symm hp)]
  · simp [ChildIndex.siblings]

theorem exists_cut (hsorted : (l.map s.position).Pairwise (· > ·))
    (hnew : s.position child ∉ l.map s.position) :
    let k := Search.search l.length fun position =>
      l[position]?.all fun q => (s.position q).compare (s.position child) == .lt
    k ≤ l.length ∧ (∀ q ∈ l.take k, s.position child < s.position q) ∧
      ∀ q ∈ l.drop k, s.position q < s.position child := by
  have hmono : l.Pairwise fun a b => ((s.position a).compare (s.position child) == .lt) = true →
      ((s.position b).compare (s.position child) == .lt) = true := by
    refine (pairwise_map.mp hsorted).imp fun {a b} hab ha => ?_
    simp only [beq_iff_eq, Tag.compare_eq_lt_iff] at ha ⊢
    exact lt_trans hab ha
  obtain ⟨h₁, h₂, h₃⟩ := Search.search_list hmono
  refine ⟨h₁, fun q hq => ?_, fun q hq => by simpa using h₃ q hq⟩
  have hle : s.position child ≤ s.position q := by simpa using h₂ q hq
  refine lt_of_le_of_ne hle fun he => hnew ?_
  exact he ▸ mem_map_of_mem (mem_of_mem_take hq)

theorem insert_spec (index : ChildIndex) (s : SequenceIndex) (parent child : Nat)
    (hsorted : ((index.siblings s parent).map s.position).Pairwise (· > ·))
    (hnew : s.position child ∉ (index.siblings s parent).map s.position) (hex : index.Exclusive s parent) :
    ∃ before after index' s', index.siblings s parent = before ++ after ∧
      (∀ q ∈ before, s.position child < s.position q) ∧ (∀ q ∈ after, s.position q < s.position child) ∧
      index.insert s parent child = (index', s', before.getLast?) ∧
      Updates index s parent (before ++ child :: after) index' s' := by
  unfold insert
  cases hb : index.branches[s.position parent]? with
  | some l =>
    have hl : index.siblings s parent = l := by simp [siblings, hb]
    rw [hl] at hsorted hnew
    obtain ⟨hk, hbefore, hafter⟩ := exists_cut hsorted hnew
    set k := Search.search l.length fun position =>
      l[position]?.all fun q => (s.position q).compare (s.position child) == .lt with hkdef
    have hne : l[k]?.map s.position ≠ some (s.position child) := by
      intro he
      obtain ⟨q, hq, he⟩ := Option.map_eq_some_iff.mp he
      exact hnew (he ▸ mem_map_of_mem (mem_of_getElem? hq))
    have hprev : (if k = 0 then none else l[k - 1]?) = (l.take k).getLast? := by
      by_cases hk0 : k = 0
      · simp [hk0]
      · rw [if_neg hk0, getLast?_eq_getElem?, length_take, min_eq_left hk, getElem?_take_of_lt (by omega)]
    refine ⟨l.take k, l.drop k, _, s, ?_, hbefore, hafter, ?_, insert_updates (hex (by simp [hb])) (by simp)⟩
    · rw [hl, take_append_drop]
    · simp only [← hkdef, if_neg hne, hprev]
  | none =>
    cases hsc : s.singleChild parent with
    | none =>
      refine ⟨[], [], index, setSingleChild s parent (some child), by simp [siblings, hb, hsc],
        by simp, by simp, rfl, ?_⟩
      exact setSingleChild_updates hb (some child)
    | some current =>
      have hl : index.siblings s parent = [current] := by simp [siblings, hb, hsc]
      rw [hl] at hnew
      have hne : s.position current ≠ s.position child := by
        simpa [eq_comm] using hnew
      have hup : ∀ x y, Updates index s parent [x, y]
          ⟨index.branches.insert (s.position parent) [x, y]⟩ (setSingleChild s parent none) := by
        intro x y
        refine ⟨rfl, (setSingleChild_updates hb none).singleChild, fun p hp => ?_,
          by simp [siblings, setSingleChild], fun _ => ?_, by simp⟩
        · rw [get?_insert, if_neg (Ne.symm hp)]
        · simp [setSingleChild]
      simp only [if_neg hne]
      by_cases hlt : s.position current < s.position child
      · refine ⟨[], [current], _, _, hl, by simp, by simpa using hlt, ?_, hup child current⟩
        rw [if_pos (by simpa [setSingleChild] using hlt)]
        rfl
      have hgt : s.position child < s.position current := lt_of_le_of_ne (not_lt.mp hlt) (Ne.symm hne)
      refine ⟨[current], [], _, _, hl, by simpa using hgt, by simp, ?_, hup current child⟩
      rw [if_neg (by simpa [setSingleChild] using hlt)]
      rfl

theorem retain_updates (hex : s.singleChild parent = none) (l : List Nat) :
    Updates index s parent l (index.retain s parent l).1 (index.retain s parent l).2 := by
  have herase : ∀ p, p ≠ s.position parent →
      (index.branches.erase (s.position parent))[p]? = index.branches[p]? := by
    intro p hp
    rw [getElem?_erase, if_neg (Ne.symm hp)]
  match l with
  | [] =>
    exact ⟨rfl, fun _ _ => rfl, herase, by simp [siblings, retain, hex], fun _ => hex, by simp [retain]⟩
  | [child] =>
    refine ⟨rfl, fun r hr => by simp [retain, setSingleChild, hr], herase, ?_, ?_, by simp [retain]⟩
    · simp [siblings, retain, setSingleChild]
    · intro h
      simp [retain, setSingleChild] at h
  | _ :: _ :: _ => exact insert_updates hex (by simp)

theorem remove_spec (hsorted : ((index.siblings s parent).map s.position).Pairwise (· > ·))
    (hmem : child ∈ index.siblings s parent) (hex : index.Exclusive s parent) :
    ∃ index' s', index.remove s parent child = (index', s', true) ∧
      Updates index s parent ((index.siblings s parent).filter (· ≠ child)) index' s' := by
  unfold remove
  cases hb : index.branches[s.position parent]? with
  | some l =>
    have hl : index.siblings s parent = l := by simp [siblings, hb]
    rw [hl] at hsorted hmem ⊢
    have hpair := pairwise_map.mp hsorted
    have hmono : l.Pairwise fun a b => ((s.position a).compare (s.position child) != .gt) = true →
        ((s.position b).compare (s.position child) != .gt) = true := by
      refine hpair.imp fun {a b} hab ha => ?_
      simp only [bne_iff_ne, ne_eq, Tag.compare_eq_gt_iff, not_lt] at ha ⊢
      exact (le_of_lt hab).trans ha
    obtain ⟨-, h₂, h₃⟩ := Search.search_list hmono
    set k := Search.search l.length fun position =>
      l[position]?.all fun q => (s.position q).compare (s.position child) != .gt with hk
    -- the child stands first among those that are not greater
    have hin : child ∈ l.drop k := by
      rw [← take_append_drop k l, mem_append] at hmem
      exact hmem.resolve_left fun hm => by simpa using h₂ child hm
    obtain ⟨back, hdrop, hback⟩ : ∃ back, l.drop k = child :: back ∧ child ∉ back := by
      have hdesc := hpair.sublist (drop_sublist k l)
      cases hd : l.drop k with
      | nil => simp [hd] at hin
      | cons q back =>
        rw [hd] at hin hdesc
        have hlt := (pairwise_cons.mp hdesc).1
        rcases mem_cons.mp hin with rfl | hc
        · exact ⟨back, rfl, fun hc => lt_irrefl _ (hlt child hc)⟩
        · have hle := h₃ q (by simp [hd])
          simp only [bne_iff_ne, ne_eq, Tag.compare_eq_gt_iff, not_lt] at hle
          exact absurd (hlt child hc) (not_lt.mpr hle)
    have hget : l[k]? = some child := by
      rw [← head?_drop, hdrop]
      rfl
    have hfilter : l.filter (· ≠ child) = l.eraseIdx k := by
      have hf : (l.take k).filter (· ≠ child) = l.take k := filter_eq_self.mpr fun q hq => by
        simpa using fun he => by simpa [he] using h₂ q hq
      have hb : back.filter (· ≠ child) = back := filter_eq_self.mpr fun q hq => by
        simpa using fun he : q = child => hback (he ▸ hq)
      rw [eraseIdx_eq_take_drop_succ, ← tail_drop, hdrop, tail_cons]
      conv_lhs => rw [← take_append_drop k l, hdrop, filter_append, hf, filter_cons, hb]
      simp
    refine ⟨(index.retain s parent (l.eraseIdx k)).1, (index.retain s parent (l.eraseIdx k)).2, ?_, ?_⟩
    · simp only [← hk, hget, Option.map_some, if_true]
    · rw [hfilter]
      exact retain_updates (hex (by simp [hb])) _
  | none =>
    have hl : index.siblings s parent = (s.singleChild parent).toList := by simp [siblings, hb]
    rw [hl] at hmem ⊢
    have hsc : s.singleChild parent = some child := by simpa using hmem
    refine ⟨index, setSingleChild s parent none, by simp [hsc], ?_⟩
    have := setSingleChild_updates hb none
    simpa [hsc] using this

theorem removeSelected_spec (hex : index.Exclusive s parent) (candidates : TagMap Nat)
    (removed : List Bool) : Updates index s parent ((index.siblings s parent).filter fun child =>
        !selectedAt candidates removed (s.position child))
      (index.removeSelected s parent candidates removed).1
      (index.removeSelected s parent candidates removed).2 := by
  unfold removeSelected
  cases hb : index.branches[s.position parent]? with
  | some l =>
    have hl : index.siblings s parent = l := by simp [siblings, hb]
    rw [hl]
    exact retain_updates (hex (by simp [hb])) _
  | none =>
    have hl : index.siblings s parent = (s.singleChild parent).toList := by simp [siblings, hb]
    rw [hl]
    have hkeep : Updates index s parent (s.singleChild parent).toList index s :=
      ⟨rfl, fun _ _ => rfl, fun _ _ => rfl, hl, hex, by simp [hb]⟩
    cases hsc : s.singleChild parent with
    | none => simpa [hsc] using hkeep
    | some child =>
      by_cases hsel : selectedAt candidates removed (s.position child) = true
      · simpa [hsel] using setSingleChild_updates hb none
      · simpa [hsel, hsc] using hkeep

end ChildIndex

end Crdt.Rga
