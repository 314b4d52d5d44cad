import Crdt.Rga.Replica

/-! One node enters the index.

`Indexed nodes tombstones s ch` says what the sequence index and the child index are
for: they hold the depth-first traversal of the nodes' forest and its child lists,
with exactly the nodes that are not tombstoned visible. `integrateNode_spec` keeps
that for a node whose parent is the root or known. -/
namespace Crdt.Rga

open Sequence Forest List

variable {V : Type}

/-- Visible once its node is there: not the root and not tombstoned. -/
def shown (tombstones : TagSet) (p : Position) : Bool := p ≠ .zero && !tombstones.contains p

@[simp] theorem shown_zero (tombstones : TagSet) : shown tombstones .zero = false := by simp [shown]

structure Indexed (nodes : TagMap (Node V)) (tombstones : TagSet) (s : SequenceIndex)
    (ch : ChildIndex) : Prop where
  forested : Forested nodes
  holds : ∃ l, s.Holds l (marksOf nodes) (shown tombstones)
  kids : ch.Rep s (kidsOf nodes)

namespace ChildIndex

variable {index index' : ChildIndex} {s s' : SequenceIndex} {kids kids' : Position → List Position}
  {l : List MarkerRef} {marks : List (Mark Position)} {vis : Position → Bool} {p id : Position}
  {r parent : Nat}

theorem Rep.newSequencePair (h : index.Rep s kids) (hs : s.Holds l marks vis) (id : Position)
    (v : Bool) : index.Rep (s.newSequencePair id v).1 kids := by
  have hlt : ∀ (p : Position) r, s.pairs[p]? = some r → r < s.allocated := fun p r hr =>
    hs.rep.allocated _ (hs.of_pair hr).2.1
  have hpos : ∀ (p : Position) r, s.pairs[p]? = some r →
      (s.newSequencePair id v).1.position r = s.position r := fun p r hr => by
    simp [SequenceIndex.newSequencePair, (hlt p r hr).ne]
  have hsib : ∀ (p : Position) r, s.pairs[p]? = some r →
      index.siblings (s.newSequencePair id v).1 r = index.siblings s r := fun p r hr => by
    unfold ChildIndex.siblings
    simp [SequenceIndex.newSequencePair, (hlt p r hr).ne]
  refine ⟨fun p r hr => ?_, fun p r hr q hq => ?_, fun p r hr => ?_, h.known, h.several⟩
  · rw [hsib p r hr, ← h.siblings p r hr]
    refine map_congr_left fun q hq => ?_
    exact hpos _ q (h.registered p r hr q hq)
  · rw [hsib p r hr] at hq
    have hq' := h.registered p r hr q hq
    rw [hpos _ q hq']
    exact hq'
  have := h.exclusive p r hr
  unfold Exclusive at this ⊢
  simpa [SequenceIndex.newSequencePair, (hlt p r hr).ne] using this

section
variable {l : List Nat} (h : index.Updates s parent l index' s')
include h

section
variable {q : Nat} (hne : q ≠ parent) (hpos : s.position q ≠ s.position parent)
include hne hpos

theorem Updates.siblings_of_ne : index'.siblings s' q = index.siblings s q := by
  unfold ChildIndex.siblings
  rw [h.rest]
  simp only [h.branches _ hpos, h.singleChild q hne]

theorem Updates.exclusive_of_ne (hex : index.Exclusive s q) : index'.Exclusive s' q := by
  unfold Exclusive at hex ⊢
  rw [h.rest]
  simpa only [h.branches _ hpos, h.singleChild q hne] using hex

end

theorem Updates.position : s'.position = s.position := by rw [h.rest]

theorem Updates.pairs : s'.pairs = s.pairs := by rw [h.rest]

theorem Updates.several_of (hs : ∀ p : Position, index.branches[p]? ≠ some []) (p : Position) :
    index'.branches[p]? ≠ some [] := by
  by_cases hp : p = s.position parent
  · rw [hp]
    exact h.several
  · rw [h.branches p hp]
    exact hs p

end

theorem Rep.branches_eq_none (h : index.Rep s kids) (hid : s.pairs[id]? = none) :
    index.branches[id]? = none := by
  cases hb : index.branches[id]? with
  | none => rfl
  | some l =>
    have := h.known id (by simp [hb])
    simp [hid] at this

theorem Rep.kept (h : index.Rep s kids) (hk : s.Kept s') (hp : s'.pairs = s.pairs) : index.Rep s' kids := by
  obtain ⟨_, _, _, _, _, _⟩ := s
  obtain ⟨_, _, _, _, _, _⟩ := s'
  cases hk.position
  cases hk.singleChild
  cases hp
  exact ⟨h.siblings, h.registered, h.exclusive, h.known, h.several⟩

theorem Updates.withPairs {l : List Nat} (h : index.Updates s parent l index' s') (registered : TagMap Nat) :
    index.Updates {s with pairs := registered} parent l index' {s' with pairs := registered} := by
  refine ⟨?_, h.singleChild, h.branches, h.siblings, h.exclusive, h.several⟩
  conv_lhs => rw [h.rest]

theorem Rep.update (h : index.Rep s kids) (hpos : ∀ (q : Position) x, s.pairs[q]? = some x → s.position x = q)
    (hparent : s.pairs[p]? = some parent) {l : List Nat} (hup : index.Updates s parent l index' s')
    (hl : ∀ x ∈ l, s.pairs[s.position x]? = some x) :
    index'.Rep s' fun q => if q = p then l.map s.position else kids q := by
  have hpp := hpos p parent hparent
  have hcases : ∀ (q : Position) (x : Nat), s'.pairs[q]? = some x → q = p ∧ x = parent ∨
      s.pairs[q]? = some x ∧ q ≠ p ∧ x ≠ parent ∧ s.position x ≠ s.position parent := by
    intro q x hx
    rw [hup.pairs] at hx
    have hxq := hpos q x hx
    by_cases hq : q = p
    · rw [hq, hparent] at hx
      exact .inl ⟨hq, (Option.some.inj hx).symm⟩
    refine .inr ⟨hx, hq, ?_, by rw [hxq, hpp]; exact hq⟩
    rintro rfl
    exact hq (hxq.symm.trans hpp)
  refine ⟨fun q x hx => ?_, fun q x hx y hy => ?_, fun q x hx => ?_, fun q hq => ?_,
    hup.several_of h.several⟩
  · rw [hup.position]
    rcases hcases q x hx with ⟨rfl, rfl⟩ | ⟨hx, hq, hne, hnp⟩
    · rw [if_pos rfl, hup.siblings]
    · rw [if_neg hq, hup.siblings_of_ne hne hnp, h.siblings q x hx]
  · rw [hup.position, hup.pairs]
    rcases hcases q x hx with ⟨rfl, rfl⟩ | ⟨hx, _, hne, hnp⟩
    · exact hl y (hup.siblings ▸ hy)
    · rw [hup.siblings_of_ne hne hnp] at hy
      exact h.registered q x hx y hy
  · rcases hcases q x hx with ⟨rfl, rfl⟩ | ⟨hx, _, hne, hnp⟩
    · exact hup.exclusive
    · exact hup.exclusive_of_ne hne hnp (h.exclusive q x hx)
  rw [hup.pairs]
  by_cases hq' : q = p
  · rw [hq', hparent]
    rfl
  · rw [hup.branches q (by rw [hpp]; exact hq')] at hq
    exact h.known q hq

section
variable (hid : s.pairs[id]? = none) (hr : s.position r = id) (hslot : s.singleChild r = none) (hkids : kids id = [])
include hid

theorem getElem?_insert_new (q : Position) (x : Nat) :
    (s.pairs.insert id r)[q]? = some x ↔ id = q ∧ r = x ∨ s.pairs[q]? = some x := by
  rw [MapLoop.get?_insert]
  split_ifs with he
  · subst he
    simp [hid]
  · simp [he]

include hr hslot hkids

theorem Rep.register (h : index.Rep s kids) : index.Rep {s with pairs := s.pairs.insert id r} kids := by
  have hnil : index.siblings s r = [] := by simp [ChildIndex.siblings, hr, h.branches_eq_none hid, hslot]
  refine ⟨fun q x hx => ?_, fun q x hx y hy => ?_, fun q x hx => ?_, fun q hq => ?_, h.several⟩
  · rcases (getElem?_insert_new hid q x).mp hx with ⟨rfl, rfl⟩ | hx
    · rw [hkids]
      exact map_eq_nil_iff.mpr hnil
    · exact h.siblings q x hx
  · rcases (getElem?_insert_new hid q x).mp hx with ⟨rfl, rfl⟩ | hx
    · have hy : y ∈ index.siblings s r := hy
      simp [hnil] at hy
    · exact (getElem?_insert_new hid _ y).mpr (.inr (h.registered q x hx y hy))
  · rcases (getElem?_insert_new hid q x).mp hx with ⟨rfl, rfl⟩ | hx
    · exact fun _ => hslot
    · exact h.exclusive q x hx
  · obtain ⟨x, hx⟩ := Option.isSome_iff_exists.mp (h.known q hq)
    exact Option.isSome_iff_exists.mpr ⟨x, (getElem?_insert_new hid q x).mpr (.inr hx)⟩

theorem Rep.insert (h : index.Rep s kids) (hparent : s.pairs[p]? = some parent)
    (hpos : ∀ (q : Position) x, s.pairs[q]? = some x → s.position x = q) {before after : List Nat}
    (hsplit : index.siblings s parent = before ++ after) {s₂ : SequenceIndex}
    (hup : index.Updates s parent (before ++ r :: after) index' s₂)
    (hk : ∀ q, kids' q = if q = p then before.map s.position ++ id :: after.map s.position else kids q)
    (hkept : s₂.Kept s') (hpairs : s'.pairs = s.pairs.insert id r) : index'.Rep s' kids' := by
  have hupd := (h.register hid hr hslot hkids).update (fun q x hx => ?_)
    ((getElem?_insert_new hid p parent).mpr (.inr hparent)) (hup.withPairs _) fun x hx => ?_
  · have hkids' : kids' = fun q => if q = p then (before ++ r :: after).map s.position else kids q := by
      funext q
      rw [hk, map_append, map_cons, hr]
    rw [hkids']
    exact hupd.kept ⟨hkept.position, hkept.singleChild, hkept.allocated⟩ hpairs
  · rcases (getElem?_insert_new hid q x).mp hx with ⟨rfl, rfl⟩ | hx
    · exact hr
    · exact hpos q x hx
  have hx : r = x ∨ x ∈ index.siblings s parent := by
    rw [hsplit]
    simp only [mem_append, mem_cons] at hx ⊢
    tauto
  refine (getElem?_insert_new hid _ x).mpr (hx.imp (fun he => ⟨?_, he⟩) (h.registered p parent hparent x))
  rw [← he]
  exact hr.symm

end

end ChildIndex

/-! ### The node goes in -/

variable {nodes : TagMap (Node V)} {id : Position} {item : Node V} {s : SequenceIndex}

theorem label_anchorAfter {parent : Nat} {p : Position} (before : List Nat) (hp : s.position parent = p) :
    s.label (anchorAfter parent before.getLast?) = anchor p (before.map s.position) := by
  unfold anchor
  rw [getLast?_map]
  cases before.getLast? with
  | none => simp [SequenceIndex.label, anchorAfter, hp]
  | some q => rfl

/-- A new pair takes its place among the children of its parent. What is left is to
register it and to splice its two marks behind the anchor. -/
theorem place_spec {ch : ChildIndex} {l : List MarkerRef}
    {vis : Position → Bool} (hf : Forested nodes) (hl : s.Holds l (marksOf nodes) vis)
    (hrep : ch.Rep s (kidsOf nodes)) (hid : id ∉ nodes) (hv : id.valid = true)
    (hp : item.parent = .zero ∨ item.parent ∈ nodes) {r : Nat} (hr : s.position r = id)
    (hslot : s.singleChild r = none) : ∃ parent ch' slots previous, s.pair item.parent = some parent ∧
      ch.insert s parent r = (ch', {s with singleChild := slots}, previous) ∧
      anchorAfter parent previous ∈ l ∧
      splice (s.label (anchorAfter parent previous)) [.enter id, .exit id] (marksOf nodes) =
        marksOf (nodes.insert id item) ∧ (∀ x, x ≠ parent → slots x = s.singleChild x) ∧
      s.position parent = item.parent ∧ ch'.branches[id]? = none ∧
      ∀ s', {s with singleChild := slots}.Kept s' → s'.pairs = s.pairs.insert id r →
        ch'.Rep s' (kidsOf (nodes.insert id item)) := by
  have hz := Tag.ne_zero_of_valid hv
  have hne : item.parent ≠ id := by
    rintro he
    rcases hp with hp | hp
    · exact hz (he ▸ hp)
    · exact hid (he ▸ hp)
  obtain ⟨parent, hparent⟩ : ∃ x, s.pairs[item.parent]? = some x :=
    hl.exists_pair_iff.mpr (hf.enter_mem_marksOf.mpr hp)
  have hunreg : s.pairs[id]? = none := hl.pair_eq_none_iff.mpr fun hm =>
    (hf.enter_mem_marksOf.mp hm).elim hz hid
  have hpos : ∀ (q : Position) x, s.pairs[q]? = some x → s.position x = q := fun q x hx =>
    (hl.of_pair hx).1
  have hkids := hrep.siblings item.parent parent hparent
  obtain ⟨before, after, ch', s', hsplit, hbefore, hafter, hins, hup⟩ :=
    ch.insert_spec s parent r (by rw [hkids]; exact pairwise_kidsOf _ _) (by
        rw [hkids, hr, mem_kidsOf]
        exact fun hm => hid (mem_of_parentOf hm))
      (hrep.exclusive item.parent parent hparent)
  rw [hr] at hbefore hafter
  have hk : kidsOf nodes item.parent = before.map s.position ++ after.map s.position := by
    rw [← hkids, hsplit, map_append]
  have hb' : ∀ x ∈ before.map s.position, id < x := by
    simpa using hbefore
  have ha' : ∀ x ∈ after.map s.position, x < id := by
    simpa using hafter
  refine ⟨parent, ch', s'.singleChild, before.getLast?, hparent, ?_, ?_, ?_, hup.singleChild,
    hpos _ _ hparent, ?_, ?_⟩
  · rw [hins, ← hup.rest]
  · cases hlast : before.getLast? with
    | none => exact (hl.of_pair hparent).2.1
    | some q =>
      have hq : q ∈ ch.siblings s parent := by
        rw [hsplit]
        exact mem_append_left _ (mem_of_getLast? hlast)
      exact (hl.of_pair (hrep.registered _ _ hparent q hq)).2.2.1
  · rw [label_anchorAfter before (hpos _ _ hparent), marksOf_insert hf hid hv hp hk hb' ha']
  · rw [hup.branches id (by rw [hpos _ _ hparent]; exact hne.symm)]
    exact hrep.branches_eq_none hunreg
  intro s₃ hkept hpairs
  rw [← hup.rest] at hkept
  exact hrep.insert hunreg hr hslot (hf.kidsOf_eq_nil hid hz) hparent hpos hsplit hup
    (kidsOf_insert hid hz hne hk hb' ha') hkept hpairs

theorem integrateNode_spec (pkg : Package V) {r : Replica V} (item : Node V)
    (h : Indexed nodes r.tombstones r.sequence r.children) (hid : id ∉ nodes) (hv : id.valid = true)
    (hp : item.parent = .zero ∨ item.parent ∈ nodes) :
    ∃ s' ch', r.integrateNode pkg id item = some {r with sequence := s', children := ch'} ∧
      Indexed (nodes.insert id item) r.tombstones s' ch' := by
  obtain ⟨l, hl⟩ := h.holds
  have hz := Tag.ne_zero_of_valid hv
  have henter : .enter id ∉ marksOf nodes := fun hm =>
    (h.forested.enter_mem_marksOf.mp hm).elim hz hid
  -- allocate the pair
  set v := !r.tombstones.contains id with hvdef
  have hvis : shown r.tombstones id = v := by simp [shown, hz, hvdef]
  set s₁ := (r.sequence.newSequencePair id v).1 with hs₁
  have hl₁ : s₁.Holds l (marksOf nodes) (shown r.tombstones) := hl.newSequencePair id v
  have hfresh : s₁.Fresh r.sequence.allocated id v := SequenceIndex.newSequencePair_fresh _ id v
  have hrep₁ := h.kids.newSequencePair hl id v
  -- place it among its siblings, and splice it behind its anchor
  obtain ⟨parent, ch', slots, previous, hparent, hins, hal, hmarks, _, _, _, hkids⟩ :=
    place_spec h.forested hl₁ hrep₁ hid hv hp hfresh.position (by simp [hs₁, SequenceIndex.newSequencePair])
  have hl₂ := hl₁.withSingleChild slots
  have hfresh₂ := hfresh.withSingleChild slots
  rw [← hvis] at hfresh₂
  obtain ⟨s₃, l₃, hsp, hl₃, hkept, hpairs₃⟩ := pkg.splices hl₂ hal hfresh₂ henter
  refine ⟨s₃, ch', ?_, h.forested.insert hv hid hp, ⟨l₃, ?_⟩, hkids s₃ hkept hpairs₃⟩
  · have hpair : r.sequence.pair item.parent = some parent := hparent
    unfold Replica.integrateNode
    rw [hpair]
    change (do
      let sequence ← pkg.insertPairAfter (r.children.insert s₁ parent r.sequence.allocated).2.1
        (anchorAfter parent (r.children.insert s₁ parent r.sequence.allocated).2.2)
        r.sequence.allocated
      return {r with sequence, children := (r.children.insert s₁ parent r.sequence.allocated).1}) = _
    rw [hins]
    simp only [hsp]
    rfl
  · rw [← hmarks]
    exact hl₃

end Crdt.Rga
