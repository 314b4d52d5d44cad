import Crdt.Lib.Forest
import Crdt.Lib.Rooted
import Crdt.Tag

/-! Nodes and the forest they form.

A replica keeps nodes by position, each with its parent and a payload. `kidsOf` are
the children of a position, greatest first, and `marksOf` the enter and exit marks of
the depth-first traversal from the root: the order the sequence index has to hold.
`Forested` nodes all have a parent chain to the root; adding a node below the root or
a known node splices its two marks behind one mark (`marksOf_insert`). -/
namespace Crdt

open MapLoop List
namespace Rga

structure Node (V : Type) where
  parent : Position
  value : V
deriving DecidableEq, Repr

/-- The node with another payload. -/
def Node.map {V W : Type} (f : V → W) (item : Node V) : Node W := ⟨item.parent, f item.value⟩

open Forest

variable {V : Type}

def parentOf (nodes : TagMap (Node V)) (id : Position) : Option Position := nodes[id]?.map Node.parent

def kidsOf (nodes : TagMap (Node V)) (p : Position) : List Position :=
  (nodes.keys.filter fun id => parentOf nodes id = some p).reverse

/-- The traversal from the root. No path in it is longer than there are nodes. -/
def marksOf (nodes : TagMap (Node V)) : List (Mark Position) :=
  walk (kidsOf nodes) (nodes.size + 1) .zero

variable {nodes : TagMap (Node V)} {id p : Position} {item : Node V} {before after : List Position}

theorem parentOf_eq_some : parentOf nodes id = some p ↔ ∃ item, nodes[id]? = some item ∧ item.parent = p :=
  Option.map_eq_some_iff

theorem mem_of_parentOf (h : parentOf nodes id = some p) : id ∈ nodes := by
  obtain ⟨item, hitem, _⟩ := parentOf_eq_some.mp h
  exact mem_iff.mpr ⟨item, hitem⟩

theorem parentOf_insert (nodes : TagMap (Node V)) (id : Position) (item : Node V) (x : Position) :
    parentOf (nodes.insert id item) x = if id = x then some item.parent else parentOf nodes x := by
  unfold parentOf
  rw [get?_insert]
  split_ifs <;> rfl

theorem parentOf_erase (nodes : TagMap (Node V)) (id x : Position) :
    parentOf (nodes.erase id) x = if id = x then none else parentOf nodes x := by
  unfold parentOf
  rw [getElem?_erase]
  split_ifs <;> rfl

@[simp] theorem mem_kidsOf : id ∈ kidsOf nodes p ↔ parentOf nodes id = some p := by
  simp only [kidsOf, mem_reverse, List.mem_filter, Std.ExtTreeMap.mem_keys, decide_eq_true_eq]
  exact ⟨fun h => h.2, fun h => ⟨mem_of_parentOf h, h⟩⟩

theorem pairwise_kidsOf (nodes : TagMap (Node V)) (p : Position) : (kidsOf nodes p).Pairwise (· > ·) := by
  rw [kidsOf, pairwise_reverse]
  refine List.Pairwise.filter _ ?_
  exact nodes.ordered_keys.imp fun h => (Tag.compare_eq_lt_iff _ _).mp h

theorem nodup_kidsOf (nodes : TagMap (Node V)) (p : Position) : (kidsOf nodes p).Nodup :=
  (pairwise_kidsOf nodes p).imp fun h => ne_of_gt h

theorem eq_kidsOf {l : List Position} (hsorted : l.Pairwise (· > ·))
    (hmem : ∀ x, x ∈ l ↔ parentOf nodes x = some p) : l = kidsOf nodes p := by
  refine List.Perm.eq_of_pairwise (fun a b _ _ h h' => absurd h (lt_asymm h')) hsorted
    (pairwise_kidsOf nodes p) ?_
  refine (perm_ext_iff_of_nodup (hsorted.imp fun h => ne_of_gt h) (nodup_kidsOf nodes p)).mpr ?_
  simpa using hmem

theorem kidsOf_congr {V' : Type} {nodes' : TagMap (Node V')}
    (h : ∀ x, parentOf nodes' x = parentOf nodes x) : kidsOf nodes' = kidsOf nodes := by
  funext p
  refine eq_kidsOf (pairwise_kidsOf nodes' p) fun x => ?_
  rw [mem_kidsOf, h]

/-- Valid identifiers, each with a parent chain to the root. -/
structure Forested (nodes : TagMap (Node V)) : Prop where
  valid : ∀ id ∈ nodes, id.valid = true
  rooted : ∀ id ∈ nodes, Rooted (parentOf nodes) .zero id

namespace Forested

variable (h : Forested nodes)
include h

theorem zero_not_mem : Tag.zero ∉ nodes := fun hz => by
  simpa using h.valid _ hz

theorem parent_known (hp : parentOf nodes id = some p) : p = .zero ∨ p ∈ nodes := by
  rcases (h.rooted id (mem_of_parentOf hp)).parent_eq hp with hz | hr
  · exact .inl hz
  right
  cases hr with
  | top h => exact mem_of_parentOf h
  | step h _ => exact mem_of_parentOf h

theorem kidsOf_eq_nil (hid : id ∉ nodes) (hz : id ≠ .zero) : kidsOf nodes id = [] := by
  refine eq_nil_iff_forall_not_mem.mpr fun x hx => ?_
  rcases h.parent_known (mem_kidsOf.mp hx) with rfl | hm
  · exact hz rfl
  · exact hid hm

theorem kidsOf_insert_self (hid : id ∉ nodes) (hz : id ≠ .zero)
    (hne : item.parent ≠ id) : kidsOf (nodes.insert id item) id = [] := by
  refine eq_nil_iff_forall_not_mem.mpr fun x hx => ?_
  rw [mem_kidsOf, parentOf_insert] at hx
  split_ifs at hx with he
  · exact hne (Option.some.inj hx)
  · exact (h.parent_known hx).elim hz hid

theorem within : Within (kidsOf nodes) (nodes.size + 1) .zero := by
  rw [← Std.ExtTreeMap.length_keys]
  refine within_of_parent (fun id => (parentOf nodes id).getD .zero) ?_ ?_ nodes.keys ?_
  · intro a b hb
    rw [mem_kidsOf.mp hb]
    rfl
  · exact fun a hz => h.zero_not_mem (mem_of_parentOf (mem_kidsOf.mp hz))
  · exact fun a b hb => Std.ExtTreeMap.mem_keys.mpr (mem_of_parentOf (mem_kidsOf.mp hb))

theorem nodup_marksOf : (marksOf nodes).Nodup := nodup_walk (fun id => (parentOf nodes id).getD .zero)
    (fun a b hb => by rw [mem_kidsOf.mp hb]; rfl) (nodup_kidsOf nodes) h.within

theorem below (hid : id ∈ nodes) : Below (kidsOf nodes) .zero id := by
  induction h.rooted id hid with
  | top hx => exact .single (mem_kidsOf.mpr hx)
  | step hx hy ih =>
    refine .tail (ih ?_) (mem_kidsOf.mpr hx)
    cases hy with
    | top h => exact mem_of_parentOf h
    | step h _ => exact mem_of_parentOf h

theorem enter_mem_marksOf : .enter p ∈ marksOf nodes ↔ p = .zero ∨ p ∈ nodes := by
  constructor
  · intro hm
    rcases Relation.ReflTransGen.cases_tail (mem_walk hm) with he | ⟨q, _, hq⟩
    · exact .inl he
    · exact .inr (mem_of_parentOf (mem_kidsOf.mp hq))
  rintro (rfl | hm)
  · exact enter_mem_walk h.within .refl
  · exact enter_mem_walk h.within (h.below hm)

theorem insert (hv : id.valid = true) (hid : id ∉ nodes)
    (hp : item.parent = .zero ∨ item.parent ∈ nodes) : Forested (nodes.insert id item) := by
  have hsub : ∀ x y, parentOf nodes x = some y → parentOf (nodes.insert id item) x = some y := by
    intro x y hxy
    rw [parentOf_insert, if_neg]
    · exact hxy
    · rintro rfl
      exact hid (mem_of_parentOf hxy)
  have hself : parentOf (nodes.insert id item) id = some item.parent := by
    rw [parentOf_insert, if_pos rfl]
  refine ⟨fun x hx => ?_, fun x hx => ?_⟩
  all_goals
    rw [mem_insert] at hx
    rcases hx with rfl | hx
  · exact hv
  · exact h.valid x hx
  · rcases hp with hz | hp
    · exact .top (hz ▸ hself)
    · exact .step hself ((h.rooted _ hp).mono hsub)
  · exact (h.rooted x hx).mono hsub

theorem erase (hleaf : kidsOf nodes id = []) : Forested (nodes.erase id) := by
  have hkeep : ∀ x y, x ≠ id → parentOf nodes x = some y → parentOf (nodes.erase id) x = some y := by
    intro x y hx hxy
    rw [parentOf_erase, if_neg (Ne.symm hx), hxy]
  refine ⟨fun x hx => h.valid x (Std.ExtTreeMap.mem_of_mem_erase hx), fun x hx => ?_⟩
  have hne : x ≠ id := by
    rintro rfl
    simp at hx
  refine (h.rooted x (Std.ExtTreeMap.mem_of_mem_erase hx)).rec (motive := fun x _ => x ≠ id →
    Rooted (parentOf (nodes.erase id)) .zero x) ?_ ?_ hne
  · exact fun hx hne => .top (hkeep _ _ hne hx)
  intro x y hxy _ ih hne
  refine .step (hkeep _ _ hne hxy) (ih ?_)
  rintro rfl
  have := mem_kidsOf.mpr hxy
  rw [hleaf] at this
  simp at this

end Forested

/-- The child lists after a node is added: its own is empty and its parent's has it in
its place. -/
theorem kidsOf_insert (hid : id ∉ nodes) (hz : id ≠ .zero) (hne : item.parent ≠ id)
    (hk : kidsOf nodes item.parent = before ++ after)
    (hb : ∀ x ∈ before, id < x) (ha : ∀ x ∈ after, x < id) (p : Position) :
    kidsOf (nodes.insert id item) p =
      if p = item.parent then before ++ id :: after else kidsOf nodes p := by
  have hself : parentOf nodes id = none := by
    rw [parentOf, not_mem_iff.mp hid]
    rfl
  symm
  split_ifs with hp
  · subst hp
    refine eq_kidsOf ?_ fun x => ?_
    · have hs := pairwise_kidsOf nodes item.parent
      rw [hk, pairwise_append] at hs
      rw [pairwise_append, pairwise_cons]
      refine ⟨hs.1, ⟨ha, hs.2.1⟩, fun x hx y hy => ?_⟩
      rcases mem_cons.mp hy with rfl | hy
      · exact hb x hx
      · exact hs.2.2 x hx y hy
    have hx : x ∈ before ++ id :: after ↔ id = x ∨ x ∈ before ++ after := by
      simp only [mem_append, mem_cons]
      tauto
    rw [hx, ← hk, parentOf_insert]
    split_ifs with he
    · simp [he]
    · simp [he]
  refine eq_kidsOf (pairwise_kidsOf nodes p) fun x => ?_
  rw [mem_kidsOf, parentOf_insert]
  split_ifs with he
  · subst he
    simp [hself, Ne.symm hp]
  · rfl

theorem marksOf_insert (h : Forested nodes) (hid : id ∉ nodes) (hv : id.valid = true)
    (hp : item.parent = .zero ∨ item.parent ∈ nodes) (hk : kidsOf nodes item.parent = before ++ after)
    (hb : ∀ x ∈ before, id < x) (ha : ∀ x ∈ after, x < id) : marksOf (nodes.insert id item) =
      splice (anchor item.parent before) [.enter id, .exit id] (marksOf nodes) := by
  have hz := Tag.ne_zero_of_valid hv
  have hne : item.parent ≠ id := by
    rintro he
    rcases hp with hp | hp
    · exact hz (he ▸ hp)
    · exact hid (he ▸ hp)
  have hkids := kidsOf_insert hid hz hne hk hb ha
  rw [marksOf, Std.ExtTreeMap.size_insert, if_neg (by simpa using hid)]
  refine walk_insert ?_ (nodup_kidsOf nodes _) hk ?_ ?_ ?_ h.within ?_
  · intro b c hc hc'
    rw [mem_kidsOf] at hc hc'
    rw [hc] at hc'
    exact Option.some.inj hc'
  · rw [hkids, if_pos rfl]
  · exact fun b hb => by rw [hkids, if_neg hb]
  · rw [hkids, if_neg hne.symm, h.kidsOf_eq_nil hid hz]
  intro hm
  have : Tag.zero ∈ kidsOf nodes item.parent := by rw [hk]; simp [hm]
  exact h.zero_not_mem (mem_of_parentOf (mem_kidsOf.mp this))

end Rga
end Crdt
