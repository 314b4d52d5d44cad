import Mathlib

/-! Depth-first traversal of a forest given by its child lists.

A forest is a function from a node to the ordered list of its children. `walk`
is the traversal that marks a node when it is entered and again when it is left,
and `preorder` the traversal that lists each node once; both descend at most `n`
levels, and `Within n a` says that `n` levels are enough below `a`. A root that
is nobody's child, in a forest of finitely many nodes with one parent each, is
always within reach (`within_of_parent`).

To add a leaf to a child list is to splice its two marks behind one mark of the
traversal (`walk_insert`). -/
namespace Forest

open List

variable {α : Type*}

/-- The two times a traversal passes a node. -/
inductive Mark (α : Type*)
  | enter (a : α)
  | exit (a : α)
deriving DecidableEq, Repr

def Mark.node : Mark α → α
  | .enter a => a
  | .exit a => a

/-- The node a mark enters. -/
def Mark.entered : Mark α → Option α
  | .enter a => some a
  | .exit _ => none

def walk (kids : α → List α) : Nat → α → List (Mark α)
  | 0, _ => []
  | n + 1, a => .enter a :: ((kids a).flatMap (walk kids n) ++ [.exit a])

def preorder (kids : α → List α) : Nat → α → List α
  | 0, _ => []
  | n + 1, a => a :: (kids a).flatMap (preorder kids n)

/-- Every descending path from `a` has fewer than `n` steps. -/
def Within (kids : α → List α) : Nat → α → Prop
  | 0, _ => False
  | n + 1, a => ∀ b ∈ kids a, Within kids n b

/-- `b` is `a` or a descendant of it. -/
def Below (kids : α → List α) : α → α → Prop :=
  Relation.ReflTransGen (fun a b => b ∈ kids a)

section Walk
variable {kids : α → List α} {kids' : α → List α}

section
variable {n : Nat} {a b : α}

theorem Within.succ (h : Within kids n a) : Within kids (n + 1) a := by
  induction n generalizing a with
  | zero => exact h.elim
  | succ n ih => exact fun b hb => ih (h b hb)

theorem Within.eq_succ (h : Within kids n a) : ∃ m, n = m + 1 := by
  cases n with
  | zero => exact h.elim
  | succ n => exact ⟨n, rfl⟩

theorem walk_succ (h : Within kids n a) : walk kids (n + 1) a = walk kids n a := by
  induction n generalizing a with
  | zero => exact h.elim
  | succ n ih =>
    have : (kids a).flatMap (walk kids (n + 1)) = (kids a).flatMap (walk kids n) :=
      flatMap_congr fun b hb => ih (h b hb)
    rw [walk, this, walk]

theorem mem_walk {m : Mark α} (h : m ∈ walk kids n a) : Below kids a m.node := by
  induction n generalizing a with
  | zero => simp [walk] at h
  | succ n ih =>
    simp only [walk, mem_cons, mem_append, mem_flatMap, not_mem_nil, or_false] at h
    rcases h with rfl | ⟨b, hb, hm⟩ | rfl
    · exact .refl
    · exact .head hb (ih hm)
    · exact .refl

theorem enter_mem_walk (h : Within kids n a) (hb : Below kids a b) : .enter b ∈ walk kids n a := by
  induction hb using Relation.ReflTransGen.head_induction_on generalizing n with
  | refl =>
    obtain ⟨n, rfl⟩ := h.eq_succ
    simp [walk]
  | head hac _ ih =>
    obtain ⟨n, rfl⟩ := h.eq_succ
    simp only [walk, mem_cons, mem_append, mem_flatMap]
    exact .inr (.inl ⟨_, hac, ih (h _ hac)⟩)

/-- Within reach there is no cycle: a node is not below its own child. -/
theorem Within.not_below (h : Within kids n a) (hb : b ∈ kids a) : ¬ Below kids b a := by
  intro hba
  induction n generalizing a b with
  | zero => exact h.elim
  | succ n ih =>
    -- the cycle seen from the child is one level shorter
    rcases Relation.ReflTransGen.cases_head hba with rfl | ⟨c, hc, hca⟩
    · exact ih (h _ hb) hb .refl
    · exact ih (h _ hb) hc (hca.tail hb)

end

/-- The traversal below `a` reads only the child lists below `a`. -/
theorem walk_congr {n : Nat} {a : α}
    (h : ∀ b, Below kids a b → kids' b = kids b) : walk kids' n a = walk kids n a := by
  induction n generalizing a with
  | zero => rfl
  | succ n ih =>
    have hkids : (kids a).flatMap (walk kids' n) = (kids a).flatMap (walk kids n) :=
      flatMap_congr fun b hb => ih fun c hc => h c (.head hb hc)
    rw [walk, walk, h a .refl, hkids]

theorem preorder_eq_walk (n : Nat) (a : α) : preorder kids n a = (walk kids n a).filterMap Mark.entered := by
  induction n generalizing a with
  | zero => rfl
  | succ n ih =>
    simp only [preorder, walk, Mark.entered, filterMap_cons, filterMap_append, filterMap_flatMap,
      filterMap_nil, append_nil]
    rw [flatMap_congr fun b _ => ih b]

end Walk

/-! ### One parent each -/

section Parent
variable {kids : α → List α} {parent : α → α} {a b c : α} {root : α}

/-- Paths that do not fit in `n` levels. -/
theorem exists_chain_of_not_within {n : Nat} (h : ¬ Within kids n a) :
    ∃ l : List α, l.length = n ∧ List.IsChain (fun a b => b ∈ kids a) (a :: l) := by
  induction n generalizing a with
  | zero => exact ⟨[], rfl, .singleton _⟩
  | succ n ih =>
    simp only [Within, not_forall] at h
    obtain ⟨b, hb, hn⟩ := h
    obtain ⟨l, hl, hc⟩ := ih hn
    exact ⟨b :: l, by simp [hl], .cons_cons hb hc⟩

theorem nodup_chain (hparent : ∀ a, ∀ b ∈ kids a, parent b = a)
    (hroot : ∀ a, root ∉ kids a) {l : List α} (h : List.IsChain (fun a b => b ∈ kids a) (root :: l)) :
    (root :: l).Nodup := by
  -- stepping up from two equal nodes keeps them equal until one is the root
  have key : ∀ i j, (hi : i < (root :: l).length) → (hj : j < (root :: l).length) →
      (root :: l)[i] = (root :: l)[j] → i = j := by
    intro i
    induction i with
    | zero =>
      intro j hi hj he
      cases j with
      | zero => rfl
      | succ j =>
        have hc := isChain_iff_getElem.mp h j (by omega)
        rw [← he] at hc
        exact absurd hc (hroot _)
    | succ i ih =>
      intro j hi hj he
      have hci := isChain_iff_getElem.mp h i (by omega)
      cases j with
      | zero =>
        rw [he] at hci
        exact absurd hci (hroot _)
      | succ j =>
        have hcj := isChain_iff_getElem.mp h j (by omega)
        have := ih j (by omega) (by omega) (by
          rw [← hparent _ _ hci, ← hparent _ _ hcj, he])
        omega
  rw [nodup_iff_injective_get]
  intro i j he
  exact Fin.ext (key i j i.2 j.2 he)

/-- A root is within reach in as many levels as there are nodes, and one. -/
theorem within_of_parent (parent : α → α) (hparent : ∀ a, ∀ b ∈ kids a, parent b = a)
    (hroot : ∀ a, root ∉ kids a) (all : List α) (hall : ∀ a, ∀ b ∈ kids a, b ∈ all) :
    Within kids (all.length + 1) root := by
  by_contra hn
  obtain ⟨l, hl, hc⟩ := exists_chain_of_not_within hn
  have hnodup := (nodup_cons.mp (nodup_chain hparent hroot hc)).2
  have hsub : l ⊆ all := by
    intro b hb
    obtain ⟨i, hi, rfl⟩ := getElem_of_mem hb
    exact hall _ _ (isChain_iff_getElem.mp hc i (by simpa using hi))
  have := hnodup.length_le_of_subset hsub
  omega

theorem Below.parent_eq (hparent : ∀ a, ∀ b ∈ kids a, parent b = a)
    (hab : Below kids a c) (hc : c ∈ kids b) (hne : a ≠ c) : Below kids a b := by
  rcases Relation.ReflTransGen.cases_tail hab with rfl | ⟨d, had, hd⟩
  · exact absurd rfl hne
  · rw [← hparent _ _ hc, hparent _ _ hd]
    exact had

theorem Below.total (hparent : ∀ a, ∀ b ∈ kids a, parent b = a)
    (ha : Below kids a c) (hb : Below kids b c) : Below kids a b ∨ Below kids b a := by
  induction ha with
  | refl => exact .inr hb
  | @tail c d hac hcd ih =>
    rcases Relation.ReflTransGen.cases_tail hb with rfl | ⟨e, hbe, hed⟩
    · exact .inl (hac.tail hcd)
    · have : e = c := by rw [← hparent _ _ hed, hparent _ _ hcd]
      exact ih (this ▸ hbe)

theorem nodup_walk (parent : α → α) (hparent : ∀ a, ∀ b ∈ kids a, parent b = a) (hnodup : ∀ a, (kids a).Nodup)
    {n : Nat} (h : Within kids n a) : (walk kids n a).Nodup := by
  induction n generalizing a with
  | zero => exact h.elim
  | succ n ih =>
    have hbelow : ∀ m ∈ (kids a).flatMap (walk kids n), m.node ≠ a := by
      intro m hm he
      obtain ⟨b, hb, hm⟩ := mem_flatMap.mp hm
      exact h.not_below hb (he ▸ mem_walk hm)
    have hflat : ((kids a).flatMap (walk kids n)).Nodup := by
      rw [nodup_flatMap]
      refine ⟨fun b hb => ih (h b hb), ?_⟩
      refine (hnodup a).pairwise_of_forall_ne fun b hb c hc hne m hm hm' => ?_
      -- a common descendant would put one child below the other
      rcases Below.total hparent (mem_walk hm) (mem_walk hm') with hbc | hbc
      · exact (h.succ).not_below hb (hbc.parent_eq hparent hc hne)
      · exact (h.succ).not_below hc (hbc.parent_eq hparent hb hne.symm)
    rw [walk, nodup_cons, nodup_append]
    refine ⟨?_, hflat, nodup_singleton _, ?_⟩
    · simp only [mem_append, mem_singleton, reduceCtorEq, or_false]
      exact fun hm => hbelow _ hm rfl
    rintro m hm _ hm' rfl
    rw [mem_singleton.mp hm'] at hm
    exact hbelow _ hm rfl

end Parent

/-! ### Adding a leaf -/

section Insert

/-- `ys` behind every occurrence of `x`. -/
def splice {β : Type*} [DecidableEq β] (x : β) (ys : List β) (l : List β) : List β :=
  l.flatMap fun m => if m = x then m :: ys else [m]

section Splice
variable {β : Type*} [DecidableEq β] {x : β} {ys : List β} {l : List β}

@[simp] theorem splice_nil : splice x ys [] = [] := rfl

@[simp] theorem splice_append (l l' : List β) :
    splice x ys (l ++ l') = splice x ys l ++ splice x ys l' := flatMap_append ..

theorem splice_cons_self (l : List β) : splice x ys (x :: l) = x :: (ys ++ splice x ys l) := by
  simp [splice]

theorem splice_cons_of_ne {m : β} (h : m ≠ x) (l : List β) : splice x ys (m :: l) = m :: splice x ys l := by
  simp [splice, h]

theorem splice_of_not_mem (h : x ∉ l) : splice x ys l = l := by
  induction l with
  | nil => rfl
  | cons m l ih =>
    simp only [mem_cons, not_or] at h
    rw [splice_cons_of_ne (Ne.symm h.1), ih h.2]

theorem splice_flatMap {γ : Type*} (f : γ → List β) (l : List γ) :
    splice x ys (l.flatMap f) = l.flatMap fun c => splice x ys (f c) := by
  simp only [splice, flatMap_assoc]

theorem splice_of_nodup {l r : List β} (h : (l ++ x :: r).Nodup) :
    splice x ys (l ++ x :: r) = l ++ x :: (ys ++ r) := by
  have hl : x ∉ l := fun hm =>
    (nodup_append.mp h).2.2 x hm x (mem_cons_self ..) rfl
  have hr : x ∉ r := (nodup_cons.mp (nodup_append.mp h).2.1).1
  rw [splice_append, splice_cons_self, splice_of_not_mem hl, splice_of_not_mem hr]

theorem splice_splice {a : β} (h : x ∉ l) (zs : List β) :
    splice x ys (splice a zs l) = splice a (splice x ys zs) l := by
  induction l with
  | nil => rfl
  | cons m l ih =>
    simp only [mem_cons, not_or] at h
    by_cases hm : m = a
    · subst hm
      rw [splice_cons_self, splice_cons_of_ne (Ne.symm h.1), splice_append, ih h.2, splice_cons_self]
    · rw [splice_cons_of_ne hm, splice_cons_of_ne (Ne.symm h.1), ih h.2, splice_cons_of_ne hm]

end Splice

/-- The mark a new child of `a` goes behind: its place in the child list is between
`before` and the rest. -/
def anchor (a : α) (before : List α) : Mark α :=
  match before.getLast? with
  | none => .enter a
  | some s => .exit s

variable {kids kids' : α → List α} {a x : α} {before after : List α} {n : Nat}

theorem walk_leaf (h : kids x = []) : walk kids (n + 1) x = [.enter x, .exit x] := by
  simp [walk, h]

variable [DecidableEq α] {b : α}

/-- A first child goes behind the entry of its parent. -/
theorem walk_insert_first (hkids : kids a = after) (ha : kids' a = x :: after)
    (hother : ∀ b, b ≠ a → kids' b = kids b) (hleaf : kids' x = []) (h : Within kids n b) :
    walk kids' (n + 1) b = splice (.enter a) [.enter x, .exit x] (walk kids n b) := by
  induction n generalizing b with
  | zero => exact h.elim
  | succ n ih =>
    have hchildren : (kids b).flatMap (walk kids' (n + 1)) =
        splice (.enter a) [.enter x, .exit x] ((kids b).flatMap (walk kids n)) := by
      rw [splice_flatMap]
      exact flatMap_congr fun c hc => ih (h c hc)
    by_cases hba : b = a
    · subst hba
      rw [hkids] at hchildren
      rw [walk, ha, walk, splice_cons_self, splice_append, flatMap_cons, walk_leaf hleaf,
        hchildren, hkids, splice_cons_of_ne (by simp)]
      simp
    rw [walk, hother b hba, walk, splice_cons_of_ne (by simpa using hba), splice_append,
      hchildren, splice_cons_of_ne (by simp)]
    simp

/-- A later child goes behind the exit of the sibling before it. -/
theorem walk_insert_later {s : α} (hparent : ∀ b, s ∈ kids b → b = a)
    (hkids : kids a = before ++ s :: after) (hs : s ∉ before ++ after)
    (ha : kids' a = before ++ s :: x :: after)
    (hother : ∀ b, b ≠ a → kids' b = kids b) (hleaf : kids' x = []) (h : Within kids n b) (hb : b ≠ s) :
    walk kids' (n + 1) b = splice (.exit s) [.enter x, .exit x] (walk kids n b) := by
  induction n generalizing b with
  | zero => exact h.elim
  | succ n ih =>
    have hchildren : ∀ l ⊆ kids b, s ∉ l → l.flatMap (walk kids' (n + 1)) =
        splice (.exit s) [.enter x, .exit x] (l.flatMap (walk kids n)) := by
      intro l hl hsl
      rw [splice_flatMap]
      exact flatMap_congr fun c hc => ih (h c (hl hc)) (fun he => hsl (he ▸ hc))
    by_cases hba : b = a
    · subst hba
      have hsb : s ∈ kids b := by rw [hkids]; simp
      -- below the sibling nothing changes, and its exit is its last mark
      have hsame : walk kids' (n + 1) s = walk kids n s := by
        rw [← walk_succ (h s hsb)]
        refine walk_congr fun c hc => hother c ?_
        rintro rfl
        exact h.not_below hsb hc
      have hsub : splice (.exit s) [.enter x, .exit x] (walk kids n s) =
          walk kids n s ++ [.enter x, .exit x] := by
        obtain ⟨n, rfl⟩ := (h s hsb).eq_succ
        have hmem : .exit s ∉ (kids s).flatMap (walk kids n) := by
          intro hm
          obtain ⟨c, hc, hm⟩ := mem_flatMap.mp hm
          exact (h s hsb).not_below hc (mem_walk hm)
        rw [walk, splice_cons_of_ne (by simp), splice_append, splice_of_not_mem hmem, splice_cons_self]
        simp
      simp only [mem_append, not_or] at hs
      have hbefore := hchildren before (by rw [hkids]; simp) hs.1
      have hafter := hchildren after (by rw [hkids]; intro c; simp +contextual) hs.2
      rw [walk, ha, walk, hkids, splice_cons_of_ne (by simp), splice_append,
        splice_cons_of_ne (by simpa using hb)]
      simp only [flatMap_append, flatMap_cons, splice_append, hbefore, hafter, hsame, hsub,
        walk_leaf hleaf, splice_nil, append_assoc, cons_append, nil_append]
    · have hsb : s ∉ kids b := fun hm => hba (hparent b hm)
      rw [walk, hother b hba, walk, splice_cons_of_ne (by simp), splice_append,
        hchildren _ (fun _ => id) hsb, splice_cons_of_ne (by simpa using hb)]
      simp

/-- Adding a leaf splices its two marks behind its anchor. -/
theorem walk_insert (hparent : ∀ b, ∀ c ∈ kids b, c ∈ kids a → b = a)
    (hnodup : (kids a).Nodup) (hkids : kids a = before ++ after)
    (ha : kids' a = before ++ x :: after) (hother : ∀ b, b ≠ a → kids' b = kids b)
    (hleaf : kids' x = []) (h : Within kids n b) (hb : b ∉ before) :
    walk kids' (n + 1) b = splice (anchor a before) [.enter x, .exit x] (walk kids n b) := by
  rcases eq_nil_or_concat before with rfl | ⟨front, s, rfl⟩
  · exact walk_insert_first hkids ha hother hleaf h
  simp only [concat_eq_append, append_assoc, singleton_append] at *
  have hsa : s ∈ kids a := by rw [hkids]; simp
  have hanchor : anchor a (front ++ [s]) = .exit s := by simp [anchor]
  rw [hanchor]
  refine walk_insert_later (fun b hs => hparent b s hs hsa) hkids ?_ ha hother hleaf h ?_
  · rw [hkids] at hnodup
    have := (nodup_middle.mp hnodup)
    exact (nodup_cons.mp this).1
  · rintro rfl
    exact hb (by simp)

end Insert

end Forest
