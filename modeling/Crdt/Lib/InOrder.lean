import Mathlib

/-! In-order traversal of binary trees, and trees given by their right spine. -/
namespace BinaryTree

open List

variable {α : Type*} {s : List (BinaryTree α × α)} {x : α}

def inorder : BinaryTree α → List α
  | .nil => []
  | .node x l r => l.inorder ++ x :: r.inorder

/-- The value at the root. -/
def top : BinaryTree α → Option α
  | .nil => none
  | .node x _ _ => some x

/-- Root first, then right, then left: the order in which an explicit stack that
pushes left before right leaves the tree. -/
def rightFirst : BinaryTree α → List α
  | .nil => []
  | .node x l r => x :: (r.rightFirst ++ l.rightFirst)

@[simp] theorem inorder_nil : (nil : BinaryTree α).inorder = [] := rfl

@[simp] theorem inorder_node (x : α) (l r : BinaryTree α) :
    (node x l r).inorder = l.inorder ++ x :: r.inorder := rfl

@[simp] theorem top_nil : (nil : BinaryTree α).top = none := rfl

@[simp] theorem top_node (x : α) (l r : BinaryTree α) : (node x l r).top = some x := rfl

theorem mem_inorder_of_top {t : BinaryTree α} (h : t.top = some x) : x ∈ t.inorder := by
  cases t with
  | nil => simp at h
  | node y l r => simp_all

theorem nodup_node {l r : List α} (h : (l ++ x :: r).Nodup) :
    l.Nodup ∧ r.Nodup ∧ x ∉ l ∧ x ∉ r ∧ ∀ y ∈ l, y ∉ r := by
  obtain ⟨hl, hxr, hd⟩ := nodup_append.mp h
  obtain ⟨hx, hr⟩ := nodup_cons.mp hxr
  exact ⟨hl, hr, fun hm => hd x hm x (mem_cons_self ..) rfl, hx,
    fun y hy hy' => hd y hy y (mem_cons_of_mem x hy') rfl⟩

theorem nodup_node_of {l r l' r' : List α} (h : (l ++ x :: r).Nodup) (hl : l'.Nodup)
    (hr : r'.Nodup) (hsubl : l' ⊆ l) (hsubr : r' ⊆ r) : (l' ++ x :: r').Nodup := by
  obtain ⟨_, _, hxl, hxr, hlr⟩ := nodup_node h
  rw [nodup_middle, nodup_cons, nodup_append, mem_append, not_or]
  exact ⟨⟨fun hx => hxl (hsubl hx), fun hx => hxr (hsubr hx)⟩, hl, hr,
    fun y hy z hz he => hlr y (hsubl hy) (hsubr (he ▸ hz))⟩

theorem length_inorder_node (x : α) (l r : BinaryTree α) :
    (node x l r).inorder.length = l.inorder.length + r.inorder.length + 1 := by
  rw [inorder_node, length_append, length_cons, Nat.add_assoc]

/-- What a right spine traverses before what hangs at its end. The spine is given
innermost first, each value with its left subtree. -/
def spineOrder : List (BinaryTree α × α) → List α
  | [] => []
  | (l, x) :: rest => spineOrder rest ++ (l.inorder ++ [x])

theorem spineOrder_cons (l : BinaryTree α) (x : α) (s : List (BinaryTree α × α)) (t : BinaryTree α) :
    spineOrder ((l, x) :: s) ++ t.inorder = spineOrder s ++ (node x l t).inorder := by
  simp [spineOrder]

/-- The tree of a right spine, with `t` hung at its end. -/
def plug (t : BinaryTree α) : List (BinaryTree α × α) → BinaryTree α
  | [] => t
  | (l, x) :: rest => plug (.node x l t) rest

/-- The value at the end of a spine. -/
def spineEnd (s : List (BinaryTree α × α)) : Option α := s.head?.map Prod.snd

@[simp] theorem spineEnd_cons (l : BinaryTree α) (x : α) (s : List (BinaryTree α × α)) :
    spineEnd ((l, x) :: s) = some x := rfl

@[simp] theorem inorder_plug (t : BinaryTree α) (s : List (BinaryTree α × α)) :
    (plug t s).inorder = spineOrder s ++ t.inorder := by
  induction s generalizing t with
  | nil => rfl
  | cons p s ih => simp [plug, spineOrder, ih]

theorem top_plug (t : BinaryTree α) (s : List (BinaryTree α × α)) :
    (plug t s).top = (s.getLast?.map Prod.snd).or t.top := by
  induction s generalizing t with
  | nil => simp [plug]
  | cons p s ih =>
    rw [plug, ih, getLast?_cons]
    cases s.getLast? <;> simp

theorem mem_spineOrder_of_mem {p : BinaryTree α × α} (h : p ∈ s) :
    p.2 ∈ spineOrder s ∧ p.1.inorder ⊆ spineOrder s := by
  induction s with
  | nil => simp at h
  | cons q s ih =>
    rcases mem_cons.mp h with rfl | h
    · exact ⟨by simp [spineOrder], fun x hx => by simp [spineOrder, hx]⟩
    · obtain ⟨h₁, h₂⟩ := ih h
      exact ⟨by simp [spineOrder, h₁], fun x hx => by simp [spineOrder, h₂ hx]⟩

theorem mem_of_spineEnd (h : spineEnd s = some x) : x ∈ spineOrder s := by
  cases s with
  | nil => simp [spineEnd] at h
  | cons p s => cases h; simp [spineOrder]

theorem length_le_spineOrder (s : List (BinaryTree α × α)) : s.length ≤ (spineOrder s).length := by
  induction s with
  | nil => simp
  | cons p s ih => simp [spineOrder]; omega

end BinaryTree
