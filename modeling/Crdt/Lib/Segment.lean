import Mathlib

/-! Doubly linked lists, as the lists their pointers spell.

`Seg prev next p l n` says that the elements of `l` are linked to each other in
this order, the first back to `p` and the last on to `n`. -/
namespace Segment

variable {α : Type*}

def Seg (prev next : α → Option α) : Option α → List α → Option α → Prop
  | _, [], _ => True
  | p, x :: l, n => prev x = p ∧ next x = l.head?.or n ∧ Seg prev next (some x) l n

variable {prev next prev' next' : α → Option α} {p n : Option α} {l l' before after : List α}
  {a : α}

theorem Seg.congr (h : Seg prev next p l n)
    (hc : ∀ x ∈ l, prev' x = prev x ∧ next' x = next x) : Seg prev' next' p l n := by
  induction l generalizing p with
  | nil => trivial
  | cons x l ih =>
    obtain ⟨hp, hn, hl⟩ := h
    obtain ⟨hp', hn'⟩ := hc x (by simp)
    exact ⟨hp'.trans hp, hn'.trans hn, ih hl fun y hy => hc y (by simp [hy])⟩

theorem seg_append : Seg prev next p (l ++ l') n ↔
    Seg prev next p l (l'.head?.or n) ∧ Seg prev next (l.getLast?.or p) l' n := by
  induction l generalizing p with
  | nil => simp [Seg]
  | cons x l ih =>
    have hlast : ((x :: l).getLast?).or p = l.getLast?.or (some x) := by
      rw [List.getLast?_cons]
      cases l.getLast? <;> rfl
    have hhead : (l ++ l').head?.or n = l.head?.or (l'.head?.or n) := by
      cases l <;> simp
    simp only [List.cons_append, Seg, ih, hlast, hhead]
    tauto

/-- Only the pointers that leave the segment on the left change. -/
theorem Seg.setPrev (h : Seg prev next p (a :: l) n) (q : Option α) (ha : prev' a = q)
    (ha' : next' a = next a) (hc : ∀ x ∈ l, prev' x = prev x ∧ next' x = next x) :
    Seg prev' next' q (a :: l) n :=
  ⟨ha, ha'.trans h.2.1, h.2.2.congr hc⟩

theorem Seg.setNext (h : Seg prev next p (l ++ [a]) n) (m : Option α) (ha : next' a = m)
    (ha' : prev' a = prev a) (hc : ∀ x ∈ l, prev' x = prev x ∧ next' x = next x) :
    Seg prev' next' p (l ++ [a]) m := by
  rw [seg_append] at h ⊢
  obtain ⟨hl, hp, _, _⟩ := h
  exact ⟨hl.congr hc, ha'.trans hp, by simpa using ha, trivial⟩

theorem Seg.at (h : Seg prev next p (before ++ a :: after) n) :
    prev a = before.getLast?.or p ∧ next a = after.head?.or n := by
  rw [seg_append] at h
  exact ⟨h.2.1, h.2.2.1⟩

end Segment
