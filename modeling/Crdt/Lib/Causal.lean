import Mathlib

/-! Causal histories.

Events with a relation `before`. A history is a set that has all that came before its events; its
maximal events are those that none of its events came after. An event of the union of two
histories is maximal there if it is maximal in the histories that have it
(`mem_maximal_union`), so the maximal events of a union can be told from those of the parts. -/
namespace Causal

variable {E : Type*} {before before' : E → E → Prop} {H K : Set E} {d e : E}

def Closed (before : E → E → Prop) (H : Set E) : Prop := ∀ e ∈ H, ∀ d, before d e → d ∈ H

def maximal (before : E → E → Prop) (H : Set E) : Set E := {d | d ∈ H ∧ ∀ e ∈ H, ¬ before d e}

theorem Closed.union (hH : Closed before H) (hK : Closed before K) : Closed before (H ∪ K) := by
  rintro e (he | he) d hd
  · exact .inl (hH e he d hd)
  · exact .inr (hK e he d hd)

/-- What one side has and the other has not can only be exceeded on its own side. -/
theorem mem_maximal_union_of_not_mem (hK : Closed before K) (hd : d ∉ K) :
    d ∈ maximal before (H ∪ K) ↔ d ∈ maximal before H := by
  constructor
  · rintro ⟨hm, hmax⟩
    exact ⟨hm.resolve_right hd, fun e he => hmax e (.inl he)⟩
  rintro ⟨hm, hmax⟩
  refine ⟨.inl hm, ?_⟩
  rintro e (he | he) hb
  · exact hmax e he hb
  · exact hd (hK e he d hb)

theorem mem_maximal_union_of_mem (hH : d ∈ H) (hK : d ∈ K) :
    d ∈ maximal before (H ∪ K) ↔ d ∈ maximal before H ∧ d ∈ maximal before K := by
  constructor
  · rintro ⟨-, hmax⟩
    exact ⟨⟨hH, fun e he => hmax e (.inl he)⟩, ⟨hK, fun e he => hmax e (.inr he)⟩⟩
  · rintro ⟨⟨-, h₁⟩, ⟨-, h₂⟩⟩
    exact ⟨.inl hH, fun e he => he.elim (h₁ e) (h₂ e)⟩

/-- An event that all of a history came before is the only maximal one after it. -/
theorem mem_maximal_insert (hH : Closed before H) (hnew : e ∉ H) (hall : ∀ d, before d e ↔ d ∈ H) :
    d ∈ maximal before (insert e H) ↔ d = e := by
  constructor
  · rintro ⟨rfl | hm, hmax⟩
    · rfl
    · exact absurd ((hall d).mpr hm) (hmax e (Set.mem_insert e H))
  rintro rfl
  refine ⟨Set.mem_insert d H, ?_⟩
  rintro e (rfl | he) hb
  · exact hnew ((hall e).mp hb)
  · exact hnew (hH e he d hb)

theorem Closed.insert (hH : Closed before H) (hall : ∀ d, before d e → d ∈ H) : Closed before (insert e H) := by
  rintro c (rfl | hc) d hd
  · exact .inr (hall d hd)
  · exact .inr (hH c hc d hd)

variable (h : ∀ e ∈ H, ∀ d, before' d e ↔ before d e)
include h

theorem Closed.congr (hH : Closed before H) :
    Closed before' H := fun e he d hd => hH e he d ((h e he d).mp hd)

theorem maximal_congr : maximal before' H = maximal before H := by
  ext d
  exact and_congr_right fun _ => forall₂_congr fun e he => not_congr (h e he d)

end Causal
