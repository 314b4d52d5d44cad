import Mathlib

/-! The rooted part of a partial parent map.

With parents that may be missing or form cycles, a node is rooted when its parent
chain arrives at the root. The rooted part is the least set that contains every node
whose parent is the root or in the set (`Rooted.least`), it grows with the map
(`Rooted.mono`), and a map splits into its rooted part and the rest in one way only
(`Rooted.iff_of_split`). A node is grounded when its chain ends, at the root or at a node
without a parent; a node on a cycle is not. -/

inductive Rooted {α : Type*} (parent : α → Option α) (root : α) : α → Prop
  | top {x : α} : parent x = some root → Rooted parent root x
  | step {x y : α} : parent x = some y → Rooted parent root y → Rooted parent root x

namespace Rooted

variable {α : Type*} {parent parent' : α → Option α} {root x : α}

theorem mono (h : Rooted parent root x) (hsub : ∀ x y, parent x = some y → parent' x = some y) :
    Rooted parent' root x := by
  induction h with
  | top hx => exact .top (hsub _ _ hx)
  | step hx _ ih => exact .step (hsub _ _ hx) ih

theorem least (h : Rooted parent root x) (inside : α → Prop)
    (hclosed : ∀ x y, parent x = some y → y = root ∨ inside y → inside x) : inside x := by
  induction h with
  | top hx => exact hclosed _ _ hx (.inl rfl)
  | step hx _ ih => exact hclosed _ _ hx (.inr ih)

theorem parent_eq {y : α} (h : Rooted parent root x) (hx : parent x = some y) :
    y = root ∨ Rooted parent root y := by
  cases h with
  | top h =>
    rw [hx] at h
    exact .inl (Option.some.inj h)
  | step h hy =>
    rw [hx] at h
    exact .inr (Option.some.inj h ▸ hy)

/-- Rooted inside, and nothing outside hangs on the root or the inside: then the inside is
the rooted part. -/
theorem iff_of_split (inside : α → Prop) (hin : ∀ x, inside x → Rooted parent root x)
    (hout : ∀ x y, parent x = some y → ¬ inside x → y ≠ root ∧ ¬ inside y) :
    Rooted parent root x ↔ inside x := by
  refine ⟨fun h => h.least inside fun x y hxy hy => ?_, hin x⟩
  by_contra hx
  obtain ⟨h₁, h₂⟩ := hout x y hxy hx
  exact hy.elim h₁ h₂

end Rooted

inductive Grounded {α : Type*} (parent : α → Option α) : α → Prop
  | out {x : α} : parent x = none → Grounded parent x
  | step {x y : α} : parent x = some y → Grounded parent y → Grounded parent x

namespace Grounded

variable {α : Type*} {parent parent' : α → Option α} {root x y : α}

theorem parent_iff (hx : parent x = some y) : Grounded parent x ↔ Grounded parent y := by
  refine ⟨fun h => ?_, .step hx⟩
  cases h with
  | out h => simp [hx] at h
  | step h hy =>
    rw [hx] at h
    exact Option.some.inj h ▸ hy

theorem mono (h : Grounded parent x) (hsub : ∀ x y, parent' x = some y → parent x = some y) :
    Grounded parent' x := by
  induction h with
  | out hx =>
    refine .out (Option.eq_none_iff_forall_ne_some.mpr fun y hy => ?_)
    simp [hsub _ y hy] at hx
  | @step x y hx _ ih =>
    cases hx' : parent' x with
    | none => exact .out hx'
    | some z =>
      rw [hsub x z hx'] at hx
      cases hx
      exact .step hx' ih

theorem of_rooted (h : Rooted parent root x) (hroot : parent root = none) : Grounded parent x := by
  induction h with
  | top hx => exact .step hx (.out hroot)
  | step hx _ ih => exact .step hx ih

theorem not_on_cycle (h : Grounded parent x) : ¬ Relation.TransGen (fun a b => parent a = some b) x x := by
  induction h with
  | out hx =>
    intro hc
    obtain ⟨z, hz, _⟩ := Relation.TransGen.head'_iff.mp hc
    simp [hx] at hz
  | step hx _ ih =>
    -- a cycle through the node passes its parent
    intro hc
    obtain ⟨z, hz, hback⟩ := Relation.TransGen.head'_iff.mp hc
    rw [hx] at hz
    cases hz
    exact ih (.tail' hback hx)

/-- Among finitely many nodes a chain that never comes round ends. -/
theorem of_acyclic (keys : List α) (hkeys : ∀ x y, parent x = some y → x ∈ keys)
    (h : ∀ x, ¬ Relation.TransGen (fun a b => parent a = some b) x x) (x : α) : Grounded parent x := by
  let above (a b : {x // x ∈ keys}) : Prop := Relation.TransGen (fun a b => parent a = some b) b.1 a.1
  have : Std.Irrefl above := ⟨fun a => h a.1⟩
  have hfinite : Finite {x // x ∈ keys} := List.finite_toSet keys
  have hwf : WellFounded above := Finite.wellFounded_of_trans_of_irrefl above
  have key : ∀ a : {x // x ∈ keys}, Grounded parent a.1 := fun a => by
    induction a using hwf.induction with
    | _ a ih =>
      cases ha : parent a.1 with
      | none => exact .out ha
      | some b =>
        by_cases hb : b ∈ keys
        · exact .step ha (ih ⟨b, hb⟩ (.single ha))
        · exact .step ha (.out (Option.eq_none_iff_forall_ne_some.mpr fun c hc => hb (hkeys b c hc)))
  by_cases hx : x ∈ keys
  · exact key ⟨x, hx⟩
  · exact .out (Option.eq_none_iff_forall_ne_some.mpr fun y hy => hx (hkeys x y hy))

end Grounded
