import Mathlib

/-! Loops over finite maps.

The maps are extensional tree maps over a lawful comparison. A loop that ranges over one map
and at each key only touches that key of another is described key by key
(`getElem?_foldl_touch`). -/
namespace MapLoop

open List

/-- A map keyed by byte strings. -/
abbrev ByteMap (V : Type*) := Std.ExtTreeMap (List UInt8) V compare

section Key

variable {K L : Type*} [LinearOrder L] {cmp : K → K → Ordering} {key : K → L}

theorem transCmp_of_key (h : ∀ a b, cmp a b = if key a < key b then .lt
    else if key b < key a then .gt else .eq) : Std.TransCmp cmp where
  eq_swap {a b} := by
    rw [h, h b a]
    rcases lt_trichotomy (key a) (key b) with hlt | heq | hgt
    · simp [hlt, hlt.not_gt]
    · simp [heq]
    · simp [hgt, hgt.not_gt]
  isLE_trans {a b c} hab hbc := by
    have le_of : ∀ {a b}, (cmp a b).isLE = true → key a ≤ key b := by
      intro a b hab
      rw [h] at hab
      rcases lt_trichotomy (key a) (key b) with hlt | heq | hgt
      · exact hlt.le
      · exact heq.le
      · simp [hgt, hgt.not_gt] at hab
    have hac : ¬ key c < key a := not_lt.mpr ((le_of hab).trans (le_of hbc))
    rw [h]
    split <;> rfl

theorem lawfulEqCmp_of_key (hinj : Function.Injective key) (h : ∀ a b, cmp a b =
    if key a < key b then .lt else if key b < key a then .gt else .eq) : Std.LawfulEqCmp cmp where
  compare_self {a} := by simp [h]
  eq_of_compare {a b} hab := by
    rw [h] at hab
    split_ifs at hab with hlt hgt
    exact hinj (le_antisymm (not_lt.mp hgt) (not_lt.mp hlt))

end Key

/-- A loop each of whose turns brings a property about or leaves it as it is. -/
theorem foldl_iff {α β : Type*} {f : β → α → β} {P : β → Prop} {Q : α → Prop} (h : ∀ b a, P (f b a) ↔ P b ∨ Q a)
    (l : List α) (b : β) : P (l.foldl f b) ↔ P b ∨ ∃ a ∈ l, Q a := by
  induction l generalizing b with
  | nil => simp
  | cons a l ih =>
    rw [foldl_cons, ih, h]
    simp [or_assoc]

variable {K V W : Type*} {cmp : K → K → Ordering} [Std.TransCmp cmp] {m : Std.ExtTreeMap K V cmp}

theorem mem_iff {a : K} : a ∈ m ↔ ∃ v, m[a]? = some v := by
  rw [Std.ExtTreeMap.mem_iff_isSome_getElem?, Option.isSome_iff_exists]

theorem not_mem_iff {a : K} : a ∉ m ↔ m[a]? = none := by
  rw [mem_iff]
  simp [Option.eq_none_iff_forall_ne_some]

variable [Std.LawfulEqCmp cmp]

section Lookup

variable [DecidableEq K]

theorem get?_insert (m : Std.ExtTreeMap K V cmp) (k a : K) (v : V) :
    (m.insert k v)[a]? = if k = a then some v else m[a]? := by
  rw [Std.ExtTreeMap.getElem?_insert]
  simp

theorem getElem?_erase (m : Std.ExtTreeMap K V cmp) (k a : K) :
    (m.erase k)[a]? = if k = a then none else m[a]? := by
  rw [Std.ExtTreeMap.getElem?_erase]
  simp

theorem insert_erase {k : K} {v : V} (h : m[k]? = some v) : (m.erase k).insert k v = m := by
  refine Std.ExtTreeMap.ext_getElem? fun a => ?_
  rw [get?_insert, getElem?_erase]
  split_ifs with ha
  · rw [← ha, h]
  · rfl

end Lookup

theorem ext_getD {m' : Std.ExtTreeMap K V cmp} {d : V} (h : ∀ (k : K) v, m[k]? = some v → v ≠ d)
    (h' : ∀ (k : K) v, m'[k]? = some v → v ≠ d) (heq : ∀ k : K, m[k]?.getD d = m'[k]?.getD d) : m = m' := by
  refine Std.ExtTreeMap.ext_getElem? fun k => ?_
  have hk := heq k
  cases hv : m[k]? with
  | none =>
    cases hv' : m'[k]? with
    | none => rfl
    | some w =>
      rw [hv, hv'] at hk
      exact absurd hk.symm (h' k w hv')
  | some v =>
    cases hv' : m'[k]? with
    | none =>
      rw [hv, hv'] at hk
      exact absurd hk (h k v hv)
    | some w =>
      rw [hv, hv'] at hk
      exact congrArg some hk

theorem mem_insert {k a : K} {v : V} : a ∈ m.insert k v ↔ k = a ∨ a ∈ m := by
  rw [Std.ExtTreeMap.mem_insert, Std.LawfulEqCmp.compare_eq_iff_eq]

theorem mem_toList {p : K × V} : p ∈ m.toList ↔ m[p.1]? = some p.2 := by
  exact Std.ExtTreeMap.mem_toList_iff_getElem?_eq_some

theorem all_toList {p : K × V → Bool} : m.toList.all p = true ↔ ∀ k v, m[k]? = some v → p (k, v) = true := by
  simp only [all_eq_true, Prod.forall, mem_toList]

theorem any_toList {p : K × V → Bool} : m.toList.any p = false ↔ ∀ k v, m[k]? = some v → p (k, v) = false := by
  simp only [any_eq_false, Prod.forall, mem_toList, Bool.not_eq_true]

omit [Std.TransCmp cmp] [Std.LawfulEqCmp cmp] in
theorem any_ne_eq_false [DecidableEq K] {o : Option K} {k : K} :
    o.any (· ≠ k) = false ↔ ∀ k', o = some k' → k' = k := by
  cases o <;> simp

theorem any_toList_ne [DecidableEq V] {m' : Std.ExtTreeMap K V cmp} :
    (m.toList.any fun p => (m'[p.1]?).any (· ≠ p.2)) = false ↔
      ∀ (k : K) v w, m'[k]? = some v → m[k]? = some w → v = w := by
  simp only [any_toList, any_ne_eq_false]
  exact forall_congr' fun k => ⟨fun h v w hv hw => h w hw v hv, fun h w hw v hv => h v w hv hw⟩

theorem nodup_keys_toList (m : Std.ExtTreeMap K V cmp) : m.toList.Pairwise (·.1 ≠ ·.1) :=
  m.distinct_keys_toList.imp fun h he => h (Std.LawfulEqCmp.compare_eq_iff_eq.mpr he)

section Touch

variable {f : Std.ExtTreeMap K W cmp → K × V → Std.ExtTreeMap K W cmp} {g : K → V → Option W → Option W}

omit [Std.LawfulEqCmp cmp] in
/-- A loop whose body at a key touches that key only. -/
theorem foldl_touch (hself : ∀ acc k v, (f acc (k, v))[k]? = g k v acc[k]?)
    (hother : ∀ acc k v a, a ≠ k → (f acc (k, v))[a]? = acc[a]?) (a : K) {l : List (K × V)}
    (hl : l.Pairwise (·.1 ≠ ·.1)) (acc : Std.ExtTreeMap K W cmp) :
    (∀ v, (a, v) ∈ l → (l.foldl f acc)[a]? = g a v acc[a]?) ∧
      ((∀ v, (a, v) ∉ l) → (l.foldl f acc)[a]? = acc[a]?) := by
  induction l generalizing acc with
  | nil => simp
  | cons p l ih =>
    obtain ⟨hp, hl⟩ := pairwise_cons.mp hl
    obtain ⟨hin, hout⟩ := ih hl (f acc p)
    constructor
    · intro v hv
      rcases mem_cons.mp hv with rfl | hv
      · rw [foldl_cons, hout fun w hw => hp (a, w) hw rfl, hself]
      · rw [foldl_cons, hin v hv, hother acc p.1 p.2 a (hp (a, v) hv).symm]
    intro hv
    have hne : a ≠ p.1 := fun he => hv p.2 (by simp [he])
    rw [foldl_cons, hout fun w hw => hv w (by simp [hw]), hother acc p.1 p.2 a hne]

theorem getElem?_foldl_touch (hself : ∀ acc k v, (f acc (k, v))[k]? = g k v acc[k]?)
    (hother : ∀ acc k v a, a ≠ k → (f acc (k, v))[a]? = acc[a]?)
    (m : Std.ExtTreeMap K V cmp) (acc : Std.ExtTreeMap K W cmp) (a : K) :
    (m.toList.foldl f acc)[a]? = m[a]?.elim acc[a]? fun v => g a v acc[a]? := by
  obtain ⟨hin, hout⟩ := foldl_touch hself hother a (nodup_keys_toList m) acc
  cases hv : m[a]? with
  | some v => exact hin v (mem_toList.mpr hv)
  | none =>
    refine hout fun v hm => ?_
    rw [mem_toList] at hm
    exact absurd (hv.symm.trans hm) (by simp)

end Touch

section Assign

variable [DecidableEq K] {a : K}

theorem getElem?_foldl_insert {l : List (K × V)} (hl : l.Pairwise (·.1 ≠ ·.1)) (m : Std.ExtTreeMap K V cmp) :
    (∀ v, (a, v) ∈ l → (l.foldl (fun m p => m.insert p.1 p.2) m)[a]? = some v) ∧
      ((∀ v, (a, v) ∉ l) → (l.foldl (fun m p => m.insert p.1 p.2) m)[a]? = m[a]?) :=
  foldl_touch (g := fun _ v _ => some v) (fun m k v => by simp)
    (fun m k v a hne => by rw [get?_insert, if_neg hne.symm]) a hl m

theorem getElem?_foldl_assign {α : Type*} {key : α → K} {value : α → V} {l : List α} {v : V}
    (hl : l.Pairwise (key · ≠ key ·)) :
    (l.foldl (fun m x => m.insert (key x) (value x)) (∅ : Std.ExtTreeMap K V cmp))[a]? = some v ↔
      ∃ x ∈ l, key x = a ∧ value x = v := by
  obtain ⟨hin, hout⟩ := getElem?_foldl_insert (a := a) (l := l.map fun x => (key x, value x))
    (pairwise_map.mpr hl) (∅ : Std.ExtTreeMap K V cmp)
  rw [foldl_map] at hin hout
  constructor
  · intro hv
    by_contra hno
    rw [hout fun w hw => hno ?_] at hv
    · simp at hv
    have heq := (hin w hw).symm.trans hv
    obtain ⟨x, hx, he⟩ := mem_map.mp hw
    cases he
    exact ⟨x, hx, rfl, Option.some.inj heq⟩
  · rintro ⟨x, hx, rfl, rfl⟩
    exact hin _ (mem_map.mpr ⟨x, hx, rfl⟩)

theorem getElem?_foldl_toList (m' : Std.ExtTreeMap K V cmp) :
    (m'.toList.foldl (fun m p => m.insert p.1 p.2) m)[a]? = m'[a]?.or m[a]? := by
  obtain ⟨h₁, h₂⟩ := getElem?_foldl_insert (a := a) (nodup_keys_toList m') m
  cases hv : m'[a]? with
  | none => exact h₂ fun v hm => by simp [mem_toList, hv] at hm
  | some v => exact h₁ v (mem_toList.mpr hv)

end Assign

theorem getElem?_foldl_insertIf [DecidableEq K] (c : K → V → Option W → Prop) [∀ k v o, Decidable (c k v o)]
    (w : V → W) (m : Std.ExtTreeMap K V cmp) (acc : Std.ExtTreeMap K W cmp) (a : K) :
    (m.toList.foldl (fun acc p => if c p.1 p.2 acc[p.1]? then acc.insert p.1 (w p.2) else acc) acc)[a]? =
      m[a]?.elim acc[a]? fun v => if c a v acc[a]? then some (w v) else acc[a]? := by
  refine getElem?_foldl_touch (g := fun k v o => if c k v o then some (w v) else o) ?_ ?_ m acc a
  · intro acc k v
    split_ifs <;> simp
  intro acc k v a hne
  split_ifs
  · rw [get?_insert, if_neg hne.symm]
  · rfl

theorem size_eq_of_index {K' : Type*} {cmp' : K' → K' → Ordering} [Std.TransCmp cmp']
    [Std.LawfulEqCmp cmp'] {index : Std.ExtTreeMap K' K cmp'} {name : V → K'}
    (h : ∀ t k, index[t]? = some k ↔ ∃ v, m[k]? = some v ∧ name v = t) : index.size = m.size := by
  have hleft : (index.toList.map (·.1)).Nodup := pairwise_map.mpr (nodup_keys_toList index)
  have hright : (m.toList.map fun p => name p.2).Nodup := by
    refine pairwise_map.mpr ((nodup_keys_toList m).imp_of_mem fun {p q} hp hq hne he => hne ?_)
    have hp' := (h (name p.2) p.1).mpr ⟨p.2, mem_toList.mp hp, rfl⟩
    have hq' := (h (name p.2) q.1).mpr ⟨q.2, mem_toList.mp hq, he.symm⟩
    exact Option.some.inj (hp'.symm.trans hq')
  have hperm := (perm_ext_iff_of_nodup hleft hright).mpr fun t => by
    simp only [mem_map, Prod.exists, mem_toList]
    constructor
    · rintro ⟨t, k, hk, rfl⟩
      obtain ⟨v, hv, hname⟩ := (h t k).mp hk
      exact ⟨k, v, hv, hname⟩
    · rintro ⟨k, v, hv, hname⟩
      exact ⟨t, k, (h t k).mpr ⟨v, hv, hname⟩, rfl⟩
  have hlen := hperm.length_eq
  rwa [length_map, length_map, Std.ExtTreeMap.length_toList, Std.ExtTreeMap.length_toList] at hlen

end MapLoop
