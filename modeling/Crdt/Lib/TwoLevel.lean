import Crdt.Lib.Map

/-! Maps of maps.

A map from keys to maps that keeps no empty one, so that it is known by its values (`ext`).
`entries` are its values with both keys: with one more value there is one more entry, and with one
value less there is one entry less, in whatever order they stand. -/

/-- A map keyed by two keys, one after the other. -/
abbrev TwoLevel {K L : Type*} (cmp : K → K → Ordering) (cmp' : L → L → Ordering) (V : Type*) :=
  Std.ExtTreeMap K (Std.ExtTreeMap L V cmp') cmp

namespace TwoLevel

open MapLoop List

variable {K L V : Type*} {cmp : K → K → Ordering} {cmp' : L → L → Ordering} [Std.TransCmp cmp]
  [Std.TransCmp cmp']

section
variable (m : TwoLevel cmp cmp' V)

/-- The value at a pair of keys. -/
def get (k : K) (l : L) : Option V := m[k]?.bind fun inner => inner[l]?

/-- With a value at a pair of keys. -/
def put (k : K) (l : L) (v : V) : TwoLevel cmp cmp' V :=
  m.insert k ((m[k]?.getD ∅).insert l v)

/-- Without the value at a pair of keys; an empty map goes with its last value. -/
def drop (k : K) (l : L) : TwoLevel cmp cmp' V :=
  let inner := (m[k]?.getD ∅).erase l
  if inner.isEmpty then m.erase k else m.insert k inner

/-- The values with their keys. -/
def entries : List (K × L × V) :=
  m.toList.flatMap fun p => p.2.toList.map fun q => (p.1, q)

/-- No map of the map is empty. -/
def Compact : Prop :=
  ∀ (k : K) (inner : Std.ExtTreeMap L V cmp'), m[k]? = some inner → inner ≠ ∅

theorem get_empty (k : K) (l : L) : get (∅ : TwoLevel cmp cmp' V) k l = none := by
  simp [get]

theorem getD_getElem? (k : K) (l : L) : (m[k]?.getD ∅)[l]? = get m k l := by
  unfold get
  cases m[k]? with
  | none => simp
  | some inner => rfl

end

omit [Std.TransCmp cmp'] in
theorem Compact.empty : Compact (∅ : TwoLevel cmp cmp' V) := by
  intro k inner h
  simp at h

variable [Std.LawfulEqCmp cmp] {m m' : TwoLevel cmp cmp' V} {k k' : K} {l l' : L} {v : V}

section Keys
variable [DecidableEq K]

theorem get_insert {inner : Std.ExtTreeMap L V cmp'} :
    get (m.insert k inner) k' l' = if k = k' then inner[l']? else get m k' l' := by
  unfold get
  rw [get?_insert]
  split_ifs <;> rfl

theorem Compact.drop (h : Compact m) : Compact (drop m k l) := by
  intro k' inner hk'
  unfold TwoLevel.drop at hk'
  dsimp only at hk'
  split_ifs at hk' with hempty
  · rw [getElem?_erase] at hk'
    split_ifs at hk'
    exact h k' inner hk'
  rw [get?_insert] at hk'
  split_ifs at hk'
  · cases hk'
    exact fun he => hempty (Std.ExtTreeMap.isEmpty_iff.mpr he)
  · exact h k' inner hk'

end Keys

variable [Std.LawfulEqCmp cmp']

/-- Maps without empty maps are equal if their values are. -/
theorem ext (h : Compact m) (h' : Compact m') (heq : ∀ k l, get m k l = get m' k l) : m = m' := by
  have hsome : ∀ {m m' : TwoLevel cmp cmp' V}, Compact m → (∀ k l, get m k l = get m' k l) →
      ∀ (k : K) (inner : Std.ExtTreeMap L V cmp'), m[k]? = some inner → m'[k]? = some inner := by
    intro m m' hm heq k inner hk
    have hget : ∀ l, get m k l = inner[l]? := fun l => by rw [get, hk, Option.bind_some]
    cases hk' : m'[k]? with
    | none =>
      refine absurd (Std.ExtTreeMap.ext_getElem? fun l => ?_) (hm k inner hk)
      rw [← hget, heq, get, hk']
      simp
    | some inner' =>
      congr 1
      refine Std.ExtTreeMap.ext_getElem? fun l => ?_
      rw [← hget, heq, get, hk', Option.bind_some]
  refine Std.ExtTreeMap.ext_getElem? fun k => ?_
  cases hk : m[k]? with
  | some inner => exact (hsome h heq k inner hk).symm
  | none =>
    cases hk' : m'[k]? with
    | none => rfl
    | some inner =>
      rw [hsome h' (fun k l => (heq k l).symm) k inner hk'] at hk
      cases hk

theorem mem_entries : (k, l, v) ∈ entries m ↔ get m k l = some v := by
  unfold entries get
  simp only [mem_flatMap, mem_map, Prod.mk.injEq, Prod.exists, mem_toList]
  constructor
  · rintro ⟨k', inner, hk, l', v', hl, rfl, rfl, rfl⟩
    rw [hk, Option.bind_some, hl]
  intro h
  obtain ⟨inner, hk, hl⟩ := Option.bind_eq_some_iff.mp h
  exact ⟨k, inner, hk, l, v, hl, rfl, rfl, rfl⟩

theorem nodup_entries (m : TwoLevel cmp cmp' V) : (entries m).Nodup := by
  refine nodup_flatMap.mpr ⟨fun p _ => ?_, (nodup_keys_toList m).imp fun {p q} hne => ?_⟩
  · refine List.Nodup.map (fun _ _ h => (Prod.mk.inj h).2) ?_
    exact (nodup_keys_toList p.2).imp fun h he => h (by rw [he])
  intro x hx hx'
  obtain ⟨_, -, rfl⟩ := mem_map.mp hx
  obtain ⟨_, -, he⟩ := mem_map.mp hx'
  exact hne (Prod.mk.inj he).1.symm

variable [DecidableEq K] [DecidableEq L]

theorem get_put : get (put m k l v) k' l' = if k = k' ∧ l = l' then some v else get m k' l' := by
  rw [put, get_insert, get?_insert, getD_getElem?]
  by_cases hk : k = k'
  · subst hk
    simp
  · simp [hk]

theorem get_drop : get (drop m k l) k' l' = if k = k' ∧ l = l' then none else get m k' l' := by
  have herase : ∀ l', ((m[k]?.getD ∅).erase l)[l']? = if l = l' then none else get m k l' := fun l' => by
    rw [getElem?_erase, getD_getElem?]
  unfold drop
  dsimp only
  split_ifs with hempty hkey hkey
  · unfold get
    rw [getElem?_erase, if_pos hkey.1]
    rfl
  · by_cases hk : k = k'
    · subst hk
      have hnone := herase l'
      rw [Std.ExtTreeMap.isEmpty_iff.mp hempty, if_neg fun he => hkey ⟨rfl, he⟩] at hnone
      rw [← hnone]
      unfold get
      simp
    · unfold get
      rw [getElem?_erase, if_neg hk]
  · rw [get_insert, if_pos hkey.1, herase, if_pos hkey.2]
  rw [get_insert, herase]
  by_cases hk : k = k'
  · subst hk
    rw [if_pos rfl, if_neg fun he => hkey ⟨rfl, he⟩]
  · rw [if_neg hk]

theorem Compact.put (h : Compact m) : Compact (put m k l v) := by
  intro k' inner hk'
  rw [TwoLevel.put, get?_insert] at hk'
  split_ifs at hk'
  · cases hk'
    exact fun he => by
      have hl : ((m[k]?.getD ∅).insert l v)[l]? = some v := by rw [get?_insert, if_pos rfl]
      rw [he] at hl
      simp at hl
  · exact h k' inner hk'

theorem entries_perm_cons (h : get m k l = some v) (h' : get m' k l = none)
    (hother : ∀ k' l', ¬(k = k' ∧ l = l') → get m' k' l' = get m k' l') :
    (entries m).Perm ((k, l, v) :: entries m') := by
  have hnot : (k, l, v) ∉ entries m' := by
    rw [mem_entries, h']
    exact nofun
  refine (perm_ext_iff_of_nodup (nodup_entries m) (nodup_cons.mpr ⟨hnot, nodup_entries _⟩)).mpr ?_
  rintro ⟨k', l', w⟩
  rw [mem_cons, mem_entries, mem_entries]
  by_cases heq : k = k' ∧ l = l'
  · obtain ⟨rfl, rfl⟩ := heq
    simp [h, h', eq_comm]
  rw [hother k' l' heq]
  simp only [Prod.mk.injEq]
  tauto

theorem entries_put_perm (h : get m k l = none) (v : V) : (entries (put m k l v)).Perm ((k, l, v) :: entries m) :=
  entries_perm_cons (get_put.trans (if_pos ⟨rfl, rfl⟩)) h fun _ _ hne => (get_put.trans (if_neg hne)).symm

theorem entries_drop_perm (h : get m k l = some v) : (entries m).Perm ((k, l, v) :: entries (drop m k l)) :=
  entries_perm_cons h (get_drop.trans (if_pos ⟨rfl, rfl⟩)) fun _ _ hne => get_drop.trans (if_neg hne)

end TwoLevel
