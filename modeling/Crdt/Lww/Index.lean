import Crdt.Lww.Table

/-! The tag index is exact.

In every state a table can come to, its index is the inverse of the tags of its entries, and no
call that fails touches either (`Indexed`, `call_spec`). The argument for the loop over
the incoming entries is that no tag that is still to come belongs to another key, in the index as
it stands then: the check made before the loop says so for the index of that time, and an
iteration only adds its own tag, which stands nowhere else among the incoming entries. -/
namespace Crdt.Lww

open Clock MapLoop Rules List

variable {O K E : Type} {cmp : K → K → Ordering} [Std.TransCmp cmp] [Std.LawfulEqCmp cmp] [DecidableEq K]
  {R : Rules O K E} {entries : Std.ExtTreeMap K E cmp} {tags : TagMap K} {store : Table.Store cmp E} {k₀ : K}
  {t t' : Table O cmp E} {millis : Int64} {l : List (K × E)} {k : K} {clock : HLC} {p : K × E}
  {entry : E}

/-! ### Checks -/

/-- What `validate` checks. -/
structure Rules.Valid (R : Rules O K E) (entries : Std.ExtTreeMap K E cmp) : Prop where
  wellFormed : ∀ (k : K) (e : E), entries[k]? = some e → R.malformed k e = false
  distinct : ∀ (k k' : K) (e e' : E), entries[k]? = some e → entries[k']? = some e' →
    R.tag e = R.tag e' → k = k'

theorem check_iff (owners : TagMap K) (hl : l.Pairwise (·.1 ≠ ·.1)) :
    R.check l owners = .ok () ↔ (∀ p ∈ l, R.malformed p.1 p.2 = false) ∧
      l.Pairwise (fun p q => R.tag p.2 ≠ R.tag q.2) ∧
        ∀ p ∈ l, ∀ k, owners[R.tag p.2]? = some k → k = p.1 := by
  induction l generalizing owners with
  | nil => simp [check]
  | cons p rest ih =>
    obtain ⟨key, entry⟩ := p
    obtain ⟨hkey, hl⟩ := pairwise_cons.mp hl
    rw [check, forall_mem_cons, pairwise_cons, forall_mem_cons]
    cases hw : R.malformed key entry with
    | true => simp
    | false =>
      cases ho : (owners[R.tag entry]?).any (· ≠ key) with
      | true =>
        have ho : ¬ ∀ k, owners[R.tag entry]? = some k → k = key := by
          rw [← any_ne_eq_false, ho]
          simp
        simp [ho]
      | false =>
        have ho := any_ne_eq_false.mp ho
        simp only [Bool.false_eq_true, if_false, ih _ hl, true_and, get?_insert]
        -- an owner of a later tag is `key` itself or an owner from before
        constructor
        · rintro ⟨hwf, htags, hfree⟩
          have hne : ∀ q ∈ rest, R.tag entry ≠ R.tag q.2 := fun q hq he =>
            hkey q hq (hfree q hq key (if_pos he))
          exact ⟨hwf, ⟨hne, htags⟩, ho, fun q hq k hk => hfree q hq k (by rwa [if_neg (hne q hq)])⟩
        rintro ⟨hwf, ⟨hne, htags⟩, -, hfree⟩
        refine ⟨hwf, htags, fun q hq k hk => hfree q hq k ?_⟩
        rwa [if_neg (hne q hq)] at hk

omit [DecidableEq K] in
theorem Rules.Valid.pairwise_tags (h : R.Valid entries) :
    entries.toList.Pairwise (fun p q => R.tag p.2 ≠ R.tag q.2) :=
  (nodup_keys_toList entries).imp_of_mem fun {p q} hp hq hne he =>
    hne (h.distinct p.1 q.1 p.2 q.2 (mem_toList.mp hp) (mem_toList.mp hq) he)

theorem validate_iff : R.validate entries = .ok () ↔ R.Valid entries := by
  rw [validate, check_iff ∅ (nodup_keys_toList entries)]
  constructor
  · rintro ⟨hwf, htags, -⟩
    refine ⟨fun k e he => hwf (k, e) (mem_toList.mpr he), fun k k' e e' he he' heq => ?_⟩
    by_contra hne
    have hsymm : Std.Symm fun p q : K × E => R.tag p.2 ≠ R.tag q.2 := ⟨fun _ _ h => h.symm⟩
    have hp : (k, e) ≠ (k', e') := fun h => hne (congrArg Prod.fst h)
    exact htags.forall (mem_toList.mpr he) (mem_toList.mpr he') hp heq
  · intro h
    exact ⟨fun p hp => h.wellFormed p.1 p.2 (mem_toList.mp hp), h.pairwise_tags, by simp⟩

omit [Std.LawfulEqCmp cmp] in
theorem tagsCompatible_iff : R.tagsCompatible tags entries = true ↔
    ∀ p ∈ entries.toList, ∀ k, tags[R.tag p.2]? = some k → k = p.1 := by
  simp only [tagsCompatible, all_eq_true, Bool.not_eq_true', any_ne_eq_false]

/-! ### The index -/

def Rules.Indexes (R : Rules O K E) (store : Table.Store cmp E) : Prop :=
  ∀ (t : Tag) (k : K), store.2[t]? = some k ↔ ∃ e, store.1[k]? = some e ∧ R.tag e = t

/-- The index without the tag of one key. -/
def Without (store : Table.Store cmp E) (k₀ : K) (tags : TagMap K) : Prop :=
  ∀ (t : Tag) (k : K), tags[t]? = some k ↔ store.2[t]? = some k ∧ k ≠ k₀

namespace Rules.Indexes

variable (h : R.Indexes store)
include h

omit [Std.LawfulEqCmp cmp] [DecidableEq K] in
theorem without_erase {current : E} (hc : store.1[k₀]? = some current) :
    Without store k₀ (store.2.erase (R.tag current)) := by
  intro t k
  rw [getElem?_erase]
  constructor
  · intro hk
    split_ifs at hk with ht
    refine ⟨hk, ?_⟩
    rintro rfl
    obtain ⟨e, he, htag⟩ := (h t k).mp hk
    rw [hc] at he
    cases he
    exact ht htag
  rintro ⟨hk, hne⟩
  rw [if_neg, hk]
  rintro rfl
  have hc' := (h (R.tag current) k₀).mpr ⟨current, hc, rfl⟩
  exact hne (Option.some.inj (hk.symm.trans hc'))

omit [Std.LawfulEqCmp cmp] [DecidableEq K] in
theorem without_self (hc : store.1[k₀]? = none) : Without store k₀ store.2 := by
  intro t k
  refine ⟨fun hk => ⟨hk, ?_⟩, And.left⟩
  rintro rfl
  obtain ⟨e, he, -⟩ := (h t k).mp hk
  rw [hc] at he
  cases he

theorem assign (hw : Without store k₀ tags) {e : E} (hfree : ∀ k, store.2[R.tag e]? = some k → k = k₀) :
    R.Indexes (store.1.insert k₀ e, tags.insert (R.tag e) k₀) := by
  intro t k
  simp only [get?_insert]
  by_cases hk : k₀ = k
  · subst hk
    by_cases ht : R.tag e = t
    · simp [ht]
    · simp [ht, hw t k₀]
  rw [if_neg hk]
  by_cases ht : R.tag e = t
  · subst ht
    have hnone : ¬ ∃ e', store.1[k]? = some e' ∧ R.tag e' = R.tag e := fun he =>
      hk (hfree k ((h (R.tag e) k).mpr he)).symm
    simp [hk, hnone]
  · rw [if_neg ht, hw t k, ← h t k]
    exact and_iff_left (Ne.symm hk)

theorem remove (hw : Without store k₀ tags) : R.Indexes (store.1.erase k₀, tags) := by
  intro t k
  simp only [getElem?_erase]
  rw [hw t k]
  by_cases hk : k₀ = k
  · simp [hk]
  · rw [if_neg hk, ← h t k]
    exact and_iff_left (Ne.symm hk)

omit [DecidableEq K] in
theorem size : store.2.size = store.1.size := size_eq_of_index h

end Rules.Indexes

/-! ### The loop -/

/-- What one entry makes of the current one. -/
def Rules.later (R : Rules O K E) (current : Option E) (incoming : E) : Option E :=
  if R.wins current incoming then some incoming else current

section
variable (store : Table.Store cmp E)

omit [Std.LawfulEqCmp cmp] [DecidableEq K] in
theorem take_entries (p : K × E) :
    (R.take store p).1 = if R.wins store.1[p.1]? p.2 then store.1.insert p.1 p.2 else store.1 := by
  simp only [Rules.take]
  split_ifs <;> rfl

omit [Std.LawfulEqCmp cmp] [DecidableEq K] in
theorem foldl_take_entries (l : List (K × E)) (store : Table.Store cmp E) : (l.foldl R.take store).1 =
      l.foldl (fun es p => if R.wins es[p.1]? p.2 then es.insert p.1 p.2 else es) store.1 :=
  (foldl_hom Prod.fst fun s p => (take_entries s p).symm).symm

theorem getElem?_foldl_take (entries : Std.ExtTreeMap K E cmp) (k : K) :
    (entries.toList.foldl R.take store).1[k]? = entries[k]?.elim store.1[k]? (R.later store.1[k]?) := by
  rw [foldl_take_entries]
  exact getElem?_foldl_insertIf (fun _ e current => R.wins current e = true) (fun e => e) entries store.1 k

omit [Std.LawfulEqCmp cmp] [DecidableEq K] in
theorem size_take (p : K × E) :
    (R.take store p).1.size ≤ store.1.size + (if !store.1.contains p.1 then 1 else 0) := by
  rw [take_entries]
  split_ifs with hw hc
  · rw [Std.ExtTreeMap.size_insert]
    split_ifs <;> omega
  · rw [Std.ExtTreeMap.size_insert, if_pos (by simpa using hc)]
    omega
  · omega
  · omega

omit [Std.LawfulEqCmp cmp] [DecidableEq K] in
theorem contains_take (p : K × E) (h : store.1.contains k = true) : (R.take store p).1.contains k = true := by
  rw [take_entries]
  split_ifs
  · simp [h]
  · exact h

end

omit [Std.LawfulEqCmp cmp] [DecidableEq K] in
theorem size_foldl_take (l : List (K × E)) (store : Table.Store cmp E) :
    (l.foldl R.take store).1.size ≤ store.1.size + l.countP fun p => !store.1.contains p.1 := by
  induction l generalizing store with
  | nil => simp
  | cons p l ih =>
    have hstep := size_take (R := R) store p
    have hmono : (l.countP fun q => !(R.take store p).1.contains q.1) ≤
        l.countP fun q => !store.1.contains q.1 := by
      refine countP_mono_left fun q _ hq => ?_
      by_contra hc
      have hc : store.1.contains q.1 = true := by simpa using hc
      simp [contains_take store p hc] at hq
    have := ih (R.take store p)
    rw [foldl_cons, countP_cons]
    omega

theorem Rules.Indexes.take (h : R.Indexes store)
    (hfree : ∀ k, store.2[R.tag p.2]? = some k → k = p.1) : R.Indexes (R.take store p) := by
  unfold Rules.take
  dsimp only
  split_ifs
  · cases hc : store.1[p.1]? with
    | none => exact h.assign (h.without_self hc) hfree
    | some current => exact h.assign (h.without_erase hc) hfree
  · exact h

omit [Std.LawfulEqCmp cmp] [DecidableEq K] in
theorem take_index {t : Tag} (hne : R.tag p.2 ≠ t)
    (h : (R.take store p).2[t]? = some k) : store.2[t]? = some k := by
  unfold Rules.take at h
  dsimp only at h
  split_ifs at h
  · rw [get?_insert, if_neg hne] at h
    split at h
    · rw [getElem?_erase] at h
      split_ifs at h
      exact h
    · exact h
  · exact h

theorem Rules.Indexes.foldl_take (h : R.Indexes store)
    (htags : l.Pairwise (fun p q => R.tag p.2 ≠ R.tag q.2))
    (hfree : ∀ p ∈ l, ∀ k, store.2[R.tag p.2]? = some k → k = p.1) : R.Indexes (l.foldl R.take store) := by
  induction l generalizing store with
  | nil => exact h
  | cons p l ih =>
    obtain ⟨hp, htags⟩ := pairwise_cons.mp htags
    refine ih (h.take (hfree p (mem_cons_self ..))) htags fun q hq k hk => ?_
    exact hfree q (mem_cons_of_mem _ hq) k (take_index (hp q hq) hk)

theorem foldl_take_entries_perm (hp : l.Perm entries.toList) :
    (l.foldl R.take store).1 = (entries.toList.foldl R.take store).1 := by
  refine Std.ExtTreeMap.ext_getElem? fun k => ?_
  obtain ⟨hin, hout⟩ := foldl_touch (f := fun es p => if R.wins es[p.1]? p.2 then es.insert p.1 p.2 else es)
    (g := fun _ e current => R.later current e) (fun _ _ _ => by rw [later]; split_ifs <;> simp)
    (fun _ _ _ _ hne => by split_ifs <;> simp [get?_insert, hne.symm]) k
    (hp.symm.pairwise (nodup_keys_toList entries) Ne.symm) store.1
  rw [getElem?_foldl_take, foldl_take_entries]
  cases he : entries[k]? with
  | some e => exact hin e (hp.mem_iff.mpr (mem_toList.mpr he))
  | none =>
    refine hout fun v hv => ?_
    rw [mem_toList.mp (hp.mem_iff.mp hv)] at he
    cases he

/-- Go ranges over the incoming entries in any order, and the table comes out the same. -/
theorem Rules.Indexes.foldl_take_perm (h : R.Indexes store) (hvalid : R.Valid entries)
    (hcompat : R.tagsCompatible store.2 entries = true) (hp : l.Perm entries.toList) :
    l.foldl R.take store = entries.toList.foldl R.take store := by
  have hfree := tagsCompatible_iff.mp hcompat
  have htags := hp.symm.pairwise hvalid.pairwise_tags Ne.symm
  have hindex := h.foldl_take htags fun p hm => hfree p (hp.mem_iff.mp hm)
  have hentries : (l.foldl R.take store).1 = (entries.toList.foldl R.take store).1 := foldl_take_entries_perm hp
  refine Prod.ext hentries (Std.ExtTreeMap.ext_getElem? fun tag => Option.ext fun k => ?_)
  rw [hindex, h.foldl_take hvalid.pairwise_tags hfree, hentries]

omit [DecidableEq K] in
theorem later_cases {current : Option E} {e e' : E} (h : R.later current e = some e') :
    e' = e ∨ current = some e' := by
  unfold later at h
  split_ifs at h
  · exact .inl (Option.some.inj h).symm
  · exact .inr h

/-! ### Calls -/

/-- What an accepted call makes of the state when the entries come in. -/
structure Rules.Applied (R : Rules O K E) (t : Table O cmp E) (incoming : Std.ExtTreeMap K E cmp)
    (t' : Table O cmp E) : Prop where
  valid : R.Valid incoming
  entries : ∀ k : K, t'.entries[k]? = incoming[k]?.elim t.entries[k]? (R.later t.entries[k]?)
  index : R.Indexes (t.entries, t.tags) → R.Indexes (t'.entries, t'.tags)
  options : t'.options = t.options
  replicaID : t'.clock.replicaID = t.clock.replicaID
  bounded : (t.entries.size : Int) ≤ R.maxEntries t.options → (t'.entries.size : Int) ≤ R.maxEntries t.options

omit [DecidableEq K] in
/-- A table that subsumes the incoming entries would take none of them. -/
theorem later_of_subsumed {existing incoming : Std.ExtTreeMap K E cmp}
    (h : R.subsumed existing incoming = true) (k : K) :
    incoming[k]?.elim existing[k]? (R.later existing[k]?) = existing[k]? := by
  cases he : incoming[k]? with
  | none => rfl
  | some e =>
    have := all_toList.mp h k e he
    cases hc : existing[k]? with
    | none => simp [hc] at this
    | some current =>
      have hlt : ¬ R.tag current < R.tag e := by
        rw [hc] at this
        simp only [Tag.compare_eq_lt_iff, Bool.not_eq_true', Bool.or_eq_false_iff,
          decide_eq_false_iff_not] at this
        exact this.1
      simp [later, wins, hlt]

/-- The checks of a call, in the order in which they are made. -/
structure Rules.Accepts (R : Rules O K E) (t : Table O cmp E) (entries : Std.ExtTreeMap K E cmp) : Prop where
  valid : R.Valid entries
  fits : R.allows t.options entries = .ok ()
  compatible : R.tagsCompatible t.tags entries = true
  agrees : (entries.toList.any fun p => (t.entries[p.1]?).any (R.conflict · p.2)) = false
  room : (t.entries.size : Int) + newEntries entries t.entries ≤ R.maxEntries t.options

theorem Rules.Applied.loop (hvalid : R.Valid entries) (hcompat : R.tagsCompatible t.tags entries = true)
    (hroom : (t.entries.size : Int) + newEntries entries t.entries ≤ R.maxEntries t.options)
    (hclock : clock.replicaID = t.clock.replicaID) :
    R.Applied t entries {t with
      clock
      entries := (entries.toList.foldl R.take (t.entries, t.tags)).1
      tags := (entries.toList.foldl R.take (t.entries, t.tags)).2} := by
  refine ⟨hvalid, getElem?_foldl_take (t.entries, t.tags) entries, fun hi => ?_, rfl, hclock, fun _ => ?_⟩
  · exact hi.foldl_take hvalid.pairwise_tags (tagsCompatible_iff.mp hcompat)
  have hsize : (entries.toList.foldl R.take (t.entries, t.tags)).1.size ≤
      t.entries.size + newEntries entries t.entries := size_foldl_take _ _
  dsimp only
  omega

/-- The entries come in, or the call is refused as a whole. -/
theorem apply_cases (t : Table O cmp E) (entries : Std.ExtTreeMap K E cmp) (millis : Int64) :
    (∃ t', R.apply t entries millis = (t', .ok ()) ∧ R.Applied t entries t') ∨
      ∃ err, R.apply t entries millis = (t, .error err) ∧ (R.Accepts t entries → ∃ e, err = .clock e) := by
  unfold apply
  rcases hv : R.validate entries with err | ⟨⟩
  · refine .inr ⟨err, rfl, fun h => ?_⟩
    cases (validate_iff.mpr h.valid).symm.trans hv
  rcases ho : R.allows t.options entries with err | ⟨⟩
  · refine .inr ⟨err, rfl, fun h => ?_⟩
    cases h.fits.symm.trans ho
  have hvalid := validate_iff.mp hv
  split_ifs with hcompat hagrees hsub hroom
  · exact .inr ⟨_, rfl, fun h => by simp [h.compatible] at hcompat⟩
  · exact .inr ⟨_, rfl, fun h => by simp [h.agrees] at hagrees⟩
  · exact .inl ⟨t, rfl, hvalid, fun k => (later_of_subsumed hsub k).symm, id, rfl, rfl, id⟩
  · exact .inr ⟨_, rfl, fun h => absurd h.room (not_le.mpr hroom)⟩
  have hcompat : R.tagsCompatible t.tags entries = true := by simpa using hcompat
  cases R.greatestTag entries with
  | none => exact .inl ⟨_, rfl, .loop hvalid hcompat (not_lt.mp hroom) rfl⟩
  | some tag =>
    rcases hw : t.clock.witness tag millis with ⟨clock, err | ⟨⟩⟩
    · obtain rfl := HLC.witness_error hw
      simp only [hw]
      exact .inr ⟨_, rfl, fun _ => ⟨err, rfl⟩⟩
    · simp only [hw]
      exact .inl ⟨_, rfl, .loop hvalid hcompat (not_lt.mp hroom) (HLC.witness_ok hw).1⟩

/-- What every reachable table keeps. -/
structure Rules.Indexed (R : Rules O K E) (t : Table O cmp E) : Prop where
  index : R.Indexes (t.entries, t.tags)
  wellFormed : ∀ (k : K) (e : E), t.entries[k]? = some e → R.malformed k e = false
  bounded : (t.entries.size : Int) ≤ R.maxEntries t.options
  replicaID : Tag.valid ⟨t.clock.replicaID, 0, 0⟩ = true

omit [Std.LawfulEqCmp cmp] [DecidableEq K] in
theorem Rules.Indexed.applied (h : R.Indexed t) (ha : R.Applied t entries t') : R.Indexed t' := by
  refine ⟨ha.index h.index, fun k e he => ?_, ?_, ?_⟩
  · rw [ha.entries] at he
    cases hi : entries[k]? with
    | none => exact h.wellFormed k e (by simpa [hi] using he)
    | some incoming =>
      rw [hi] at he
      rcases later_cases he with rfl | he
      · exact ha.valid.wellFormed k e hi
      · exact h.wellFormed k e he
  · rw [ha.options]
    exact ha.bounded h.bounded
  · rw [ha.replicaID]
    exact h.replicaID

omit [Std.LawfulEqCmp cmp] [DecidableEq K] in
theorem Rules.Indexed.valid (h : R.Indexed t) : R.Valid t.entries := by
  refine ⟨h.wellFormed, fun k k' e e' he he' htag => ?_⟩
  have hk := (h.index (R.tag e) k).mpr ⟨e, he, rfl⟩
  have hk' := (h.index (R.tag e) k').mpr ⟨e', he', htag.symm⟩
  exact Option.some.inj (hk.symm.trans hk')

omit [Std.LawfulEqCmp cmp] [DecidableEq K] in
/-- No entry has the zero tag, so deleting it from the index does nothing. -/
theorem Rules.Indexes.zero (h : R.Indexes store)
    (hvalid : ∀ (k : K) (e : E), store.1[k]? = some e → R.malformed k e = false) :
    store.2[Tag.zero]? = none := by
  cases hk : store.2[Tag.zero]? with
  | none => rfl
  | some k =>
    obtain ⟨e, he, htag⟩ := (h Tag.zero k).mp hk
    have := R.valid_tag (hvalid k e he)
    simp [htag] at this

omit [Std.LawfulEqCmp cmp] [DecidableEq K] in
theorem Rules.Indexes.without (h : R.Indexes store) (hzero : store.2[Tag.zero]? = none) (k₀ : K) :
    Without store k₀ (store.2.erase ((store.1[k₀]?.map R.tag).getD .zero)) := by
  cases hc : store.1[k₀]? with
  | some current => exact h.without_erase hc
  | none =>
    intro t k
    rw [← h.without_self hc t k, getElem?_erase]
    split_ifs with ht
    · simp [← ht, hzero]
    · rfl

omit [Std.LawfulEqCmp cmp] [DecidableEq K] in
theorem size_insert_le (entries : Std.ExtTreeMap K E cmp) (key : K) (entry : E) {n : Int}
    (h : (entries.size : Int) ≤ n)
    (hroom : ¬ (!entries.contains key && decide ((entries.size : Int) ≥ n)) = true) :
    ((entries.insert key entry).size : Int) ≤ n := by
  rw [Std.ExtTreeMap.size_insert]
  split_ifs with hm
  · exact h
  · simp [hm] at hroom
    omega

theorem getElem?_single (key k : K) (entry : E) :
    ((∅ : Std.ExtTreeMap K E cmp).insert key entry)[k]? = if key = k then some entry else none := by
  rw [get?_insert, Std.ExtTreeMap.getElem?_empty]

theorem Rules.Valid.single {key : K} (h : R.malformed key entry = false) :
    R.Valid ((∅ : Std.ExtTreeMap K E cmp).insert key entry) := by
  refine ⟨fun k e he => ?_, fun k k' e e' he he' _ => ?_⟩
  · rw [getElem?_single] at he
    split_ifs at he with hk
    cases he
    exact hk ▸ h
  rw [getElem?_single] at he he'
  split_ifs at he with hk
  split_ifs at he' with hk'
  exact hk.symm.trans hk'

theorem Rules.Applied.single (h : R.Indexed t) {key : K} {tag : Tag} (htag : R.tag entry = tag)
    (hwf : R.malformed key entry = false) (hfree : ∀ k, t.tags[tag]? = some k → k = key)
    (hroom : ¬ (!t.entries.contains key && decide ((t.entries.size : Int) ≥ R.maxEntries t.options)) = true)
    (hclock : clock.replicaID = t.clock.replicaID) :
    R.Applied t ((∅ : Std.ExtTreeMap K E cmp).insert key entry)
      (if R.wins t.entries[key]? entry then
        {t with
          clock
          entries := t.entries.insert key entry
          tags := (t.tags.erase ((t.entries[key]?.map R.tag).getD .zero)).insert tag key}
      else {t with clock}) := by
  subst htag
  by_cases hwins : R.wins t.entries[key]? entry = true
  · rw [if_pos hwins]
    refine ⟨.single hwf, fun k => ?_, fun hi => ?_, rfl, hclock, fun hb => size_insert_le _ _ _ hb hroom⟩
    · rw [getElem?_single, get?_insert]
      split_ifs with hk
      · simp [later, ← hk, hwins]
      · rfl
    · exact hi.assign (hi.without (h.index.zero h.wellFormed) key) hfree
  rw [if_neg hwins]
  refine ⟨.single hwf, fun k => ?_, id, rfl, hclock, id⟩
  rw [getElem?_single]
  split_ifs with hk
  · simp [later, ← hk, hwins]
  · rfl

theorem write_cases (h : R.Indexed t) (w : R.Write) (millis : Int64) :
    (∃ t' d, R.write t w millis = (t', .ok d) ∧ R.Applied t d t') ∨
      ∃ clock err, R.write t w millis = ({t with clock}, .error err) ∧
        clock.replicaID = t.clock.replicaID := by
  unfold write
  rcases hw : R.allow t.options w.key (w.entry .zero) with err | ⟨⟩
  · exact .inr ⟨t.clock, err, rfl, rfl⟩
  by_cases hroom : (!t.entries.contains w.key &&
      decide ((t.entries.size : Int) ≥ R.maxEntries t.options)) = true
  · rw [if_pos hroom]
    exact .inr ⟨t.clock, _, rfl, rfl⟩
  rw [if_neg hroom]
  rcases hnow : t.clock.now millis with ⟨clock, err | tag⟩
  · obtain rfl := HLC.now_error hnow
    exact .inr ⟨t.clock, _, rfl, rfl⟩
  obtain ⟨htag, hid, -⟩ := HLC.now_ok hnow
  dsimp only
  by_cases hfree : (t.tags[tag]?).any (· ≠ w.key) = true
  · rw [if_pos hfree]
    exact .inr ⟨clock, _, rfl, hid⟩
  rw [if_neg hfree]
  have hvalid : tag.valid = true := by
    have hr := h.replicaID
    rw [← hid] at hr
    rw [htag]
    exact hr
  refine .inl ⟨_, _, rfl, .single h (w.tag_entry tag) (w.wellFormed _ tag hvalid hw) ?_ hroom hid⟩
  exact any_ne_eq_false.mp (Bool.not_eq_true _ ▸ hfree)

/-! ### Installs -/

omit [DecidableEq K] in
theorem tagIndex_spec (h : R.Valid entries) : R.Indexes (entries, R.tagIndex entries) := by
  intro t k
  refine (getElem?_foldl_assign h.pairwise_tags).trans ⟨?_, ?_⟩
  · rintro ⟨p, hp, rfl, rfl⟩
    exact ⟨p.2, mem_toList.mp hp, rfl⟩
  · rintro ⟨e, he, rfl⟩
    exact ⟨(k, e), mem_toList.mpr he, rfl, rfl⟩

theorem install_cases (h : R.Indexed t) (entries : Std.ExtTreeMap K E cmp) (millis : Int64) :
    (∃ t', R.install t entries millis = (t', .ok ()) ∧ R.Indexed t') ∨
      ∃ err, R.install t entries millis = (t, .error err) := by
  unfold install
  by_cases hsize : (entries.size : Int) > R.maxEntries t.options
  · rw [if_pos hsize]
    exact .inr ⟨_, rfl⟩
  rw [if_neg hsize]
  rcases ho : R.allows t.options entries with err | ⟨⟩
  · exact .inr ⟨err, rfl⟩
  rcases hv : R.validate entries with err | ⟨⟩
  · exact .inr ⟨err, rfl⟩
  have hvalid := validate_iff.mp hv
  have hinstalled : ∀ clock : HLC, clock.replicaID = t.clock.replicaID →
      R.Indexed {t with clock, entries, tags := R.tagIndex entries} := fun clock hid =>
    ⟨tagIndex_spec hvalid, hvalid.wellFormed, not_lt.mp hsize, by
      rw [hid]
      exact h.replicaID⟩
  cases R.greatestTag entries with
  | none => exact .inl ⟨_, rfl, hinstalled t.clock rfl⟩
  | some tag =>
    rcases hw : t.clock.witness tag millis with ⟨clock, err | ⟨⟩⟩
    · obtain rfl := HLC.witness_error hw
      simp only [hw]
      exact .inr ⟨_, rfl⟩
    · simp only [hw]
      exact .inl ⟨_, rfl, hinstalled clock (HLC.witness_ok hw).1⟩

/-! ### Compaction -/

/-- Tags of which no two are equal make the index that an install would. -/
theorem byTag_eq (index : TagMap K) (htags : l.Pairwise (fun p q => R.tag p.2 ≠ R.tag q.2))
    (hfree : ∀ p ∈ l, ∀ k, index[R.tag p.2]? = some k → k = p.1) :
    R.byTag l index = some (l.foldl (fun tags p => tags.insert (R.tag p.2) p.1) index) := by
  induction l generalizing index with
  | nil => rfl
  | cons p l ih =>
    obtain ⟨hp, htags⟩ := pairwise_cons.mp htags
    obtain ⟨hhead, hfree⟩ := forall_mem_cons.mp hfree
    rw [byTag, any_ne_eq_false.mpr hhead]
    refine ih _ htags fun q hq k hk => hfree q hq k ?_
    rwa [get?_insert, if_neg (hp q hq)] at hk

/-- One of the tags is that of an entry that is present. -/
def Rules.Live (R : Rules O K E) (entries : Std.ExtTreeMap K E cmp) (tags : List Tag) : Prop :=
  ∃ (k : K) (e : E), entries[k]? = some e ∧ R.tag e ∈ tags ∧ R.present e = true

omit [Std.LawfulEqCmp cmp] [DecidableEq K] in
/-- The keys of the tags that were not seen before, if none of them is live. -/
theorem compactKeys_cases (hi : R.Indexes (entries, tags)) (l : List Tag) (seen : TagSet) :
    (R.compactKeys entries tags l seen = none ∧ R.Live entries l) ∨
      ∃ keys, R.compactKeys entries tags l seen = some keys ∧
        (∀ k, k ∈ keys ↔ ∃ e, entries[k]? = some e ∧ R.tag e ∈ l ∧ R.tag e ∉ seen) ∧
        ∀ k ∈ keys, ∀ e, entries[k]? = some e → R.present e = false := by
  induction l generalizing seen with
  | nil => exact .inr ⟨[], rfl, by simp, by simp⟩
  | cons tag l ih =>
    rw [compactKeys]
    by_cases hseen : tag ∈ seen
    · rw [if_pos (by simpa using hseen)]
      rcases ih seen with ⟨he, k, e, hk, hl, hp⟩ | ⟨keys, he, hkeys, hp⟩
      · exact .inl ⟨he, k, e, hk, mem_cons_of_mem _ hl, hp⟩
      refine .inr ⟨keys, he, fun k => (hkeys k).trans (exists_congr fun e => and_congr_right fun _ => ?_), hp⟩
      rw [mem_cons]
      constructor
      · exact fun ⟨hl, hs⟩ => ⟨.inr hl, hs⟩
      rintro ⟨rfl | hl, hs⟩
      · exact absurd hseen hs
      · exact ⟨hl, hs⟩
    rw [if_neg (by simpa using hseen)]
    -- what is listed from here on and was not seen before is this tag or listed behind it
    have hstep : ∀ e, (R.tag e ∈ tag :: l ∧ R.tag e ∉ seen) ↔
        R.tag e = tag ∨ (R.tag e ∈ l ∧ R.tag e ∉ seen.insert tag) := by
      intro e
      by_cases he : R.tag e = tag
      · simp [he, hseen]
      · simp [he, Ne.symm he]
    cases hk : tags[tag]? with
    | none =>
      have hno : ∀ (k : K) (e : E), entries[k]? = some e → R.tag e ≠ tag := by
        intro k e he htag
        have := (hi tag k).mpr ⟨e, he, htag⟩
        rw [show (entries, tags).2[tag]? = none from hk] at this
        cases this
      rcases ih (seen.insert tag) with ⟨he, k, e, hk, hl, hp⟩ | ⟨keys, he, hkeys, hp⟩
      · exact .inl ⟨he, k, e, hk, mem_cons_of_mem _ hl, hp⟩
      · refine .inr ⟨keys, he, fun k => (hkeys k).trans (exists_congr fun e => and_congr_right fun hek => ?_), hp⟩
        rw [hstep, or_iff_right (hno k e hek)]
    | some key =>
      obtain ⟨entry, hentry, htag⟩ := (hi tag key).mp hk
      dsimp only
      rw [hentry, Option.any_some]
      cases hp : R.present entry with
      | true => exact .inl ⟨rfl, key, entry, hentry, htag ▸ mem_cons_self .., hp⟩
      | false =>
        rcases ih (seen.insert tag) with ⟨he, k, e, hk, hl, hp⟩ | ⟨keys, he, hkeys, hpresent⟩
        · exact .inl ⟨by rw [he]; rfl, k, e, hk, mem_cons_of_mem _ hl, hp⟩
        refine .inr ⟨key :: keys, by rw [he]; rfl, fun k => ?_, fun k hk e hek => ?_⟩
        · rw [mem_cons, hkeys]
          constructor
          · rintro (rfl | ⟨e, hek, hl⟩)
            · exact ⟨entry, hentry, (hstep entry).mpr (.inl htag)⟩
            · exact ⟨e, hek, (hstep e).mpr (.inr hl)⟩
          rintro ⟨e, hek, hl⟩
          refine ((hstep e).mp hl).imp (fun he => ?_) fun hl => ⟨e, hek, hl⟩
          exact Option.some.inj (((hi tag k).mpr ⟨e, hek, he⟩).symm.trans hk)
        rcases mem_cons.mp hk with rfl | hk
        · rw [hentry] at hek
          cases hek
          exact hp
        · exact hpresent k hk e hek

theorem foldl_dropKey (keys : List K) (h : R.Indexes store)
    (hvalid : ∀ (k : K) (e : E), store.1[k]? = some e → R.malformed k e = false) :
    R.Indexes (keys.foldl R.dropKey store) ∧
      (∀ k : K, (keys.foldl R.dropKey store).1[k]? = if k ∈ keys then none else store.1[k]?) ∧
      (keys.foldl R.dropKey store).1.size ≤ store.1.size := by
  induction keys generalizing store with
  | nil => exact ⟨h, fun _ => by simp, le_rfl⟩
  | cons key keys ih =>
    have hget : ∀ k : K, (R.dropKey store key).1[k]? = if key = k then none else store.1[k]? :=
      getElem?_erase store.1 key
    have hdrop : R.Indexes (R.dropKey store key) := h.remove (h.without (h.zero hvalid) key)
    obtain ⟨hindex, hentries, hsize⟩ := ih hdrop fun k e he => by
      rw [hget] at he
      split_ifs at he
      exact hvalid k e he
    refine ⟨hindex, fun k => ?_, hsize.trans Std.ExtTreeMap.size_erase_le⟩
    rw [foldl_cons, hentries, hget]
    by_cases hk : k ∈ keys
    · simp [hk]
    · simp [hk, eq_comm]

theorem compactTombstones_cases (h : R.Indexed t) (tags : List Tag) :
    (∃ t' n, R.compactTombstones t tags = (t', .ok n) ∧ R.Indexed t' ∧ (∀ tag ∈ tags, tag.valid = true) ∧
        ¬ R.Live t.entries tags ∧ ∀ (k : K) (e : E), t'.entries[k]? = some e ↔
          t.entries[k]? = some e ∧ R.tag e ∉ tags) ∨
      (R.compactTombstones t tags = (t, .error .unsafeCompaction) ∧
        ((∃ tag ∈ tags, tag.valid = false) ∨ R.Live t.entries tags)) := by
  unfold compactTombstones
  cases hv : tags.all Tag.valid with
  | false =>
    obtain ⟨tag, htag, hvalid⟩ := all_eq_false.mp hv
    exact .inr ⟨rfl, .inl ⟨tag, htag, Bool.not_eq_true _ ▸ hvalid⟩⟩
  | true =>
    have hindex : R.Indexes (t.entries, R.tagIndex t.entries) := tagIndex_spec h.valid
    have hby : R.byTag t.entries.toList ∅ = some (R.tagIndex t.entries) :=
      byTag_eq ∅ h.valid.pairwise_tags (by simp)
    rw [hby]
    dsimp only
    rcases compactKeys_cases hindex tags ∅ with ⟨he, hlive⟩ | ⟨keys, he, hkeys, hpresent⟩
    · rw [he]
      exact .inr ⟨rfl, .inr hlive⟩
    rw [he]
    simp only [Std.ExtTreeSet.not_mem_empty, not_false_eq_true, and_true] at hkeys
    obtain ⟨hindex, hentries, hsize⟩ := foldl_dropKey keys h.index h.wellFormed
    have hget : ∀ (k : K) (e : E), (keys.foldl R.dropKey (t.entries, t.tags)).1[k]? = some e ↔
        t.entries[k]? = some e ∧ R.tag e ∉ tags := by
      intro k e
      rw [hentries]
      constructor
      · intro hk
        split_ifs at hk with hmem
        exact ⟨hk, fun htag => hmem ((hkeys k).mpr ⟨e, hk, htag⟩)⟩
      intro ⟨hk, htag⟩
      rw [if_neg, hk]
      intro hmem
      obtain ⟨e', he', htag'⟩ := (hkeys k).mp hmem
      rw [show t.entries[k]? = some e from hk] at he'
      cases he'
      exact htag htag'
    have hsize : (((keys.foldl R.dropKey (t.entries, t.tags)).1.size : Nat) : Int) ≤ R.maxEntries t.options :=
      (Int.ofNat_le.mpr hsize).trans h.bounded
    refine .inl ⟨_, _, rfl, ⟨hindex, fun k e he => h.wellFormed k e ((hget k e).mp he).1, hsize, h.replicaID⟩,
      all_eq_true.mp hv, fun ⟨k, e, hk, htag, hlive⟩ => ?_, hget⟩
    have := hpresent k ((hkeys k).mpr ⟨e, hk, htag⟩) e hk
    rw [hlive] at this
    cases this

/-! ### Runs -/

/-- A call keeps the index exact, and one that fails leaves entries and index as they were. -/
theorem call_spec (h : R.Indexed t) (c : R.Call cmp) (millis : Int64) :
    R.Indexed (R.call t c millis).1 ∧ ((R.call t c millis).2 = .ok () ∨
      (R.call t c millis).1.entries = t.entries ∧ (R.call t c millis).1.tags = t.tags) := by
  cases c with
  | write w =>
    rw [call]
    rcases write_cases h w millis with ⟨t', d, he, ha⟩ | ⟨clock, err, he, hid⟩
    · rw [he]
      exact ⟨h.applied ha, .inl rfl⟩
    have hvalid : Tag.valid ⟨clock.replicaID, 0, 0⟩ = true := by
      rw [hid]
      exact h.replicaID
    rw [he]
    exact ⟨⟨h.index, h.wellFormed, h.bounded, hvalid⟩, .inr ⟨rfl, rfl⟩⟩
  | apply entries =>
    rw [call]
    rcases apply_cases t entries millis with ⟨t', he, ha⟩ | ⟨err, he, -⟩
    · rw [he]
      exact ⟨h.applied ha, .inl rfl⟩
    · rw [he]
      exact ⟨h, .inr ⟨rfl, rfl⟩⟩
  | install entries =>
    rw [call]
    rcases install_cases h entries millis with ⟨t', he, hi⟩ | ⟨err, he⟩
    · rw [he]
      exact ⟨hi, .inl rfl⟩
    · rw [he]
      exact ⟨h, .inr ⟨rfl, rfl⟩⟩
  | compactTombstones tags =>
    rw [call]
    rcases compactTombstones_cases h tags with ⟨t', n, he, hi, -⟩ | ⟨he, -⟩
    · rw [he]
      exact ⟨hi, .inl rfl⟩
    · rw [he]
      exact ⟨h, .inr ⟨rfl, rfl⟩⟩

omit [Std.LawfulEqCmp cmp] [DecidableEq K] in
theorem indexed_fresh (hmax : 0 < R.maxEntries t.options) (hentries : t.entries = ∅) (htags : t.tags = ∅)
    (hid : Tag.valid ⟨t.clock.replicaID, 0, 0⟩ = true) : R.Indexed t := by
  refine ⟨fun u k => by simp [hentries, htags], by simp [hentries], ?_, hid⟩
  rw [hentries, Std.ExtTreeMap.size_empty]
  omega

end Crdt.Lww
