import Crdt.Lww.Index

/-! Last-writer-wins tables converge.

A table that has received deltas holds, at every key, an entry that one of them had there and that
no other one exceeds (`Covers`). The join of two such tables is one again, so it does not matter by
which way the deltas came. If a tag stands for one key and one write, that entry is the only one
with its tag, and no delta is refused but for the limits or by the clock (`Delivered.apply_total`). -/
namespace Crdt.Lww

open Clock MapLoop List

variable {O K E : Type} {cmp : K → K → Ordering} [Std.TransCmp cmp] [Std.LawfulEqCmp cmp] [DecidableEq K]
  {R : Rules O K E} {t t' other : Table O cmp E} {got got' ds es : List (Std.ExtTreeMap K E cmp)}
  {d e f : Std.ExtTreeMap K E cmp} {millis : Int64} {l : List (K × E)}

/-! ### Deltas merged on their way -/

omit [Std.LawfulEqCmp cmp] [DecidableEq K] in
theorem mergeEntries_ok {merged r : Std.ExtTreeMap K E cmp} (h : R.mergeEntries l merged = .ok r) :
    r = l.foldl (fun es p => if R.wins es[p.1]? p.2 then es.insert p.1 p.2 else es) merged := by
  induction l generalizing merged with
  | nil => exact (Except.ok.inj h).symm
  | cons p l ih =>
    rw [Rules.mergeEntries] at h
    split_ifs at h
    · rw [ih h, foldl_cons, if_pos ‹_›]
    · rw [ih h, foldl_cons, if_neg ‹_›]

/-- Without a conflict at the start of the loop there is none later on. -/
theorem mergeEntries_total (hl : l.Pairwise (·.1 ≠ ·.1)) {merged : Std.ExtTreeMap K E cmp}
    (h : ∀ p ∈ l, (merged[p.1]?).any (R.conflict · p.2) = false) : ∃ r, R.mergeEntries l merged = .ok r := by
  induction l generalizing merged with
  | nil => exact ⟨merged, rfl⟩
  | cons p l ih =>
    obtain ⟨hp, hl⟩ := pairwise_cons.mp hl
    obtain ⟨hhead, htail⟩ := forall_mem_cons.mp h
    rw [Rules.mergeEntries, hhead]
    refine ih hl fun q hq => ?_
    split_ifs
    · rw [get?_insert, if_neg (hp q hq)]
      exact htail q hq
    · exact htail q hq

/-- A loop over the entries of a map, in which the greater tag wins. -/
theorem getElem?_foldl_wins (merged other : Std.ExtTreeMap K E cmp) (k : K) :
    (other.toList.foldl (fun es p => if R.wins es[p.1]? p.2 then es.insert p.1 p.2 else es) merged)[k]? =
      other[k]?.elim merged[k]? (R.later merged[k]?) := by
  have hloop := getElem?_foldl_take (R := R) (merged, ∅) other k
  rwa [foldl_take_entries] at hloop

theorem mergeDeltas_spec (h : R.mergeDeltas d e = .ok f) :
    R.Valid f ∧ ∀ k : K, f[k]? = e[k]?.elim d[k]? (R.later d[k]?) := by
  unfold Rules.mergeDeltas at h
  split at h
  · cases h
  split at h
  · cases h
  split at h
  · cases h
  rename_i merged hm
  split at h
  · cases h
  rename_i hv
  cases h
  refine ⟨validate_iff.mp hv, fun k => ?_⟩
  rw [mergeEntries_ok hm, getElem?_foldl_wins]

namespace Rules

/-- Deltas that travel as one. -/
inductive Bundle (R : Rules O K E) : List (Std.ExtTreeMap K E cmp) → Std.ExtTreeMap K E cmp → Prop
  | single (d : Std.ExtTreeMap K E cmp) : Bundle R [d] d
  | merge {ds es : List (Std.ExtTreeMap K E cmp)} {d e f : Std.ExtTreeMap K E cmp} (hd : Bundle R ds d)
      (he : Bundle R es e) (h : R.mergeDeltas d e = .ok f) : Bundle R (ds ++ es) f

/-! ### What was received -/

/-- At every key the entries of a table or a delta are the newest of what it stands for. -/
structure Covers (R : Rules O K E) (entries : Std.ExtTreeMap K E cmp) (got : List (Std.ExtTreeMap K E cmp)) :
    Prop where
  received : ∀ (k : K) (x : E), entries[k]? = some x → ∃ d ∈ got, d[k]? = some x
  newest : ∀ d ∈ got, ∀ (k : K) (x : E), d[k]? = some x → ∃ y, entries[k]? = some y ∧ R.tag x ≤ R.tag y

end Rules

open Rules

omit [DecidableEq K] in
theorem le_later (current : Option E) (x : E) :
    ∃ y, R.later current x = some y ∧ R.tag x ≤ R.tag y ∧ ∀ z, current = some z → R.tag z ≤ R.tag y := by
  unfold Rules.later Rules.wins
  cases current with
  | none => exact ⟨x, rfl, le_rfl, by simp⟩
  | some z =>
    by_cases hlt : R.tag z < R.tag x
    · exact ⟨x, by simp [hlt], le_rfl, fun w hw => Option.some.inj hw ▸ hlt.le⟩
    · exact ⟨z, by simp [hlt], not_lt.mp hlt, fun w hw => Option.some.inj hw ▸ le_rfl⟩

omit [Std.LawfulEqCmp cmp] [DecidableEq K] in
theorem Rules.Covers.join (hd : R.Covers d ds) (he : R.Covers e es)
    (hf : ∀ k : K, f[k]? = e[k]?.elim d[k]? (R.later d[k]?)) : R.Covers f (ds ++ es) := by
  refine ⟨fun k x hx => ?_, fun g hg k x hx => ?_⟩
  · rw [hf] at hx
    cases hk : e[k]? with
    | none =>
      obtain ⟨g, hg, hgk⟩ := hd.received k x (by simpa [hk] using hx)
      exact ⟨g, mem_append_left _ hg, hgk⟩
    | some incoming =>
      rw [hk] at hx
      rcases later_cases hx with rfl | hx
      · obtain ⟨g, hg, hgk⟩ := he.received k x hk
        exact ⟨g, mem_append_right _ hg, hgk⟩
      · obtain ⟨g, hg, hgk⟩ := hd.received k x hx
        exact ⟨g, mem_append_left _ hg, hgk⟩
  rw [hf]
  rcases mem_append.mp hg with hg | hg
  · obtain ⟨y, hy, hle⟩ := hd.newest g hg k x hx
    cases hk : e[k]? with
    | none => exact ⟨y, hy, hle⟩
    | some incoming =>
      obtain ⟨z, hz, -, hcur⟩ := le_later (R := R) d[k]? incoming
      exact ⟨z, hz, hle.trans (hcur y hy)⟩
  obtain ⟨y, hy, hle⟩ := he.newest g hg k x hx
  obtain ⟨z, hz, hyz, -⟩ := le_later (R := R) d[k]? y
  exact ⟨z, by rw [hy]; exact hz, hle.trans hyz⟩

theorem Rules.Bundle.covers (h : R.Bundle ds d) : R.Covers d ds := by
  induction h with
  | single d => exact ⟨fun k x hx => ⟨d, by simp, hx⟩, by simpa using fun k x hx => ⟨x, hx, le_rfl⟩⟩
  | merge _ _ hm ihd ihe => exact ihd.join ihe (mergeDeltas_spec hm).2

theorem Rules.Bundle.valid (h : R.Bundle ds d) (hds : ∀ x ∈ ds, R.Valid x) : R.Valid d := by
  cases h with
  | single d => exact hds d (mem_singleton_self d)
  | merge _ _ hm => exact (mergeDeltas_spec hm).1

/-- A table and the deltas that went into it, by whatever way. -/
inductive Rules.Delivered (R : Rules O K E) : List (Std.ExtTreeMap K E cmp) → Table O cmp E → Prop
  | fresh {t : Table O cmp E} (hi : R.Indexed t) (h : t.entries = ∅) : Delivered R [] t
  | write {got : List (Std.ExtTreeMap K E cmp)} {t t' : Table O cmp E} {w : R.Write} {d : Std.ExtTreeMap K E cmp}
      {millis : Int64} (ht : Delivered R got t) (h : R.write t w millis = (t', .ok d)) :
    Delivered R (got ++ [d]) t'
  | apply {got ds : List (Std.ExtTreeMap K E cmp)} {t t' : Table O cmp E} {d : Std.ExtTreeMap K E cmp}
      {millis : Int64} (ht : Delivered R got t) (hd : R.Bundle ds d) (h : R.apply t d millis = (t', .ok ())) :
    Delivered R (got ++ ds) t'
  | merge {got got' : List (Std.ExtTreeMap K E cmp)} {t t' other : Table O cmp E} {millis : Int64}
      (ht : Delivered R got t) (ho : Delivered R got' other)
      (h : R.apply t other.entries millis = (t', .ok ())) : Delivered R (got ++ got') t'
  | refused {got : List (Std.ExtTreeMap K E cmp)} {t : Table O cmp E} {c : R.Call cmp} {err : Err}
      {millis : Int64} (ht : Delivered R got t) (h : (R.call t c millis).2 = .error err) :
    Delivered R got (R.call t c millis).1

theorem applied_of_ok (h : R.apply t d millis = (t', .ok ())) : R.Applied t d t' := by
  rcases apply_cases t d millis with ⟨t'', he, ha⟩ | ⟨err, he, -⟩
  · rw [h] at he
    cases he
    exact ha
  · rw [h] at he
    cases he

theorem applied_of_write (hi : R.Indexed t) {w : R.Write} (h : R.write t w millis = (t', .ok d)) :
    R.Applied t d t' := by
  rcases write_cases hi w millis with ⟨t'', d', he, ha⟩ | ⟨clock, err, he, -⟩
  · rw [h] at he
    cases he
    exact ha
  · rw [h] at he
    cases he

theorem Rules.Delivered.spec (h : R.Delivered got t) : R.Indexed t ∧ R.Covers t.entries got := by
  induction h with
  | fresh hi h =>
    refine ⟨hi, ?_, by simp⟩
    simp [h]
  | write _ hw ih =>
    have ha := applied_of_write ih.1 hw
    exact ⟨ih.1.applied ha, ih.2.join (Bundle.single _).covers ha.entries⟩
  | apply _ hd happ ih =>
    have ha := applied_of_ok happ
    exact ⟨ih.1.applied ha, ih.2.join hd.covers ha.entries⟩
  | merge _ _ hmerge iht iho =>
    have ha := applied_of_ok hmerge
    exact ⟨iht.1.applied ha, iht.2.join iho.2 ha.entries⟩
  | @refused got t c err millis _ hr ih =>
    obtain ⟨hi, hok | ⟨he, -⟩⟩ := call_spec ih.1 c millis
    · rw [hr] at hok
      cases hok
    · rw [he]
      exact ⟨hi, ih.2⟩

/-! ### One write for a tag -/

/-- Each tag belongs to one key and to one write. -/
def Rules.OneEntry (R : Rules O K E) (got : List (Std.ExtTreeMap K E cmp)) : Prop :=
  ∀ d ∈ got, ∀ d' ∈ got, ∀ (k k' : K) (x x' : E), d[k]? = some x → d'[k']? = some x' →
    R.tag x = R.tag x' → k = k' ∧ x = x'

/-- The entry of the greatest tag at a key. -/
def Rules.Greatest (R : Rules O K E) (got : List (Std.ExtTreeMap K E cmp)) (k : K) (x : E) : Prop :=
  (∃ d ∈ got, d[k]? = some x) ∧ ∀ d ∈ got, ∀ x' : E, d[k]? = some x' → R.tag x' ≤ R.tag x

theorem Rules.OneEntry.pair (k : K) (x x' : E) (htag : R.tag x ≠ R.tag x') :
    R.OneEntry [(∅ : Std.ExtTreeMap K E cmp).insert k x, (∅ : Std.ExtTreeMap K E cmp).insert k x'] := by
  intro d hd d' hd' a a' y y' hy hy' he
  simp only [mem_cons, not_mem_nil, or_false] at hd hd'
  rcases hd with rfl | rfl <;> rcases hd' with rfl | rfl <;>
    rw [getElem?_single] at hy hy' <;> split_ifs at hy with ha <;> split_ifs at hy' with ha' <;>
    cases hy <;> cases hy'
  · exact ⟨ha.symm.trans ha', rfl⟩
  · exact absurd he htag
  · exact absurd he.symm htag
  · exact ⟨ha.symm.trans ha', rfl⟩

theorem Rules.Greatest.pair (k : K) (x x' : E) (h : R.tag x' ≤ R.tag x) :
    R.Greatest [(∅ : Std.ExtTreeMap K E cmp).insert k x, (∅ : Std.ExtTreeMap K E cmp).insert k x'] k x := by
  refine ⟨⟨_, mem_cons_self .., by rw [getElem?_single, if_pos rfl]⟩, fun d hd y hy => ?_⟩
  simp only [mem_cons, not_mem_nil, or_false] at hd
  rcases hd with rfl | rfl <;> rw [getElem?_single, if_pos rfl] at hy <;> cases hy
  · exact le_rfl
  · exact h

omit [Std.LawfulEqCmp cmp] [DecidableEq K] in
theorem Rules.Covers.greatest_iff (h : R.Covers d got) (hone : R.OneEntry got) (k : K) (x : E) :
    d[k]? = some x ↔ R.Greatest got k x := by
  constructor
  · intro hx
    refine ⟨h.received k x hx, fun g hg x' hx' => ?_⟩
    obtain ⟨y, hy, hle⟩ := h.newest g hg k x' hx'
    rw [hx] at hy
    cases hy
    exact hle
  rintro ⟨⟨g, hg, hx⟩, hmax⟩
  obtain ⟨y, hy, hle⟩ := h.newest g hg k x hx
  obtain ⟨g', hg', hy'⟩ := h.received k y hy
  have htag : R.tag x = R.tag y := le_antisymm hle (hmax g' hg' y hy')
  rw [hy, (hone g hg g' hg' k k x y hx hy' htag).2]

section
variable (hone : R.OneEntry (ds ++ es)) (hd : R.Covers d ds) (he : R.Covers e es)
include hone hd he

omit [Std.LawfulEqCmp cmp] [DecidableEq K] in
theorem Rules.OneEntry.agree {k k' : K}
    {x x' : E} (hx : d[k]? = some x) (hx' : e[k']? = some x') (htag : R.tag x = R.tag x') :
    k = k' ∧ x = x' := by
  obtain ⟨g, hg, hgx⟩ := hd.received k x hx
  obtain ⟨g', hg', hgx'⟩ := he.received k' x' hx'
  exact hone g (mem_append_left _ hg) g' (mem_append_right _ hg') k k' x x' hgx hgx' htag

omit [DecidableEq K] in
theorem Rules.OneEntry.no_conflict
    {p : K × E} (hp : p ∈ e.toList) : (d[p.1]?).any (R.conflict · p.2) = false := by
  cases hx : d[p.1]? with
  | none => rfl
  | some x =>
    rw [Option.any_some, ← Bool.not_eq_true]
    intro hc
    have hxp := (hone.agree hd he hx (mem_toList.mp hp) (R.tag_of_conflict hc)).2
    rw [hxp, R.conflict_self] at hc
    cases hc

end

/-- What the limits of a table leave room for. -/
structure Rules.Within (R : Rules O K E) (t : Table O cmp E) (entries : Std.ExtTreeMap K E cmp) : Prop where
  fits : R.allows t.options entries = .ok ()
  room : (t.entries.size : Int) + newEntries entries t.entries ≤ R.maxEntries t.options

section
variable (ht : R.Delivered got t) (hd : R.Covers d ds) (hone : R.OneEntry (got ++ ds)) (hv : R.Valid d)
  (hw : R.Within t d)
include ht hd hone hv hw

theorem Rules.Delivered.accepts : R.Accepts t d := by
  obtain ⟨hi, hc⟩ := ht.spec
  refine ⟨hv, hw.fits, tagsCompatible_iff.mpr fun p hp k hk => ?_, ?_, hw.room⟩
  · obtain ⟨x, hx, htag⟩ := (hi.index (R.tag p.2) k).mp hk
    exact (hone.agree hc hd hx (mem_toList.mp hp) htag).1
  rw [any_eq_false]
  intro p hp
  rw [Bool.not_eq_true]
  exact hone.no_conflict hc hd hp

theorem Rules.Delivered.apply_total (millis : Int64) :
    (R.apply t d millis).2 = .ok () ∨ ∃ err, (R.apply t d millis).2 = .error (.clock err) := by
  rcases apply_cases t d millis with ⟨t', he, -⟩ | ⟨err, he, hclock⟩
  · exact .inl (by rw [he])
  · obtain ⟨e, rfl⟩ := hclock (ht.accepts hd hone hv hw)
    exact .inr ⟨e, by rw [he]⟩

end

omit [Std.LawfulEqCmp cmp] [DecidableEq K] in
theorem Rules.Covers.valid (h : R.Covers d ds) (hone : R.OneEntry ds) (hds : ∀ x ∈ ds, R.Valid x) : R.Valid d := by
  refine ⟨fun k x hx => ?_, fun k k' x x' hx hx' htag => ?_⟩
  · obtain ⟨g, hg, hgx⟩ := h.received k x hx
    exact (hds g hg).wellFormed k x hgx
  obtain ⟨g, hg, hgx⟩ := h.received k x hx
  obtain ⟨g', hg', hgx'⟩ := h.received k' x' hx'
  exact (hone g hg g' hg' k k' x x' hgx hgx' htag).1

theorem mergeDeltas_total (hd : R.Bundle ds d) (he : R.Bundle es e) (hone : R.OneEntry (ds ++ es))
    (hvalid : ∀ x ∈ ds ++ es, R.Valid x) : ∃ f, R.mergeDeltas d e = .ok f := by
  have hvd : R.Valid d := hd.valid fun x hx => hvalid x (mem_append_left _ hx)
  have hve : R.Valid e := he.valid fun x hx => hvalid x (mem_append_right _ hx)
  obtain ⟨f, hf⟩ := mergeEntries_total (nodup_keys_toList e) fun p hp =>
    hone.no_conflict hd.covers he.covers hp
  have hcovers : R.Covers f (ds ++ es) := hd.covers.join he.covers fun k => by
    rw [mergeEntries_ok hf, getElem?_foldl_wins]
  refine ⟨f, ?_⟩
  unfold Rules.mergeDeltas
  rw [validate_iff.mpr hvd, validate_iff.mpr hve]
  simp only [hf, validate_iff.mpr (hcovers.valid hone hvalid)]

end Crdt.Lww
