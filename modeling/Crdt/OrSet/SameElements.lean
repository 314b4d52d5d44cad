import Crdt.OrSet.Collection

/-! The same run with and without collection.

A merge that brings a collected tombstone back moves the clock, so the two runs need not issue the
same tags. They issue them for the same elements, one after the other, and so every tag of one run
has its partner in the other (`Paired`). Deltas and states of the two runs that were made by the same
calls then have the same tags live, up to partners, and all their tombstones that are not
collected (`Matches`). -/
namespace Crdt.OrSet

open Clock Gc List

variable {ι T : Type}

/-! ### Partners -/

/-- Two tags that were issued at the same place of two runs, for the same element. -/
def Paired (l l' : List (T × Tag)) (e : T) (t t' : Tag) : Prop :=
  ∃ n : Nat, l[n]? = some (e, t) ∧ l'[n]? = some (e, t')

variable {l l' : List (T × Tag)} {e a : T} {t t' u u' : Tag} {p p' : T × Tag}

theorem index_eq_of_nodup (hl : (l.map (·.2)).Nodup) {n m : Nat} (hn : l[n]? = some (e, t))
    (hm : l[m]? = some (a, t)) : n = m := by
  have hlt : n < (l.map (·.2)).length := by
    rw [length_map]
    exact (List.getElem?_eq_some_iff.mp hn).1
  refine (getElem?_inj hlt hl).mp ?_
  rw [getElem?_map, getElem?_map, hn, hm]
  rfl

theorem Paired.right_unique (hl : (l.map (·.2)).Nodup) (h : Paired l l' e t t') (h' : Paired l l' a t u') :
    t' = u' := by
  obtain ⟨n, hn, hn'⟩ := h
  obtain ⟨m, hm, hm'⟩ := h'
  rw [index_eq_of_nodup hl hn hm, hm'] at hn'
  cases hn'
  rfl

theorem Paired.symm (h : Paired l l' e t t') : Paired l' l e t' t := by
  obtain ⟨n, hn, hn'⟩ := h
  exact ⟨n, hn', hn⟩

theorem Paired.append (h : Paired l l' e t t') : Paired (l ++ [p]) (l' ++ [p']) e t t' := by
  obtain ⟨n, hn, hn'⟩ := h
  refine ⟨n, ?_, ?_⟩
  · rw [getElem?_append_left (List.getElem?_eq_some_iff.mp hn).1]
    exact hn
  · rw [getElem?_append_left (List.getElem?_eq_some_iff.mp hn').1]
    exact hn'

theorem paired_last (hlen : l.length = l'.length) : Paired (l ++ [(e, t)]) (l' ++ [(e, t')]) e t t' := by
  refine ⟨l.length, ?_, ?_⟩
  · rw [getElem?_concat_length]
  · rw [hlen, getElem?_concat_length]

/-! ### States and deltas of the two runs -/

variable [LinearOrder T]

/-- The same but for partners, and for the tombstones that are collected. -/
structure Matches (l l' : List (T × Tag)) (collected : List Tag) (d d' : ORSetDelta T) : Prop where
  live : ∀ {e t}, Live d.adds e t → ∃ t', Paired l l' e t t' ∧ Live d'.adds e t'
  live' : ∀ {e t'}, Live d'.adds e t' → ∃ t, Paired l l' e t t' ∧ Live d.adds e t
  buried : ∀ {t}, t ∈ d.tombstones → ∃ e t', Paired l l' e t t' ∧ t' ∈ d'.tombstones
  buried' : ∀ {t'}, t' ∈ d'.tombstones → ∃ e t, Paired l l' e t t' ∧ (t ∈ d.tombstones ∨ t ∈ collected)

variable {collected : List Tag} {d d' b b' c c' : ORSetDelta T}

theorem Matches.append (h : Matches l l' collected d d') : Matches (l ++ [p]) (l' ++ [p']) collected d d' := by
  refine ⟨fun hl => ?_, fun hl => ?_, fun ht => ?_, fun ht => ?_⟩
  · obtain ⟨t', hp, hl'⟩ := h.live hl
    exact ⟨t', hp.append, hl'⟩
  · obtain ⟨t, hp, hl'⟩ := h.live' hl
    exact ⟨t, hp.append, hl'⟩
  · obtain ⟨e, t', hp, ht'⟩ := h.buried ht
    exact ⟨e, t', hp.append, ht'⟩
  · obtain ⟨e, t, hp, ht'⟩ := h.buried' ht
    exact ⟨e, t, hp.append, ht'⟩

theorem Matches.joins (hl : (l.map (·.2)).Nodup) (hl' : (l'.map (·.2)).Nodup)
    (h : Matches l l' collected d d') (hb : Matches l l' collected b b')
    (hj : Joins d.adds d.tombstones b.adds b.tombstones c.adds c.tombstones)
    (hj' : Joins d'.adds d'.tombstones b'.adds b'.tombstones c'.adds c'.tombstones)
    (hdead : ∀ t ∈ collected, ∀ e, ¬Live d.adds e t ∧ ¬Live b.adds e t) : Matches l l' collected c c' := by
  have hlive : ∀ {e t}, Live d.adds e t ∨ Live b.adds e t →
      ∃ t', Paired l l' e t t' ∧ (Live d'.adds e t' ∨ Live b'.adds e t') := by
    rintro e t (ht | ht)
    · exact (h.live ht).imp fun _ => .imp_right .inl
    · exact (hb.live ht).imp fun _ => .imp_right .inr
  have hlive' : ∀ {e t'}, Live d'.adds e t' ∨ Live b'.adds e t' →
      ∃ t, Paired l l' e t t' ∧ (Live d.adds e t ∨ Live b.adds e t) := by
    rintro e t' (ht | ht)
    · exact (h.live' ht).imp fun _ => .imp_right .inl
    · exact (hb.live' ht).imp fun _ => .imp_right .inr
  have hburied : ∀ {t}, t ∈ c.tombstones → ∃ e t', Paired l l' e t t' ∧ t' ∈ c'.tombstones := by
    intro t ht
    simp only [hj'.tombstones]
    rcases (hj.tombstones t).mp ht with ht | ht
    · exact (h.buried ht).imp fun _ => .imp fun _ => .imp_right .inl
    · exact (hb.buried ht).imp fun _ => .imp fun _ => .imp_right .inr
  have hburied' : ∀ {t'}, t' ∈ c'.tombstones →
      ∃ e t, Paired l l' e t t' ∧ (t ∈ c.tombstones ∨ t ∈ collected) := by
    intro t' ht
    simp only [hj.tombstones]
    rcases (hj'.tombstones t').mp ht with ht | ht
    · exact (h.buried' ht).imp fun _ => .imp fun _ => .imp_right (.imp_left .inl)
    · exact (hb.buried' ht).imp fun _ => .imp fun _ => .imp_right (.imp_left .inr)
  refine ⟨fun {e t} ht => ?_, fun {e t'} ht => ?_, hburied, hburied'⟩
  · obtain ⟨ht, hunburied⟩ := (hj.live e t).mp ht
    obtain ⟨t', hp, ht'⟩ := hlive ht
    refine ⟨t', hp, (hj'.live e t').mpr ⟨ht', fun hgone => ?_⟩⟩
    obtain ⟨a, u, hp', hu⟩ := hburied' hgone
    rw [← hp.symm.right_unique hl' hp'.symm] at hu
    exact hu.elim hunburied fun hc => ht.elim (hdead t hc e).1 (hdead t hc e).2
  · obtain ⟨ht, hunburied⟩ := (hj'.live e t').mp ht
    obtain ⟨t, hp, ht'⟩ := hlive' ht
    refine ⟨t, hp, (hj.live e t).mpr ⟨ht', fun hgone => ?_⟩⟩
    obtain ⟨a, u', hp', hu'⟩ := hburied hgone
    rw [← hp.right_unique hl hp'] at hu'
    exact hunburied hu'

theorem Matches.collect {tombstones : TagSet} {removed : List Tag} (h : Matches l l' collected d d')
    (hkept : ∀ t, t ∈ tombstones → t ∈ d.tombstones)
    (hremoved : ∀ t, t ∈ d.tombstones → t ∈ tombstones ∨ t ∈ removed) :
    Matches l l' (collected ++ removed) {d with tombstones} d' := by
  refine ⟨h.live, h.live', fun ht => h.buried (hkept _ ht), fun ht => ?_⟩
  obtain ⟨e, t, hp, ht'⟩ := h.buried' ht
  refine ⟨e, t, hp, ?_⟩
  rcases ht' with ht' | ht'
  · exact (hremoved t ht').imp_right (mem_append_right _)
  · exact .inr (mem_append_left _ ht')

/-! ### Groups of the two runs -/

namespace Group

/-- A group, and the one that has made the same calls without collecting. -/
structure Alike (g v : Group ι T) : Prop where
  codecs : ∀ i, (v.sets i).codecID = (g.sets i).codecID
  issued : g.issued.length = v.issued.length
  sets : ∀ i, Matches g.issued v.issued g.collected (g.sets i).view (v.sets i).view
  deltas_length : g.deltas.length = v.deltas.length
  deltas : ∀ {n d d'}, g.retired ≤ n → g.deltas[n]? = some d → v.deltas[n]? = some d' →
    Matches g.issued v.issued g.collected d d'
  retired : v.retired = 0

variable {g v : Group ι T} {i : ι} {s s' : ORSet T} {millis : Int64}

theorem Alike.delta (h : Alike g v) (hd : Matches g.issued v.issued g.collected d d') :
    Alike {g with deltas := g.deltas ++ [d]} {v with deltas := v.deltas ++ [d']} := by
  refine ⟨h.codecs, h.issued, h.sets, ?_, fun {n b b'} hn hb hb' => ?_, h.retired⟩
  · simp [h.deltas_length]
  rw [getElem?_append] at hb hb'
  rw [← h.deltas_length] at hb'
  split_ifs at hb hb' with hlt
  · exact h.deltas hn hb hb'
  rw [getElem?_singleton] at hb hb'
  split_ifs at hb hb'
  cases hb
  cases hb'
  exact hd

theorem Alike.issue (h : Alike g v) (e : T) (t t' : Tag) :
    Alike {g with issued := g.issued ++ [(e, t)]} {v with issued := v.issued ++ [(e, t')]} := by
  refine ⟨h.codecs, ?_, fun i => (h.sets i).append, h.deltas_length, fun hn hd hd' => (h.deltas hn hd hd').append,
    h.retired⟩
  simp [h.issued]

variable [DecidableEq ι]

theorem Alike.joins (h : Alike g v) (hg : (g.issued.map (·.2)).Nodup) (hv : (v.issued.map (·.2)).Nodup)
    (hd : Matches g.issued v.issued g.collected d d')
    (hj : Joins (g.sets i).elements (g.sets i).tombstones d.adds d.tombstones s.elements s.tombstones)
    (hj' : Joins (v.sets i).elements (v.sets i).tombstones d'.adds d'.tombstones s'.elements s'.tombstones)
    (hm : Moves (g.sets i) s) (hm' : Moves (v.sets i) s')
    (hdead : ∀ t ∈ g.collected, ∀ e, ¬Live (g.sets i).elements e t ∧ ¬Live d.adds e t) :
    Alike (g.put i s) (v.put i s') := by
  refine ⟨fun k => ?_, h.issued, fun k => ?_, h.deltas_length, h.deltas, h.retired⟩
  · rw [put_sets, put_sets]
    split_ifs
    · rw [hm.codecID_eq, hm'.codecID_eq, h.codecs]
    · exact h.codecs k
  rw [put_sets, put_sets]
  split_ifs
  · exact (h.sets i).joins hg hv hd hj hj' hdead
  · exact h.sets k

section
variable (h : Alike g v) (hg : g.Sound)
include h hg

section
variable (hv : v.Sound)
include hv

theorem Alike.outcome {p p' : ORSet T × Except Err Unit}
    (hd : Matches g.issued v.issued g.collected d d') (hdead : ∀ t ∈ g.collected, ∀ e, ¬Live d.adds e t)
    (hp : Outcome (g.sets i) d millis p) (hp' : Outcome (v.sets i) d' millis p')
    (hleft : 0 ≤ millis → p.2 ≠ .error (.clock .clockExhausted))
    (hleft' : 0 ≤ millis → p'.2 ≠ .error (.clock .clockExhausted)) : Alike (g.put i p.1) (v.put i p'.1) := by
  by_cases hneg : millis < 0
  · have hsame : p.1 = g.sets i := by
      cases hp with
      | joined _ _ hsame => exact hsame hneg
      | exhausted => rfl
    have hsame' : p'.1 = v.sets i := by
      cases hp' with
      | joined _ _ hsame => exact hsame hneg
      | exhausted => rfl
    rw [hsame, hsame', put_self, put_self]
    exact h
  have hnonneg := Int64.not_lt.mp hneg
  cases hp with
  | exhausted => exact absurd rfl (hleft hnonneg)
  | joined hj hm _ =>
    cases hp' with
    | exhausted => exact absurd rfl (hleft' hnonneg)
    | joined hj' hm' _ =>
      exact h.joins hg.nodup hv.nodup hd hj hj' hm hm' fun t ht e => ⟨(hg.dead t ht).sets i e, hdead t ht e⟩

theorem Alike.add (i : ι) (e : T) (millis : Int64)
    (hleft : ¬Exhausted (.add i e millis, (g.step (.add i e millis)).2))
    (hleft' : ¬Exhausted (.add i e millis, (v.step (.add i e millis)).2)) :
    Alike (g.step (.add i e millis)).1 (v.step (.add i e millis)).1 := by
  rcases hg.step_add i e millis with hstep | ⟨t, s, d, hnonneg, hfresh, htakes, hstep⟩ <;>
    rcases hv.step_add i e millis with hstep' | ⟨t', s', d', hnonneg', hfresh', htakes', hstep'⟩ <;>
    rw [hstep] at hleft ⊢ <;> rw [hstep'] at hleft' ⊢
  · exact h
  · exact absurd ⟨rfl, Int64.not_lt.mp hnonneg'⟩ hleft
  · exact absurd ⟨rfl, Int64.not_lt.mp hnonneg⟩ hleft'
  have hdelta : Matches (g.issued ++ [(e, t)]) (v.issued ++ [(e, t')]) g.collected d d' := by
    refine ⟨fun {a u} hl => ?_, fun {a u} hl => ?_, fun {u} hu => ?_, fun {u} hu => ?_⟩
    · obtain ⟨rfl, rfl⟩ := htakes.live.mp hl
      exact ⟨t', paired_last h.issued, htakes'.live.mpr ⟨rfl, rfl⟩⟩
    · obtain ⟨rfl, rfl⟩ := htakes'.live.mp hl
      exact ⟨t, paired_last h.issued, htakes.live.mpr ⟨rfl, rfl⟩⟩
    · rw [htakes.tombstones] at hu
      simp at hu
    · rw [htakes'.tombstones] at hu
      simp at hu
  have hdead : ∀ u ∈ g.collected, ∀ a, ¬Live (g.sets i).elements a u ∧ ¬Live d.adds a u := by
    refine fun u hu a => ⟨(hg.dead u hu).sets i a, fun hl => ?_⟩
    obtain ⟨a', ha'⟩ := (hg.dead u hu).issued
    exact hfresh _ ha' (htakes.live.mp hl).2
  exact ((h.issue e t t').joins (hg.takes hfresh htakes).nodup (hv.takes hfresh' htakes').nodup hdelta
    htakes.joins htakes'.joins htakes.moves htakes'.moves hdead).delta hdelta

theorem Alike.remove (i : ι) (e : T) : Alike (g.step (.remove i e)).1 (v.step (.remove i e)).1 := by
  have hb := hg.remove i e
  have hb' := hv.remove i e
  have hdelta : Matches g.issued v.issued g.collected ((g.sets i).remove e).2 ((v.sets i).remove e).2 := by
    refine ⟨fun hl => absurd hl hb.live, fun hl => absurd hl hb'.live, fun ht => ?_, fun ht => ?_⟩
    · obtain ⟨t', hp, hl⟩ := (h.sets i).live (hb.tombstones.mp ht)
      exact ⟨e, t', hp, hb'.tombstones.mpr hl⟩
    · obtain ⟨t, hp, hl⟩ := (h.sets i).live' (hb'.tombstones.mp ht)
      exact ⟨e, t, hp, .inl (hb.tombstones.mpr hl)⟩
  exact (h.joins hg.nodup hv.nodup hdelta hb.joins hb'.joins hb.moves hb'.moves fun t ht a =>
    ⟨(hg.dead t ht).sets i a, hb.live⟩).delta hdelta

theorem Alike.merge (i j : ι) (millis : Int64)
    (hleft : ¬Exhausted (T := T) (.merge i j millis, (g.step (.merge i j millis)).2))
    (hleft' : ¬Exhausted (T := T) (.merge i j millis, (v.step (.merge i j millis)).2)) :
    Alike (g.step (.merge i j millis)).1 (v.step (.merge i j millis)).1 := by
  rw [Group.step] at hleft hleft' ⊢
  rw [Group.step]
  dsimp only at hleft hleft' ⊢
  rcases hg.merge_cases i j millis with ⟨hc, hmerge⟩ | ⟨hc, hmerge⟩ <;>
    rcases hv.merge_cases i j millis with ⟨hc', hmerge'⟩ | ⟨hc', hmerge'⟩
  · rw [hmerge, hmerge', put_self, put_self]
    exact h
  · rw [h.codecs, h.codecs] at hc'
    exact absurd hc' hc
  · rw [h.codecs, h.codecs] at hc'
    exact absurd hc hc'
  refine h.outcome hg hv (h.sets j) (fun t ht e => (hg.dead t ht).sets j e) hmerge hmerge' ?_ ?_
  · exact fun hnonneg herr => hleft ⟨congrArg errorOf herr, hnonneg⟩
  · exact fun hnonneg herr => hleft' ⟨congrArg errorOf herr, hnonneg⟩

theorem Alike.deliver (i : ι) (n : Nat) (millis : Int64)
    (hretired : g.retired ≤ n) (hleft : ¬Exhausted (T := T) (.deliver i n millis, (g.step (.deliver i n millis)).2))
    (hleft' : ¬Exhausted (T := T) (.deliver i n millis, (v.step (.deliver i n millis)).2)) :
    Alike (g.step (.deliver i n millis)).1 (v.step (.deliver i n millis)).1 := by
  rw [Group.step] at hleft hleft' ⊢
  rw [Group.step]
  cases hd : g.deltas[n]? with
  | none =>
    have hd' : v.deltas[n]? = none := by
      rw [List.getElem?_eq_none_iff, ← h.deltas_length]
      exact List.getElem?_eq_none_iff.mp hd
    rw [hd']
    exact h
  | some d =>
    have hlt : n < v.deltas.length := h.deltas_length ▸ (List.getElem?_eq_some_iff.mp hd).1
    have hd' := getElem?_eq_getElem hlt
    rw [hd] at hleft
    rw [hd'] at hleft' ⊢
    have hvalid := (hg.deltas _ (mem_of_getElem? hd)).2
    have hvalid' := (hv.deltas _ (mem_of_getElem? hd')).2
    refine h.outcome hg hv (h.deltas hretired hd hd') (fun t ht e => (hg.dead t ht).deltas n d hretired hd e)
      (applyDelta_outcome (hg.apart i) hvalid millis) (applyDelta_outcome (hv.apart i) hvalid' millis) ?_ ?_
    · exact fun hnonneg herr => hleft ⟨congrArg errorOf herr, hnonneg⟩
    · exact fun hnonneg herr => hleft' ⟨congrArg errorOf herr, hnonneg⟩

end

theorem Alike.collect (n : Nat) (target : ι) : Alike (g.step (.collect n target)).1 v := by
  rw [Group.step]
  cases hn : g.reports[n]? with
  | none => exact h
  | some p =>
    have hcollects := acknowledgeAndCompactTarget_spec hg.tallied g.coordinator.groupID (g.name p.1)
      g.coordinator.epoch p.2 (g.sets target)
    dsimp only
    generalize acknowledgeAndCompactTarget g.coordinator g.coordinator.groupID (g.name p.1) g.coordinator.epoch p.2
      (g.sets target) = result at hcollects ⊢
    obtain ⟨c, s, res⟩ := result
    dsimp only at hcollects ⊢
    have hremoved : ∀ t, t ∈ (g.sets target).tombstones → t ∈ s.tombstones ∨
        t ∈ (g.sets target).tombstoneTags.filter fun tag => !s.tombstones.contains tag := by
      intro t ht
      rw [List.mem_filter, Bool.not_eq_true', TagSet.contains_eq_false]
      exact or_iff_not_imp_left.mpr fun hs => ⟨Std.ExtTreeSet.mem_toList.mpr ht, hs⟩
    refine ⟨fun k => ?_, h.issued, fun k => ?_, h.deltas_length, fun {m d d'} hm hd hd' => ?_, h.retired⟩
    · dsimp only
      rw [put_sets]
      split_ifs with hk
      · rw [hk, hcollects.same, h.codecs]
      · exact h.codecs k
    · dsimp only
      rw [put_sets]
      split_ifs with hk
      · rw [hk, hcollects.same]
        exact (h.sets target).collect hcollects.kept hremoved
      · exact (h.sets k).collect (fun _ => id) fun _ => .inl
    dsimp only at hm
    split_ifs at hm with hempty
    · exact (h.deltas hm hd hd').collect (fun _ => id) fun _ => .inl
    · rw [put, getElem?_eq_none hm] at hd
      cases hd

theorem Alike.step (hv : v.Sound) (call : Call ι T) (hcall : call.collects = false)
    (hretired : ∀ i n millis, call = .deliver i n millis → g.retired ≤ n)
    (hleft : ¬Exhausted (call, (g.step call).2)) (hleft' : ¬Exhausted (call, (v.step call).2)) :
    Alike (g.step call).1 (v.step call).1 := by
  cases call with
  | add i e millis => exact h.add hg hv i e millis hleft hleft'
  | remove i e => exact h.remove hg hv i e
  | merge i j millis => exact h.merge hg hv i j millis hleft hleft'
  | deliver i n millis => exact h.deliver hg hv i n millis (hretired i n millis rfl) hleft hleft'
  | collect n target => cases hcall
  | report i => exact {h with}
  | acknowledge n =>
    rw [Group.step, Group.step]
    split <;> split <;> exact {h with}
  | prune tags => exact {h with}

theorem Alike.run (hv : v.Sound) {calls : List (Call ι T)} (hd : g.Disciplined calls)
    (hleft : ∀ p ∈ (g.run calls).2, ¬Exhausted p)
    (hleft' : ∀ p ∈ (v.run (withoutCollection calls)).2, ¬Exhausted p) :
    Alike (g.run calls).1 (v.run (withoutCollection calls)).1 := by
  induction calls generalizing g v with
  | nil => exact h
  | cons call rest ih =>
    obtain ⟨hfirst, hrest⟩ := forall_mem_cons.mp hleft
    have hg' := hg.step call hd.1
    cases hcall : call.collects with
    | true =>
      cases call with
      | collect n target => exact ih (h.collect hg n target) hg' hv hd.2 hrest hleft'
      | _ => cases hcall
    | false =>
      have hkeep : withoutCollection (call :: rest) = call :: withoutCollection rest :=
        filter_cons_of_pos (by simp [hcall])
      rw [hkeep] at hleft' ⊢
      obtain ⟨hfirst', hrest'⟩ := forall_mem_cons.mp hleft'
      have hv' := hv.step call fun i n millis _ => by rw [h.retired]; exact Nat.zero_le n
      exact ih (h.step hg hv call hcall hd.1 hfirst hfirst') hg' hv' hd.2 hrest hrest'

end

omit [DecidableEq ι] in
theorem alike_of_founded (h : Founded g) : Alike g g := by
  have hdeltas : g.deltas = [] := congrArg Group.deltas h.blank
  refine ⟨fun _ => rfl, rfl, fun i => ?_, rfl, fun _ hd _ => ?_, congrArg Group.retired h.blank⟩
  · obtain ⟨state, codecID, hset⟩ := h.sets i
    obtain ⟨helements, htombs, -⟩ := newORSetFromClock_ok hset
    unfold ORSet.view
    rw [helements, htombs]
    exact ⟨fun hl => absurd hl not_live_empty, fun hl => absurd hl not_live_empty, by simp, by simp⟩
  · rw [hdeltas] at hd
    cases hd

omit [DecidableEq ι] in
/-- What members see does not depend on collection. -/
theorem Alike.visible (h : Alike g v) (i : ι) (e : T) :
    (∃ t, Live (g.sets i).elements e t) ↔ ∃ t, Live (v.sets i).elements e t := by
  constructor
  · intro ⟨t, hl⟩
    obtain ⟨t', -, hl'⟩ := (h.sets i).live hl
    exact ⟨t', hl'⟩
  intro ⟨t', hl'⟩
  obtain ⟨t, -, hl⟩ := (h.sets i).live' hl'
  exact ⟨t, hl⟩

theorem retired_step (g : Group ι T) {call : Call ι T} (hcall : call.collects = false) :
    (g.step call).1.retired = g.retired := by
  cases call with
  | collect n target => cases hcall
  | add i e millis =>
    rw [Group.step]
    split <;> rfl
  | deliver i n millis =>
    rw [Group.step]
    split <;> rfl
  | acknowledge n =>
    rw [Group.step]
    split <;> rfl
  | _ => rfl

theorem disciplined_withoutCollection (h : g.retired = 0) (calls : List (Call ι T)) :
    g.Disciplined (withoutCollection calls) := by
  induction calls generalizing g with
  | nil => trivial
  | cons call rest ih =>
    unfold withoutCollection
    rw [filter_cons]
    split_ifs with hcall
    · refine ⟨fun i n millis _ => by rw [h]; exact Nat.zero_le n, ih ?_⟩
      rw [retired_step g (by simpa using hcall), h]
    · exact ih h

theorem Disciplined.left {calls more : List (Call ι T)} (h : g.Disciplined (calls ++ more)) : g.Disciplined calls := by
  induction calls generalizing g with
  | nil => trivial
  | cons call rest ih => exact ⟨h.1, ih h.2⟩

end Group

theorem mem_elementList {s : ORSet T} (h : NoneEmpty s.elements) :
    e ∈ s.elementList ↔ ∃ t, Live s.elements e t := by
  rw [← h.mem_iff, ORSet.elementList, Std.ExtTreeMap.mem_keys]

/-- A tag that was collected is live nowhere, now and after any more calls, and as long as no call is
refused for want of a timestamp every member sees the elements that it would see without
collection. -/
theorem collection_keeps_elements [DecidableEq ι] {g : Group ι T} (hg : Founded g) (calls more : List (Call ι T))
    (hd : g.Disciplined (calls ++ more)) :
    (∀ t ∈ (g.run calls).1.collected, ∀ i e, ¬Live (((g.run calls).1.run more).1.sets i).elements e t) ∧
    ((∀ p ∈ (g.run calls).2, ¬Exhausted p) → (∀ p ∈ (g.run (withoutCollection calls)).2, ¬Exhausted p) → ∀ i e,
      ((g.run calls).1.sets i).contains e = ((g.run (withoutCollection calls)).1.sets i).contains e ∧
      (e ∈ ((g.run calls).1.sets i).elementList ↔ e ∈ ((g.run (withoutCollection calls)).1.sets i).elementList)) := by
  refine ⟨fun t ht i e => ?_, fun hleft hleft' i e => ?_⟩
  · have hsound := hg.sound.run hd
    rw [Group.run_append] at hsound
    exact (hsound.dead t (Group.collected_run _ more ht)).sets i e
  have hsound := hg.sound.run hd.left
  have hsound' := hg.sound.run (Group.disciplined_withoutCollection (Group.alike_of_founded hg).retired calls)
  have hvisible := ((Group.alike_of_founded hg).run hg.sound hg.sound hd.left hleft hleft').visible i e
  constructor
  · rw [Bool.eq_iff_iff, ORSet.contains_iff, ORSet.contains_iff]
    exact hvisible
  · rw [mem_elementList (hsound.noneEmpty i), mem_elementList (hsound'.noneEmpty i)]
    exact hvisible

instance : DecidablePred (@Exhausted ι T) := fun _ => inferInstanceAs (Decidable (_ ∧ _))

/-- Two members, the second of which has a clock that stands at the given time. -/
def pairAt (wallTime logical : UInt64) : Group Bool Nat where
  name i := if i then [98] else [97]
  sets i := if i then {replicaID := [98], clock := ⟨[98], wallTime, logical⟩, codecID := [99]}
    else {replicaID := [97], clock := ⟨[97], 0, 0⟩, codecID := [99]}
  coordinator := {groupID := [71], epoch := 1, members := ((∅ : MemberSet).insert [97]).insert [98]}

theorem founded_pairAt (wallTime logical : UInt64) : Founded (pairAt wallTime logical) := by
  have hblank : blank [71] = false ∧ blank [97] = false ∧ blank [98] = false := by decide
  refine ⟨⟨[71], [[97], [98]], ?_⟩, fun m => ?_, ?_, fun i => ?_, ?_, rfl⟩
  · simp [newCoordinator, validateMembers, addMembers, hblank, pairAt]
  · have hmem : m ∈ (pairAt wallTime logical).coordinator.members ↔ [98] = m ∨ [97] = m := by
      simp [pairAt]
    rw [hmem, Bool.exists_bool, or_comm]
    rfl
  · intro i j hij
    cases i <;> cases j <;> first | rfl | cases hij
  · cases i
    · exact ⟨⟨[97], 0, 0⟩, [99], rfl⟩
    · exact ⟨⟨[98], wallTime, logical⟩, [99], rfl⟩
  · intro i j hij
    cases i <;> cases j <;> first | rfl | cases hij

/-- An element is added and removed by one member, and merged into another, which collects the tombstone. Then
the first member brings it back, and the second one adds an element. -/
def bringBack : List (Call Bool Nat) :=
  [.add false 1 5, .merge true false 5, .remove false 1, .merge true false 5, .report false, .report true,
    .acknowledge 0, .collect 1 true, .merge true false 5, .add true 2 5]

theorem collection_keeps_elements_brought_back : (pairAt 0 0).Disciplined (bringBack ++ []) ∧
      ((pairAt 0 0).run bringBack).1.collected = [⟨[97], 5, 0⟩] ∧
      ∀ i e, (((pairAt 0 0).run bringBack).1.sets i).contains e =
        (((pairAt 0 0).run (withoutCollection bringBack)).1.sets i).contains e := by
  have hd : (pairAt 0 0).Disciplined (bringBack ++ []) := by
    simp [bringBack, Group.Disciplined]
  have h := (collection_keeps_elements (founded_pairAt 0 0) bringBack [] hd).2 (by decide +kernel) (by decide +kernel)
  exact ⟨hd, by decide +kernel, fun i e => (h i e).1⟩

/-- The tombstone that comes back takes the last but one timestamp of the second member: its add is refused, and
without collection it is not. -/
theorem add_refused_after_collection : Founded (pairAt 0xFFFFFFFFFFFFFFFF 0xFFFFFFFFFFFFFFFC) ∧
      (pairAt 0xFFFFFFFFFFFFFFFF 0xFFFFFFFFFFFFFFFC).Disciplined bringBack ∧
      (((pairAt 0xFFFFFFFFFFFFFFFF 0xFFFFFFFFFFFFFFFC).run bringBack).1.sets true).contains 2 = false ∧
      (((pairAt 0xFFFFFFFFFFFFFFFF 0xFFFFFFFFFFFFFFFC).run (withoutCollection bringBack)).1.sets true).contains 2 =
        true := by
  refine ⟨founded_pairAt _ _, ?_, by decide +kernel, by decide +kernel⟩
  simp [bringBack, Group.Disciplined]

end Crdt.OrSet
