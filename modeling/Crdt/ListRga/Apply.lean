import Crdt.ListRga.Rga
import Crdt.Rga.Acyclic
import Crdt.Rga.Rebuild

/-! Application of a delta to a list.

`applyDelta_spec`: a call that succeeds joins the delta to what the list has, a call that
fails leaves the list as it was, and only the limits and the clock stand in the way of a
valid delta that can be joined. -/
namespace Crdt.ListRga

open Clock Rga Sequence Forest MapLoop Option List

/-! ### Trimming -/

/-- White space at the start of a string. -/
def startsBlank : List UInt8 → Bool
  | [] => false
  | [b] => asciiSpace b
  | [b, c] => asciiSpace b || twoByteSpace b c
  | b :: c :: d :: _ => asciiSpace b || twoByteSpace b c || threeByteSpace b c d

theorem startsBlank_trimLeft (s : List UInt8) : startsBlank (trimLeft s) = false := by
  fun_induction trimLeft s <;> simp_all [startsBlank]

theorem startsBlank_of_blank {s : List UInt8} (h : blank s = true) (hs : s ≠ []) : startsBlank s = true := by
  rcases s with _ | ⟨b, _ | ⟨c, _ | ⟨d, rest⟩⟩⟩
  · simp at hs
  · simpa [blank, startsBlank] using h
  · by_cases hb : asciiSpace b = true
    · simp [startsBlank, hb]
    by_cases hc : twoByteSpace b c = true
    · simp [startsBlank, hc]
    · simp [blank, hb, hc] at h
  by_cases hb : asciiSpace b = true
  · simp [startsBlank, hb]
  by_cases hc : twoByteSpace b c = true
  · simp [startsBlank, hc]
  by_cases hd : threeByteSpace b c d = true
  · simp [startsBlank, hd]
  · simp [blank, hb, hc, hd] at h

theorem startsBlank_append {s : List UInt8} (h : startsBlank s = true) (s' : List UInt8) :
    startsBlank (s ++ s') = true := by
  rcases s with _ | ⟨b, _ | ⟨c, _ | ⟨d, rest⟩⟩⟩
  · simp [startsBlank] at h
  · simp only [startsBlank] at h
    rcases s' with _ | ⟨c, _ | ⟨d, rest⟩⟩ <;> simp [startsBlank, h]
  · rcases s' with _ | ⟨d, rest⟩
    · simpa using h
    · simp only [startsBlank, Bool.or_eq_true] at h
      simp [startsBlank, h]
  · exact h

theorem trimReversed_suffix (s : List UInt8) : trimReversed s <:+ s := by
  fun_induction trimReversed s with
  | case1 => exact suffix_refl _
  | case2 d rest _ ih => exact ih.trans (suffix_cons d rest)
  | case3 => exact suffix_refl _
  | case4 d _ c rest _ ih => exact ih.trans ⟨[d, c], rfl⟩
  | case5 => exact suffix_refl _
  | case6 d _ c _ b rest _ ih => exact ih.trans ⟨[d, c, b], rfl⟩
  | case7 => exact suffix_refl _

theorem blank_codecIdentifier {T : Type} {codec : ElementCodec T} {id : List UInt8}
    (h : codecIdentifier codec = .ok id) : blank id = false := by
  unfold codecIdentifier at h
  simp only [] at h
  split_ifs at h with hne
  have hid : trimSpace codec.id = id := Except.ok.inj h
  rw [hid] at hne
  by_contra hb
  obtain ⟨front, hsuf⟩ := trimReversed_suffix (trimLeft codec.id).reverse
  have hpre : trimLeft codec.id = id ++ front.reverse := by
    rw [← hid, trimSpace, ← reverse_append, hsuf, reverse_reverse]
  have := startsBlank_append (startsBlank_of_blank (by simpa using hb) hne) front.reverse
  rw [← hpre, startsBlank_trimLeft] at this
  simp at this

/-! ### Classification -/

variable {r r' : Replica (List UInt8)} {nodes : TagMap (Node (List UInt8))}

/-- What the check on a delta's nodes leaves. -/
structure ValidNodes (nodes : TagMap (Node (List UInt8))) : Prop where
  valid : ∀ (id : Position) (item : Node (List UInt8)), nodes[id]? = some item →
    id.valid = true ∧ (item.parent = .zero ∨ item.parent.valid = true) ∧ id ≠ item.parent

theorem ValidNodes.mem (h : ValidNodes nodes) {x : Position} (hx : x ∈ nodes) : x.valid = true := by
  obtain ⟨item, hitem⟩ := mem_iff.mp hx
  exact (h.valid x item hitem).1

/-- The nodes that the loop puts at the end of its list go in, in that order. -/
theorem classifyLoop_spec (hvalid : ∀ x ∈ nodes, x.valid = true) {n : Nat} {ready : List Position} {known : TagSet}
    (h : Indexed r.nodes r.tombstones r.sequence r.children)
    (hagree : ∀ x ∈ nodes, x ∈ r.nodes → r.nodes[x]? = nodes[x]?) (hready : ReadyQueue nodes r.nodes ready)
    (hknown : ∀ x ∈ known, x ∈ r.nodes) (hn : remaining nodes (r.nodes.contains ·) ≤ n) :
    ∃ resolved known' r', (∀ done, classifyLoop (byParent nodes) n done ready known =
        some (done ++ resolved, known')) ∧ (∀ x, x ∈ known' ↔ x ∈ known ∨ x ∈ resolved) ∧
      (∀ x ∈ resolved, x ∈ nodes) ∧ integrateNodes nodes r resolved = some r' ∧
      Indexed r'.nodes r'.tombstones r'.sequence r'.children ∧
      r' = {r with nodes := r'.nodes, sequence := r'.sequence, children := r'.children} ∧
      ∀ x : Position, r'.nodes[x]? = if x ∈ resolved then nodes[x]? else r.nodes[x]? := by
  induction n generalizing r ready known with
  | zero =>
    cases ready with
    | nil => exact ⟨[], known, r, by simp [classifyLoop], by simp, by simp, rfl, h, rfl, by simp⟩
    | cons id ready => exact absurd (Nat.le_zero.mp hn) hready.remaining_ne_zero
  | succ n ih =>
    cases ready with
    | nil => exact ⟨[], known, r, by simp [classifyLoop], by simp, by simp, rfl, h, rfl, by simp⟩
    | cons id ready =>
      obtain ⟨item, s', ch', hitem, hid, hint, hix, hready, hlt, hagree₁⟩ := hready.integrate package hvalid h hagree
      set r₁ : Replica (List UInt8) :=
        {r with nodes := r.nodes.insert id item, sequence := s', children := ch'} with hr₁
      obtain ⟨resolved, known', r', hloop, hin, hmem, hrun, hix', hrest, hget⟩ := ih (r := r₁)
        hix hagree₁ hready (fun x (hx : x ∈ known.insert id) => by
          rw [hr₁, mem_insert]
          exact (TagSet.mem_insert.mp hx).imp_right (hknown x))
        (Nat.lt_succ_iff.mp (hlt.trans_le hn))
      have hc : known.contains id = false := TagSet.contains_eq_false.mpr fun hm => hid (hknown id hm)
      refine ⟨id :: resolved, known', r', fun done => by simp [classifyLoop, hc, hloop], fun x => ?_,
        forall_mem_cons.mpr ⟨mem_iff.mpr ⟨item, hitem⟩, hmem⟩, ?_, hix', hrest, fun x => ?_⟩
      · rw [hin, TagSet.mem_insert, mem_cons, eq_comm]
        tauto
      · rw [integrateNodes, hitem, getD_some, hint]
        exact hrun
      rw [hget, hr₁, get?_insert]
      by_cases hx : x ∈ resolved
      · simp [hx]
      by_cases he : id = x
      · subst he
        simp [hitem]
      · simp [hx, he, Ne.symm he]

theorem classifyNewNodes_spec (h : Indexed r.nodes r.tombstones r.sequence r.children) (hd : ValidNodes nodes)
    (hnew : ∀ x ∈ nodes, x ∉ r.nodes) : ∃ resolved waiting r', classifyNewNodes r nodes = some (resolved, waiting) ∧
      (∀ x ∈ resolved, x ∈ nodes) ∧ (waiting = nodes.toList.filter fun p => p.1 ∉ resolved) ∧
      integrateNodes nodes r resolved = some r' ∧ Indexed r'.nodes r'.tombstones r'.sequence r'.children ∧
      r' = {r with nodes := r'.nodes, sequence := r'.sequence, children := r'.children} ∧
      ∀ x : Position, r'.nodes[x]? = if x ∈ resolved then nodes[x]? else r.nodes[x]? := by
  have hqueue := readyQueue_roots hnew fun x p hp => by
    obtain ⟨item, hitem, rfl⟩ := parentOf_eq_some.mp hp
    exact (hd.valid x item hitem).2.1
  obtain ⟨resolved, known, r', hloop, hknown, hmem, hrest⟩ := @classifyLoop_spec r nodes
    (fun x hx => hd.mem hx) nodes.size _ ∅ h (fun x hx hxn => (hnew x hx hxn).elim) hqueue (by simp) (remaining_le_size _ _)
  refine ⟨resolved, _, r', ?_, hmem, rfl, hrest⟩
  unfold classifyNewNodes
  simp only [hloop, nil_append, bind_eq_bind, bind_some, Option.pure_def, some.injEq, Prod.mk.injEq, true_and]
  refine filter_congr fun p _ => ?_
  rw [Bool.eq_iff_iff, Bool.not_eq_true', TagSet.contains_eq_false, hknown]
  simp

/-! ### Application -/

variable {T : Type} {r : RGA T} {delta : Delta}

structure Delta.Valid (delta : Delta) : Prop where
  codecID : blank delta.codecID = false
  nodes : ValidNodes delta.nodes
  tombstones : ∀ x ∈ delta.tombstones, x.valid = true

theorem validateDelta_eq_ok : validateDelta delta = .ok () ↔ delta.Valid := by
  have hn : (∀ x item, delta.nodes[x]? = some item → validNode x item = true) ↔ ValidNodes delta.nodes := by
    simp only [validNode, Bool.and_eq_true, Bool.or_eq_true, decide_eq_true_eq]
    exact ⟨fun h => ⟨fun id item hid => and_assoc.mp (and_right_comm.mp (h id item hid))⟩,
      fun h id item hid => and_right_comm.mp (and_assoc.mpr (h.valid id item hid))⟩
  have ht : delta.tombstones.toList.all Tag.valid = true ↔ ∀ x ∈ delta.tombstones, x.valid = true := by
    simp
  unfold validateDelta
  split_ifs with hb h
  · exact ⟨fun he => by simp at he, fun hv => by simp [hv.codecID] at hb⟩
  · simp only [Bool.and_eq_true, all_toList, hn, ht] at h
    exact ⟨fun _ => ⟨by simpa using hb, h.1, h.2⟩, fun _ => rfl⟩
  · simp only [Bool.and_eq_true, all_toList, hn, ht] at h
    exact ⟨fun he => by simp at he, fun hv => (h ⟨hv.nodes, hv.tombstones⟩).elim⟩

theorem forM_eq_ok {α ε : Type} {f : α → Except ε Unit} {l : List α} :
    l.forM f = .ok () ↔ ∀ x ∈ l, f x = .ok () := by
  induction l with
  | nil => simp [List.forM, pure, Except.pure]
  | cons x l ih =>
    rw [forall_mem_cons, ← ih]
    cases hx : f x <;> simp [List.forM, hx, bind, Except.bind]

theorem validateValues_eq_ok :
    r.validateValues delta = .ok () ↔ ∀ (x : Position) item, delta.nodes[x]? = some item →
      validateValue r.codec r.options item.value = .ok () := by
  unfold RGA.validateValues
  rw [forM_eq_ok]
  constructor
  · exact fun h x item hx => h (x, item) (mem_toList.mpr hx)
  · exact fun h p hp => h p.1 p.2 (mem_toList.mp hp)

theorem newFromClockWithOptions_spec {state : Clock.State} {codec : ElementCodec T} {options : Options}
    (h : newFromClockWithOptions state codec options = some (.ok r)) :
    r.Inv ∧ r.Settled ∧ (∀ x, r.known x = none) ∧ r.tombstones = ∅ ∧ blank r.codecID = false := by
  unfold newFromClockWithOptions at h
  cases hid : codecIdentifier codec with
  | error err =>
    rw [hid] at h
    split_ifs at h <;> simp at h
  | ok codecID =>
    cases hc : newHLCFromState state with
    | error err =>
      rw [hid, hc] at h
      split_ifs at h <;> simp at h
    | ok clock =>
      obtain ⟨replica, hnew, hinv, hs, hn, hp, ht⟩ := newReplica_spec (List UInt8)
      rw [hid, hc] at h
      split_ifs at h
      · simp at h
      · simp at h
      simp only [hnew, bind_eq_bind, bind_some] at h
      cases h
      exact ⟨hinv, hs, fun x => by simp [Replica.known, hn, hp], ht, blank_codecIdentifier hid⟩

theorem witnessGreatest_spec (r : RGA T) (delta : Delta) (millis : Int64) :
    (∃ clock, r.witnessGreatest delta millis = ({r with clock}, .ok ())) ∨
      ∃ err, r.witnessGreatest delta millis = (r, .error (.clock err)) := by
  unfold RGA.witnessGreatest
  cases greatestTag delta.nodes delta.tombstones with
  | none => exact .inl ⟨r.clock, rfl⟩
  | some tag =>
    rcases hw : r.clock.witness tag millis with ⟨clock, err | ⟨⟩⟩
    · right
      obtain rfl := HLC.witness_error hw
      exact ⟨err, by simp [hw]⟩
    · exact .inl ⟨clock, by simp [hw]⟩

/-- The limits or the clock stand in the way. -/
def Rejected (res : Except Err Unit) : Prop :=
  res = .error .resourceLimit ∨ ∃ err, res = .error (.clock err)

theorem Rejected.error {res : Except Err Unit} (h : Rejected res) : ∃ err, res = .error err := by
  rcases h with h | ⟨err, h⟩
  · exact ⟨_, h⟩
  · exact ⟨_, h⟩

/-- What stays with a list. -/
structure Kept (r r' : RGA T) : Prop where
  replicaID : r'.replicaID = r.replicaID
  codec : r'.codec = r.codec
  codecID : r'.codecID = r.codecID
  options : r'.options = r.options

theorem applyNewNodes_spec (h : r.Inv) (hd : delta.Valid) {newNodes : TagMap (Node (List UInt8))}
    (hget : ∀ x : Position, newNodes[x]? = if (r.known x).isNone then delta.nodes[x]? else none)
    (millis : Int64) : ∃ r' res, r.applyNewNodes delta newNodes millis = some (r', res) ∧
      (res = .ok () ∧ Joins r.toReplica r'.toReplica delta.nodes delta.tombstones ∧ Kept r r' ∨
        Rejected res ∧ r' = r) := by
  have hsome : ∀ (x : Position) item, newNodes[x]? = some item →
      r.known x = none ∧ delta.nodes[x]? = some item := by
    intro x item hx
    rw [hget] at hx
    split_ifs at hx with hk
    exact ⟨isNone_iff_eq_none.mp hk, hx⟩
  have hnv : ValidNodes newNodes := ⟨fun id item hid => hd.nodes.valid id item (hsome id item hid).2⟩
  have hunknown : ∀ x ∈ newNodes, r.known x = none := fun x hx => by
    obtain ⟨item, hitem⟩ := mem_iff.mp hx
    exact (hsome x item hitem).1
  obtain ⟨resolved, waiting, r₁, hcl, hmem, rfl, hint, hix, hrest, hnodes⟩ := classifyNewNodes_spec h.indexed hnv
    fun x hx => (not_mem_of_known (hunknown x hx)).1
  unfold RGA.applyNewNodes
  rw [hcl]
  simp only [bind_eq_bind, bind_some]
  split_ifs
  · exact ⟨r, _, rfl, .inr ⟨.inl rfl, rfl⟩⟩
  rcases witnessGreatest_spec r delta millis with ⟨clock, hw⟩ | ⟨err, hw⟩
  swap
  · rw [hw]
    exact ⟨r, _, rfl, .inr ⟨.inr ⟨err, rfl⟩, rfl⟩⟩
  rw [hw]
  -- the resolved nodes are integrated ...
  have hpend₁ : r₁.pending = r.pending := by rw [hrest]
  obtain ⟨hinv₁, hknown₁⟩ := h.take (t := fun x => if x ∈ resolved then newNodes[x]? else none) hix hpend₁
    (by rw [hrest])
    (fun {x item} hx => by
      split_ifs at hx
      exact (hsome x item hx).1)
    (fun x => by
      rw [hnodes]
      split_ifs with hx
      · obtain ⟨item, hitem⟩ := mem_iff.mp (hmem x hx)
        rw [hitem, some_or]
      · rw [none_or])
  -- ... and the others queued
  set waiting := newNodes.toList.filter fun p => p.1 ∉ resolved with hwaiting
  have hwait : ∀ p, p ∈ waiting ↔ newNodes[p.1]? = some p.2 ∧ p.1 ∉ resolved := fun p => by
    rw [List.mem_filter, MapLoop.mem_toList]
    simp
  have hpw : waiting.Pairwise (·.1 ≠ ·.1) := (nodup_keys_toList newNodes).filter _
  obtain ⟨hinv₂, htomb₂, hqueued⟩ := foldl_enqueuePending_spec package hinv₁ hpw fun p hp => by
      obtain ⟨hp, hpr⟩ := (hwait p).mp hp
      obtain ⟨hk, hdn⟩ := hsome _ _ hp
      rw [hknown₁, if_neg hpr, or_none]
      obtain ⟨h₁, h₂, _⟩ := hd.nodes.valid _ _ hdn
      exact ⟨hk, h₁, h₂⟩
  have htomb : r₁.tombstones = r.tombstones := by rw [hrest]
  have hknown₂ : ∀ x, (waiting.foldl (fun r p => r.enqueuePending package p.1 p.2) r₁).known x =
      (r.known x).or delta.nodes[x]? := by
    refine fun x => Option.ext fun item => ?_
    rw [hqueued, hknown₁, hwait, hget]
    cases r.known x with
    | some it => simp
    | none => by_cases hxr : x ∈ resolved <;> simp [hxr]
  obtain ⟨r₃, drained, r₄, buried, hdrain, hbury, hj⟩ := settle_spec (r := r.toReplica) package recheck
    (fun r item hr => by
      rcases hr with hz | hm
      · simp [recheck, hz]
      · simp [recheck, hm])
    hinv₂ hknown₂ (htomb₂.trans htomb)
  refine ⟨{r with clock, toReplica := {r₄ with version :=
    if newNodes.size > 0 || drained || buried then r₄.version + 1 else r₄.version}}, .ok (), ?_,
    .inl ⟨rfl, hj _, ⟨rfl, rfl, rfl, rfl⟩⟩⟩
  simp only [RGA.integrate, hint, bind_eq_bind, bind_some, hdrain, hbury]
  rfl

/-- A call that succeeds joins the delta to the list, and one that fails changes nothing.
If neither the limits nor the clock nor the codec reject it, it succeeds exactly for a
valid delta that can be joined. -/
theorem applyDelta_spec (h : r.Inv) (hs : r.Settled) (hac : r.Acyclic) (delta : Delta) (millis : Int64) :
    ∃ r' res, r.applyDelta delta millis = some (r', res) ∧
      (res = .ok () ∧ Joins r.toReplica r'.toReplica delta.nodes delta.tombstones ∧ Kept r r' ∧
          Accepts r.toReplica delta.nodes ∧ delta.Valid ∨ (∃ err, res = .error err) ∧ r' = r ∧
          (Accepts r.toReplica delta.nodes → delta.Valid → delta.codecID = r.codecID →
            r.validateValues delta = .ok () → Rejected res)) := by
  unfold RGA.applyDelta
  by_cases hbad : delta.codecID ≠ r.codecID ∨ validateDelta delta ≠ .ok ()
  · rw [if_pos hbad]
    refine ⟨r, _, rfl, .inr ⟨⟨_, rfl⟩, rfl, fun _ hv hc _ => ?_⟩⟩
    exact (hbad.elim (fun hne => hne hc) fun hne => hne (validateDelta_eq_ok.mpr hv)).elim
  rw [if_neg hbad]
  simp only [not_or, not_not] at hbad
  have hd := validateDelta_eq_ok.mp hbad.2
  cases hvv : r.validateValues delta with
  | error err =>
    exact ⟨r, _, rfl, .inr ⟨⟨_, rfl⟩, rfl, fun _ _ _ hok => by simp at hok⟩⟩
  | ok u =>
    cases hc : r.conflicts delta.nodes with
    | true =>
      refine ⟨r, _, rfl, .inr ⟨⟨_, rfl⟩, rfl, fun ha _ _ _ => ?_⟩⟩
      simp [(conflicts_eq_false h.queued).mpr ha.agrees] at hc
    | false =>
      have hagree := (conflicts_eq_false h.queued).mp hc
      simp only [Bool.false_eq_true, if_false]
      by_cases hsub : r.subsumes delta.nodes delta.tombstones = true
      · rw [if_pos hsub]
        have hj := joins_of_subsumes h hs hsub
        refine ⟨r, _, rfl, .inl ⟨rfl, hj, ⟨rfl, rfl, rfl, rfl⟩, ⟨hagree, ?_⟩, hd⟩⟩
        rw [← hj.parent_eq]
        exact hac
      set newNodes := delta.nodes.filter fun id _ => !r.nodes.contains id && !r.pending.contains id
        with hnew
      have hget : ∀ x : Position, newNodes[x]? = if (r.known x).isNone then delta.nodes[x]? else none :=
        getElem?_newNodes r.toReplica delta.nodes
      have hcheck := acyclicAgainst_join h hac hagree (fun x => hd.nodes.mem) (fun x item hx => by
          rw [hget] at hx
          split_ifs at hx
          exact hx)
        (fun x item hx hk => by simp [hget, hk, hx])
      split_ifs with hcyc
      · refine ⟨r, _, rfl, .inr ⟨⟨_, rfl⟩, rfl, fun ha _ _ _ => ?_⟩⟩
        simp [hcheck.mpr ha.acyclic] at hcyc
      obtain ⟨r', res, happ, hres⟩ := applyNewNodes_spec h hd hget millis
      refine ⟨r', res, happ, ?_⟩
      rcases hres with ⟨hok, hj, hk⟩ | ⟨hrej, rfl⟩
      · exact .inl ⟨hok, hj, hk, ⟨hagree, hcheck.mp (by simpa using hcyc)⟩, hd⟩
      · exact .inr ⟨hrej.error, rfl, fun _ _ _ _ => hrej⟩

end Crdt.ListRga
