import Crdt.Rga.Acyclic
import Crdt.Text.Run

/-! Application of a delta, whichever way it goes in.

`applyDelta_spec`: a call that succeeds joins the delta to what the replica has, and a
call that fails leaves the replica as it was. -/
namespace Crdt.Text

open Clock Rga Sequence Forest MapLoop Option

variable {r r' : RGA} {delta : Delta} {res : Except Err Unit} {ids : List Position}

/-- A delta that passes the checks made without a replica. -/
structure Delta.Valid (delta : Delta) : Prop where
  nodes : ValidNodes delta.nodes
  tombstones : ∀ x ∈ delta.tombstones, x.valid = true

theorem validateDelta_eq_ok : validateDelta delta = .ok () ↔ delta.Valid := by
  have hn : (∀ x item, delta.nodes[x]? = some item → validNode x item = true) ↔ ValidNodes delta.nodes := by
    simp only [validNode, Bool.and_eq_true, Bool.or_eq_true, decide_eq_true_eq, and_assoc]
    exact ⟨fun h => ⟨h⟩, fun h => h.valid⟩
  have ht : delta.tombstones.toList.all Tag.valid = true ↔ ∀ x ∈ delta.tombstones, x.valid = true := by
    simp only [List.all_eq_true, Std.ExtTreeSet.mem_toList]
  unfold validateDelta
  split_ifs with h <;> simp only [Bool.and_eq_true, all_toList, hn, ht] at h
  · exact ⟨fun _ => ⟨h.1, h.2⟩, fun _ => rfl⟩
  · exact ⟨fun he => by simp at he, fun hv => (h ⟨hv.nodes, hv.tombstones⟩).elim⟩

theorem validateDelta_cases (delta : Delta) :
    validateDelta delta = .ok () ∧ delta.Valid ∨ validateDelta delta = .error .invalidDelta := by
  rcases h : validateDelta delta with err | ⟨⟩
  · right
    unfold validateDelta at h
    split_ifs at h
    exact congrArg _ (Except.error.inj h).symm
  · exact .inl ⟨rfl, validateDelta_eq_ok.mp h⟩

theorem witnessGreatest_spec (r : RGA) (delta : Delta) (millis : Int64) :
    (∃ clock, r.witnessGreatest delta millis = ({r with clock}, .ok ())) ∨
      ∃ err, r.witnessGreatest delta millis = (r, .error (.clock err)) := by
  unfold RGA.witnessGreatest
  cases greatestTag delta.nodes delta.tombstones with
  | none => exact .inl ⟨r.clock, rfl⟩
  | some tag =>
    rcases hw : r.clock.witness tag millis with ⟨clock, err | ⟨⟩⟩
    · right
      obtain rfl := HLC.witness_error hw
      exact ⟨err, by simp [hw]⟩
    · exact .inl ⟨clock, by simp [hw]⟩

/-- What a successful application does. -/
structure Applied (r : RGA) (delta : Delta) (r' : RGA) : Prop where
  valid : delta.Valid
  agrees : Agrees r.toReplica delta.nodes
  joins : Joins r.toReplica r'.toReplica delta.nodes delta.tombstones
  options : r'.options = r.options
  replicaID : r'.replicaID = r.replicaID

theorem finish_spec {state : Replica Rune} (h : state.Inv) (changed : Bool)
    (hknown : ∀ x, state.known x = (r.known x).or delta.nodes[x]?)
    (htomb : state.tombstones = r.tombstones) : ∃ r', r.finish delta state changed = some (r', .ok ()) ∧
      Joins r.toReplica r'.toReplica delta.nodes delta.tombstones ∧ r'.options = r.options ∧
      r'.replicaID = r.replicaID := by
  obtain ⟨r₁, drained, r₂, buried, hdrain, hbury, hj⟩ :=
    settle_spec package (fun _ _ => true) (fun _ _ _ => rfl) h hknown htomb
  refine ⟨{r with toReplica := {r₂ with version :=
    if changed || drained || buried then r₂.version + 1 else r₂.version}}, ?_, hj _, rfl, rfl⟩
  unfold RGA.finish
  rw [hdrain]
  simp only [bind_eq_bind, bind_some]
  rw [hbury]
  rfl

/-- The limits or the clock stand in the way. -/
def Rejected (res : Except Err Unit) : Prop :=
  res = .error .resourceLimit ∨ ∃ err, res = .error (.clock err)

theorem Rejected.error (h : Rejected res) : ∃ err, res = .error err := by
  rcases h with h | ⟨err, h⟩
  · exact ⟨_, h⟩
  · exact ⟨_, h⟩

/-- How a call ends whose delta has been checked. -/
def Ends (r : RGA) (delta : Delta) (r' : RGA) (res : Except Err Unit) : Prop :=
  res = .ok () ∧ Joins r.toReplica r'.toReplica delta.nodes delta.tombstones ∧
    r'.options = r.options ∧ r'.replicaID = r.replicaID ∨ Rejected res ∧ r' = r

theorem integrateRun_joined {r : Replica Rune} (h : r.Inv) (hd : delta.Valid)
    (hl : Linear r delta.nodes ids) : ∃ state, integrateRun r delta.nodes ids = some state ∧ state.Inv ∧
      (∀ x, state.known x = (r.known x).or delta.nodes[x]?) ∧ state.tombstones = r.tombstones := by
  obtain ⟨s', ch', hrun, hix⟩ := integrateRun_spec h hd.nodes hl
  have hnodes : ∀ x : Position, (putNodes delta.nodes r.nodes ids)[x]? = delta.nodes[x]?.or r.nodes[x]? := by
    intro x
    rw [getElem?_putNodes]
    split_ifs with hx
    · obtain ⟨item, hitem⟩ := mem_iff.mp ((hl.mem x).mp hx)
      rw [hitem]
      rfl
    · rw [not_mem_iff.mp fun hx' => hx ((hl.mem x).mpr hx'), none_or]
  refine ⟨_, hrun, and_assoc.mp ⟨h.take (t := fun x => delta.nodes[x]?) hix rfl rfl (fun hx => ?_) hnodes, rfl⟩⟩
  exact hl.unknown _ ((hl.mem _).mpr (mem_iff.mpr ⟨_, hx⟩))

theorem applyResolvedLinearRun_spec (h : r.Inv) (hd : delta.Valid)
    (hl : Linear r.toReplica delta.nodes ids) (millis : Int64) :
    ∃ r' res, r.applyResolvedLinearRun delta ids millis = some (r', res) ∧ Ends r delta r' res := by
  unfold RGA.applyResolvedLinearRun
  split_ifs
  · exact ⟨r, _, rfl, .inr ⟨.inl rfl, rfl⟩⟩
  rcases witnessGreatest_spec r delta millis with ⟨clock, hw⟩ | ⟨err, hw⟩
  · obtain ⟨state, hint, hinv, hknown, htomb⟩ := integrateRun_joined h hd hl
    rw [hw]
    simp only [hint, bind_eq_bind, bind_some]
    obtain ⟨r', hfin, hj, ho, hid⟩ := finish_spec (r := {r with clock}) hinv _ hknown htomb
    exact ⟨r', _, hfin, .inl ⟨rfl, hj, ho, hid⟩⟩
  · rw [hw]
    exact ⟨r, _, rfl, .inr ⟨.inr ⟨err, rfl⟩, rfl⟩⟩

theorem integratePlan_spec {r : Replica Rune} (h : r.Inv) (hd : delta.Valid) {plan : DeltaPlan}
    (hplan : Plans r delta plan) :
    ∃ state changed, integratePlan r plan = some (state, changed) ∧ state.Inv ∧
      (∀ x, state.known x = (r.known x).or delta.nodes[x]?) ∧ state.tombstones = r.tombstones := by
  have hplanned : ∀ x : Position, (r.known x).or delta.nodes[x]? = (r.known x).or plan.nodes[x]? := by
    intro x
    rw [hplan.nodes]
    cases r.known x <;> rfl
  have hnew := hplan.new
  by_cases hpending : plan.pendingNodes = 0
  · obtain ⟨r', changed, hint, hg, hall⟩ := integrateResolved_spec h hd.nodes hplan hpending
    refine ⟨r', changed, by simp [integratePlan, hint, hpending], ?_⟩
    have hnodes : ∀ x : Position, r'.nodes[x]? = plan.nodes[x]?.or r.nodes[x]? := by
      intro x
      cases hx : plan.nodes[x]? with
      | some item =>
        obtain ⟨it, hit⟩ := mem_iff.mp (hall x (mem_iff.mpr ⟨item, hx⟩))
        rcases hg.planned x it hit with hn | hn
        · exact ((not_mem_of_known (hnew x item hx).1).1 (mem_iff.mpr ⟨it, hn⟩)).elim
        · rw [hit, ← hn, hx, some_or]
      | none =>
        rw [none_or]
        refine Option.ext fun it => ⟨fun hit => (hg.planned x it hit).resolve_right ?_, hg.kept x it⟩
        simp [hx]
    obtain ⟨hinv, hknown⟩ := h.take (t := fun x => plan.nodes[x]?) hg.indexed (by rw [hg.rest]) (by rw [hg.rest])
      (fun hx => (hnew _ _ hx).1) hnodes
    exact ⟨hinv, fun x => (hknown x).trans (hplanned x).symm, by rw [hg.rest]⟩
  · have hres : integrateResolved r plan = some (r, false) := by
      rw [integrateResolved, if_pos (.inr hpending)]
    refine ⟨_, _, by simp [integratePlan, hres, Nat.pos_of_ne_zero hpending]; exact ⟨rfl, rfl⟩, ?_⟩
    obtain ⟨hinv, htomb, hknown⟩ := foldl_enqueuePending_spec package h (nodup_keys_toList plan.nodes) fun p hp => by
      have hp' := MapLoop.mem_toList.mp hp
      obtain ⟨hk, hdn⟩ := hnew p.1 p.2 hp'
      obtain ⟨h₁, _, h₂, _⟩ := hd.nodes.valid _ _ hdn
      exact ⟨hk, h₁, h₂⟩
    refine ⟨hinv, fun x => Option.ext fun item => ?_, htomb⟩
    rw [hplanned, hknown, MapLoop.mem_toList, or_eq_some_iff]
    exact or_congr_right ⟨fun hx => ⟨(hnew x item hx).1, hx⟩, And.right⟩

theorem applyPlannedDelta_spec (h : r.Inv) (hd : delta.Valid) (millis : Int64) :
    ∃ r' res, r.applyPlannedDelta delta millis = some (r', res) ∧ Ends r delta r' res := by
  obtain ⟨plan, _, hplan, hp, _⟩ := planDelta_spec h hd.nodes
  unfold RGA.applyPlannedDelta
  rw [hplan]
  simp only [bind_eq_bind, bind_some]
  split_ifs
  · exact ⟨r, _, rfl, .inr ⟨.inl rfl, rfl⟩⟩
  rcases witnessGreatest_spec r delta millis with ⟨clock, hw⟩ | ⟨err, hw⟩
  · obtain ⟨state, changed, hint, hinv, hknown, htomb⟩ := integratePlan_spec h hd hp
    rw [hw]
    simp only [hint, bind_some]
    obtain ⟨r', hfin, hj, ho, hid⟩ := finish_spec (r := {r with clock}) hinv changed hknown htomb
    exact ⟨r', _, hfin, .inl ⟨rfl, hj, ho, hid⟩⟩
  · rw [hw]
    exact ⟨r, _, rfl, .inr ⟨.inr ⟨err, rfl⟩, rfl⟩⟩

section Linear
variable {r : Replica Rune} {nodes : TagMap (Node Rune)} {ids : List Position}

theorem Linear.agrees (hl : Linear r nodes ids) : Agrees r nodes := fun x item hx =>
  .inl (hl.unknown x ((hl.mem x).mpr (mem_iff.mpr ⟨item, hx⟩)))

theorem joinParent_of_joint {nodes' : TagMap (Node Rune)}
    (hnew : ∀ (x : Position) item, nodes'[x]? = some item → r.known x = none ∧ nodes[x]? = some item)
    {x p : Position} (h : jointParent r nodes' x = some p) : joinParent r nodes x = some p := by
  obtain ⟨item, hitem, rfl⟩ := map_eq_some_iff.mp h
  rcases or_eq_some_iff.mp hitem with hn | ⟨-, hn⟩
  · simp [joinParent, Replica.known, hn]
  · obtain ⟨hk, hn⟩ := hnew x item hn
    simp [joinParent, hk, hn]

theorem Linear.rooted (h : r.Inv) (hl : Linear r nodes ids) {x : Position} (hx : x ∈ nodes) :
    Rooted (jointParent r nodes) .zero x := by
  have hparent : ∀ x p, parentOf nodes x = some p → jointParent r nodes x = some p := fun x p hp => by
    obtain ⟨item, hitem, rfl⟩ := parentOf_eq_some.mp hp
    have hn := (not_mem_of_known (hl.unknown x ((hl.mem x).mpr (mem_of_parentOf hp)))).1
    simp [jointParent, not_mem_iff.mp hn, hitem]
  have hdown : ∀ (rest : List Position) (first : Position), ChainFrom nodes first rest →
      Rooted (jointParent r nodes) .zero first → ∀ x ∈ rest, Rooted (jointParent r nodes) .zero x := by
    intro rest
    induction rest with
    | nil => simp
    | cons y rest ih =>
      intro first hchain hfirst
      have hy := Rooted.step (hparent y first hchain.1) hfirst
      exact List.forall_mem_cons.mpr ⟨hy, ih y hchain.2 hy⟩
  obtain ⟨first, rest, item, hids, hitem, hreach, hchain⟩ := hl.chain
  have hp := hparent first item.parent (parentOf_eq_some.mpr ⟨item, hitem, rfl⟩)
  have hfirst : Rooted (jointParent r nodes) .zero first := by
    rcases hreach with hz | hn
    · exact .top (hz ▸ hp)
    refine .step hp ((h.indexed.forested.rooted _ hn).mono fun x y hxy => ?_)
    obtain ⟨it, hit, rfl⟩ := parentOf_eq_some.mp hxy
    simp [jointParent, hit]
  have hx := (hl.mem x).mpr hx
  rw [hids] at hx
  rcases List.mem_cons.mp hx with rfl | hx
  · exact hfirst
  · exact hdown rest first hchain hfirst x hx

theorem Linear.new (hl : Linear r nodes ids) (x : Position) (item : Node Rune) (hx : nodes[x]? = some item) :
    r.known x = none ∧ nodes[x]? = some item :=
  ⟨hl.unknown x ((hl.mem x).mpr (mem_iff.mpr ⟨item, hx⟩)), hx⟩

theorem Linear.grounded (h : r.Inv) (hac : r.Acyclic) (hd : ValidNodes nodes) (hl : Linear r nodes ids)
    (x : Position) : Grounded (joinParent r nodes) x := by
  refine grounded_join hac hl.agrees (fun x hx _ => .of_rooted ((hl.rooted h hx).mono fun _ _ =>
    joinParent_of_joint hl.new) ?_) x
  refine joinParent_zero h fun x hx => ?_
  obtain ⟨item, hitem⟩ := mem_iff.mp hx
  exact (hd.valid x item hitem).1

end Linear

/-- What is said of how a call ends holds of the way it did. -/
theorem ends_of_run {α β : Type} {call : Option (α × β)} {ends : α → β → Prop} {a : α} {b : β}
    (h : ∃ a b, call = some (a, b) ∧ ends a b) (hrun : call = some (a, b)) : ends a b := by
  obtain ⟨a', b', heq, h⟩ := h
  rw [hrun] at heq
  cases heq
  exact h

/-- A call that succeeds joins the delta to the replica; one that fails changes nothing. -/
theorem applyDelta_spec (h : r.Inv) (hs : r.Settled) (delta : Delta) (millis : Int64) :
    ∃ r' res, r.applyDelta delta millis = some (r', res) ∧
      (res = .ok () ∧ Applied r delta r' ∨ (∃ err, res = .error err) ∧ r' = r) := by
  unfold RGA.applyDelta
  rcases validateDelta_cases delta with ⟨hv, hd⟩ | hv <;> rw [hv]
  swap
  · exact ⟨r, _, rfl, .inr ⟨⟨_, rfl⟩, rfl⟩⟩
  unfold RGA.applyDeltaLocked
  cases hc : r.conflicts delta.nodes with
  | true => exact ⟨r, _, rfl, .inr ⟨⟨_, rfl⟩, rfl⟩⟩
  | false =>
    have hagree := (conflicts_eq_false h.queued).mp hc
    have happlied : ∀ {r' res}, Ends r delta r' res →
        res = .ok () ∧ Applied r delta r' ∨ (∃ err, res = .error err) ∧ r' = r := fun hres =>
      hres.imp (fun ⟨hok, hj, ho, hid⟩ => ⟨hok, hd, hagree, hj, ho, hid⟩) fun ⟨hrej, heq⟩ =>
        ⟨hrej.error, heq⟩
    simp only [Bool.false_eq_true, if_false]
    by_cases hsub : r.subsumes delta.nodes delta.tombstones = true
    · rw [if_pos hsub]
      exact ⟨r, _, rfl, .inl ⟨rfl, hd, hagree, joins_of_subsumes h hs hsub, rfl, rfl⟩⟩
    rw [if_neg hsub]
    cases hrun : resolvedLinearRun r.toReplica delta with
    | some ids =>
      obtain ⟨r', res, happ, hres⟩ := applyResolvedLinearRun_spec h hd
        (resolvedLinearRun_spec hd.nodes hrun) millis
      exact ⟨r', res, happ, happlied hres⟩
    | none =>
      split_ifs
      · exact ⟨r, _, rfl, .inr ⟨⟨_, rfl⟩, rfl⟩⟩
      · obtain ⟨r', res, happ, hres⟩ := applyPlannedDelta_spec h hd millis
        exact ⟨r', res, happ, happlied hres⟩

/-- If neither the limits nor the clock reject a delta, the call succeeds exactly if the
delta is valid and can be joined. -/
theorem applyDelta_accepts (h : r.Inv) (hac : r.Acyclic) {millis : Int64}
    (happ : r.applyDelta delta millis = some (r', res)) : (res = .ok () → Accepts r.toReplica delta.nodes) ∧
      (delta.Valid → Accepts r.toReplica delta.nodes → res = .ok () ∨ Rejected res) := by
  unfold RGA.applyDelta at happ
  rcases validateDelta_cases delta with ⟨hv, hd⟩ | hv <;> rw [hv] at happ
  swap
  · cases happ
    refine ⟨fun hok => by simp at hok, fun hd => ?_⟩
    simp [validateDelta_eq_ok.mpr hd] at hv
  unfold RGA.applyDeltaLocked at happ
  cases hc : r.conflicts delta.nodes with
  | true =>
    rw [hc] at happ
    cases happ
    refine ⟨fun hok => by simp at hok, fun _ ha => ?_⟩
    simp [(conflicts_eq_false h.queued).mpr ha.agrees] at hc
  | false =>
    have hagree := (conflicts_eq_false h.queued).mp hc
    have hvalid : ∀ x ∈ delta.nodes, x.valid = true := fun x hx => by
      obtain ⟨item, hitem⟩ := mem_iff.mp hx
      exact (hd.nodes.valid x item hitem).1
    simp only [hc, Bool.false_eq_true, if_false] at happ
    by_cases hsub : r.subsumes delta.nodes delta.tombstones = true
    · rw [if_pos hsub] at happ
      cases happ
      have hsub' := hsub
      simp only [Replica.subsumes, Bool.and_eq_true, all_toList, Bool.or_eq_true, decide_eq_true_eq] at hsub'
      refine ⟨fun _ => ⟨hagree, grounded_join hac hagree fun x hx hk => ?_⟩, fun _ _ => .inl rfl⟩
      -- nothing is new
      obtain ⟨item, hitem⟩ := mem_iff.mp hx
      obtain ⟨hn, hp⟩ := not_mem_of_known hk
      have := hsub'.1 x item hitem
      simp [not_mem_iff.mp hn, not_mem_iff.mp hp] at this
    rw [if_neg hsub] at happ
    cases hrun : resolvedLinearRun r.toReplica delta with
    | some ids =>
      rw [hrun] at happ
      have hl := resolvedLinearRun_spec hd.nodes hrun
      obtain ⟨r₁, res₁, heq, hres⟩ := applyResolvedLinearRun_spec h hd hl millis
      simp only [heq] at happ
      cases happ
      exact ⟨fun _ => ⟨hagree, hl.grounded h hac hd.nodes⟩, fun _ _ => hres.imp (·.1) (·.1)⟩
    | none =>
      rw [hrun] at happ
      have hcheck := acyclicAgainst_join h hac hagree hvalid (fun _ _ hx => hx) fun _ _ hx _ => hx
      split_ifs at happ with hcyc
      · cases happ
        refine ⟨fun hok => by simp at hok, fun _ ha => ?_⟩
        simp [hcheck.mpr ha.acyclic] at hcyc
      obtain ⟨r₁, res₁, heq, hres⟩ := applyPlannedDelta_spec h hd millis
      rw [heq] at happ
      cases happ
      exact ⟨fun _ => ⟨hagree, hcheck.mp (by simpa using hcyc)⟩, fun _ _ => hres.imp (·.1) (·.1)⟩

end Crdt.Text
