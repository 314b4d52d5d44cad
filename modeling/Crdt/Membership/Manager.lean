import Crdt.Gc.FailClosed
import Crdt.Membership.Wire

/-! The membership manager.

A manager holds the active view and the coordinator of its group, and the view is stored before it
becomes active. A process installs views, is told acknowledgements, and may end at any moment, also
while it stores a view; it is started again from the store. `Fenced` is what every step keeps: the
views that have been active are one chain, the store has the active view or its successor, and the
coordinator counts for nothing but the active view. `membership_fencing` reads it off for a run. -/
namespace Crdt.Membership

open List

open Gc (Coordinator Tallied SameView)

/-! ### The store -/

/-- How a call of `SaveView` ends. -/
inductive Save
  | done
  /-- It returns an error; a careless store has the view all the same. -/
  | failed (stored : Bool)
  /-- The process ends, before or after the view is stored. -/
  | crashed (stored : Bool)
deriving DecidableEq, Repr

/-- What is stored after a call of `SaveView`. -/
def Save.store (save : Save) (view : View) (store : Option View) : Option View :=
  match save with
  | .done => some view
  | .failed stored | .crashed stored => if stored then some view else store

/-! ### The manager -/

structure Manager where
  authorityKey : List UInt8
  view : View
  coordinator : Coordinator

def toCoordinatorMembership (view : View) : Gc.Membership :=
  ⟨view.groupID, view.epoch, view.members.map Member.id⟩

/-- The end of `NewManager` and of `OpenManager`. -/
def managerAt (authorityKey : List UInt8) (view : View) : Except Err Manager :=
  match Gc.newCoordinatorAtMembership (toCoordinatorMembership view) with
  | .error _ => .error .coordinator
  | .ok coordinator => .ok {authorityKey, view, coordinator}

/-- `OpenManager`; `LoadView` may fail. -/
def openManager (e : Crypto) (authorityKey : List UInt8) (loads : Bool) (store : Option View) : Except Err Manager :=
  if !loads then .error .store
  else
    match store with
    | none => .error .missingView
    | some view =>
      match verifyView e view authorityKey with
      | .error _ => .error .invalidView
      | .ok () => managerAt authorityKey view

/-- `Install`, with what is stored afterwards; there is no result if the process ends. -/
def Manager.install (e : Crypto) (m : Manager) (next : View) (save : Save) (store : Option View) :
    Option View × Manager × Option (Except Err Unit) :=
  match verifyView e next m.authorityKey with
  | .error _ => (store, m, some (.error .invalidView))
  | .ok () =>
    if next.groupID ≠ m.view.groupID then (store, m, some (.error .groupMismatch))
    else if next.epoch ≤ m.view.epoch then
      if next.epoch = m.view.epoch ∧ next.hash e = m.view.hash e then (store, m, some (.ok ()))
      else (store, m, some (.error .viewRollback))
    else if next.epoch ≠ m.view.epoch + 1 then (store, m, some (.error .viewFork))
    else if next.previousHash ≠ m.view.hash e then (store, m, some (.error .viewFork))
    else
      match save with
      | .failed _ => (save.store next store, m, some (.error .store))
      | .crashed _ => (save.store next store, m, none)
      | .done =>
        match m.coordinator.installMembership (toCoordinatorMembership next) with
        | (coordinator, .error _) => (some next, {m with coordinator}, some (.error .coordinator))
        | (coordinator, .ok ()) => (some next, {m with coordinator, view := next}, some (.ok ()))

/-! ### Runs -/

/-- An acknowledgement that the coordinator recorded, with the view that was active. -/
structure Report where
  view : View
  member : List UInt8
  tags : List Tag

structure Process where
  store : Option View
  manager : Option Manager
  /-- The views that have been active, newest first. -/
  views : List View
  reports : List Report

inductive Event
  | install (next : View) (save : Save)
  /-- The process is started again. -/
  | restart (authorityKey : List UInt8) (loads : Bool)
  | acknowledge (groupID member : List UInt8) (epoch : UInt64) (tags : List Tag)
  | prune (groupID : List UInt8) (epoch : UInt64) (tags : List Tag)

/-- The views that have been active once this one is. -/
def activate (view : View) (views : List View) : List View :=
  if views.head? = some view then views else view :: views

/-- What the coordinator answers is an error of its own. -/
def coordinatorResult {α : Type} : Except Gc.Err α → Except Err Unit
  | .error _ => .error .coordinator
  | .ok _ => .ok ()

/-- A step, with the result of the call unless the process ended. -/
def step (e : Crypto) (s : Process) : Event → Process × Option (Except Err Unit)
  | .install next save =>
    match s.manager with
    | none => (s, some (.error .invalidView))
    | some m =>
      match m.install e next save s.store with
      | (store, _, none) => ({s with store, manager := none}, none)
      | (store, m, some (.error err)) => ({s with store, manager := some m}, some (.error err))
      | (store, m, some (.ok ())) =>
        ({s with store, manager := some m, views := activate m.view s.views}, some (.ok ()))
  | .restart authorityKey loads =>
    match openManager e authorityKey loads s.store with
    | .error err => ({s with manager := none}, some (.error err))
    | .ok m => ({s with manager := some m, views := activate m.view s.views}, some (.ok ()))
  | .acknowledge groupID member epoch tags =>
    match s.manager with
    | none => (s, some (.error .coordinator))
    | some m =>
      match m.coordinator.acknowledge groupID member epoch tags with
      | (coordinator, .error _) => ({s with manager := some {m with coordinator}}, some (.error .coordinator))
      | (coordinator, .ok ()) =>
        ({s with manager := some {m with coordinator}, reports := ⟨m.view, member, tags⟩ :: s.reports}, some (.ok ()))
  | .prune groupID epoch tags =>
    match s.manager with
    | none => (s, some (.error .coordinator))
    | some m =>
      let (coordinator, result) := m.coordinator.pruneAcknowledgements groupID epoch tags
      ({s with manager := some {m with coordinator}}, some (coordinatorResult result))

def run (e : Crypto) (s : Process) : List Event → Process
  | [] => s
  | event :: rest => run e (step e s event).1 rest

/-- The views that a run is offered. -/
def offered : List Event → List View
  | [] => []
  | .install next _ :: rest => next :: offered rest
  | _ :: rest => offered rest

/-! ### The coordinator of a view -/

/-- The coordinator has the group, the epoch and the members of the view. -/
structure Agrees (c : Coordinator) (v : View) : Prop where
  groupID : c.groupID = v.groupID
  epoch : c.epoch = v.epoch
  members : ∀ id, id ∈ c.members ↔ ∃ m ∈ v.members, m.id = id

theorem addMembers_of_nodup (known : Gc.MemberSet) {members : List Member}
    (hblank : ∀ m ∈ members, blank m.id = false) (hu : (members.map Member.id).Nodup)
    (hnew : ∀ m ∈ members, m.id ∉ known) : ∃ all, Gc.addMembers (members.map Member.id) known = .ok all ∧
      ∀ id, id ∈ all ↔ id ∈ known ∨ ∃ m ∈ members, m.id = id := by
  induction members generalizing known with
  | nil => exact ⟨known, rfl, by simp⟩
  | cons m members ih =>
    obtain ⟨hm, hu⟩ := nodup_cons.mp hu
    obtain ⟨hb, hblank⟩ := forall_mem_cons.mp hblank
    obtain ⟨hn, hnew⟩ := forall_mem_cons.mp hnew
    obtain ⟨all, hall, hmem⟩ := ih (known.insert m.id) hblank hu fun x hx hin => by
      rw [Std.ExtTreeSet.mem_insert, Std.LawfulEqCmp.compare_eq_iff_eq] at hin
      exact hin.elim (fun he => hm (he ▸ mem_map_of_mem hx)) (hnew x hx)
    refine ⟨all, ?_, fun id => ?_⟩
    · simpa [Gc.addMembers, hb, hn] using hall
    · rw [hmem, Std.ExtTreeSet.mem_insert, Std.LawfulEqCmp.compare_eq_iff_eq, exists_mem_cons_iff]
      tauto

variable {v : View}

theorem validateMembers_of_valid (h : v.validUnsigned = true) :
    ∃ all, Gc.validateMembers (v.members.map Member.id) = .ok all ∧ ∀ id, id ∈ all ↔ ∃ m ∈ v.members, m.id = id := by
  obtain ⟨hblank, hu⟩ := View.ids_of_validUnsigned h
  obtain ⟨all, hall, hmem⟩ := addMembers_of_nodup ∅ hblank hu (by simp)
  refine ⟨all, ?_, fun id => by simpa using hmem id⟩
  rw [Gc.validateMembers, if_neg (by simpa using (View.of_validUnsigned h).1), hall]

theorem View.epoch_of_validUnsigned (h : v.validUnsigned = true) : v.epoch ≠ 0 ∧ v.groupID ≠ [] := by
  rw [validUnsigned] at h
  split_ifs at h with hbad
  simp only [Bool.or_eq_true, decide_eq_true_eq, not_or] at hbad
  refine ⟨hbad.1.1.1.2, fun hnil => hbad.1.1.1.1 ?_⟩
  rw [hnil]
  rfl

/-- A coordinator that agrees with a view and has recorded nothing. -/
structure Fresh (c : Coordinator) (v : View) : Prop where
  agrees : Agrees c v
  tallied : Tallied c 0
  nothing : ∀ member, c.retained member = ∅

theorem managerAt_of_valid (h : v.validUnsigned = true) (key : List UInt8) :
    ∃ c, managerAt key v = .ok ⟨key, v, c⟩ ∧ Fresh c v := by
  obtain ⟨all, hall, hmem⟩ := validateMembers_of_valid h
  obtain ⟨hepoch, hgroup⟩ := View.epoch_of_validUnsigned h
  refine ⟨{groupID := v.groupID, epoch := v.epoch, members := all}, ?_, ⟨⟨rfl, rfl, hmem⟩, .empty rfl rfl rfl, ?_⟩⟩
  · simp only [managerAt, Gc.newCoordinatorAtMembership, toCoordinatorMembership, hall, if_neg hepoch, if_neg hgroup]
  · intro member
    simp [Coordinator.retained]

variable {c : Coordinator} {next : View}

/-- The coordinator accepts the next view, and forgets what it had recorded. -/
theorem installMembership_of_valid (hc : Agrees c v) (h : next.validUnsigned = true)
    (hgroup : next.groupID = v.groupID) (hlt : v.epoch < next.epoch) :
    ∃ c', c.installMembership (toCoordinatorMembership next) = (c', .ok ()) ∧ Fresh c' next := by
  obtain ⟨all, hall, hmem⟩ := validateMembers_of_valid h
  have hepoch := (View.epoch_of_validUnsigned h).1
  refine ⟨c.view next.epoch all, ?_, ⟨⟨hc.groupID.trans hgroup.symm, rfl, hmem⟩, .empty rfl rfl rfl, ?_⟩⟩
  · simp only [Coordinator.installMembership, toCoordinatorMembership, hall, hc.groupID, hc.epoch, hgroup, if_neg hepoch,
      ne_eq, not_true_eq_false, if_false, if_neg (UInt64.not_lt.mpr (UInt64.le_of_lt hlt)),
      if_neg (UInt64.ne_of_lt hlt).symm]
  · intro member
    simp [Coordinator.retained, Coordinator.view]

/-! ### Installing a view -/

/-- The next link of the chain of views. -/
structure Follows (e : Crypto) (next v : View) : Prop where
  groupID : next.groupID = v.groupID
  previousHash : next.previousHash = v.hash e
  epoch : next.epoch.toNat = v.epoch.toNat + 1

/-- A view that has the right form and is signed. -/
structure View.Signed (v : View) : Prop where
  valid : v.validUnsigned = true
  signature : v.signature.length = signatureSize

variable {key : List UInt8} {e : Crypto}

theorem signed_of_verifyView (h : verifyView e v key = .ok ()) : v.Signed := by
  rw [verifyView] at h
  split_ifs at h with hbad
  simp only [Bool.or_eq_true, Bool.not_eq_true', decide_eq_true_eq, not_or, not_not, Bool.not_eq_false] at hbad
  exact ⟨hbad.1.2, hbad.2⟩

/-- What `Install` can do. -/
inductive Installs (e : Crypto) (m : Manager) (next : View) (store : Option View) :
    Save → Option View × Manager × Option (Except Err Unit) → Prop
  | refused {save : Save} (err : Err) (h : err ≠ .store) : Installs e m next store save (store, m, some (.error err))
  | replayed {save : Save} (hnext : next.Signed) (hgroup : next.groupID = m.view.groupID)
      (hhash : next.hash e = m.view.hash e) : Installs e m next store save (store, m, some (.ok ()))
  | failed (stored : Bool) (hnext : next.Signed) (h : Follows e next m.view) :
      Installs e m next store (.failed stored) (if stored then some next else store, m, some (.error .store))
  | crashed (stored : Bool) (hnext : next.Signed) (h : Follows e next m.view) :
      Installs e m next store (.crashed stored) (if stored then some next else store, m, none)
  | installed (c : Coordinator) (hnext : next.Signed) (h : Follows e next m.view) (hc : Fresh c next) :
      Installs e m next store .done (some next, {m with coordinator := c, view := next}, some (.ok ()))

theorem Manager.install_cases (e : Crypto) {m : Manager} (hm : Agrees m.coordinator m.view) (next : View) (save : Save)
    (store : Option View) : Installs e m next store save (m.install e next save store) := by
  unfold Manager.install
  cases hverify : verifyView e next m.authorityKey with
  | error err => exact .refused _ nofun
  | ok u =>
    have hnext := signed_of_verifyView hverify
    split_ifs with hgroup hle hsame hepoch hprevious
    · exact .refused _ nofun
    · exact .replayed hnext (not_not.mp hgroup) hsame.2
    · exact .refused _ nofun
    · exact .refused _ nofun
    · exact .refused _ nofun
    have hlt : m.view.epoch < next.epoch := UInt64.not_le.mp hle
    -- The sum does not wrap: the next epoch would be 0, below the epoch before.
    have hsucc : next.epoch.toNat = m.view.epoch.toNat + 1 := by
      have hlt' := UInt64.lt_iff_toNat_lt.mp hlt
      have hsum := congrArg UInt64.toNat (not_not.mp hepoch)
      rw [UInt64.toNat_add, UInt64.toNat_one] at hsum
      omega
    have hfollows : Follows e next m.view := ⟨not_not.mp hgroup, not_not.mp hprevious, hsucc⟩
    cases save with
    | failed stored => exact .failed stored hnext hfollows
    | crashed stored => exact .crashed stored hnext hfollows
    | done =>
      obtain ⟨c, hc, hfresh⟩ := installMembership_of_valid hm hnext.valid hfollows.groupID hlt
      rw [hc]
      exact .installed c hnext hfollows hfresh

/-! ### Hashes -/

/-- The byte strings that are hashed for views. -/
def hashed (views : Set View) : Set (List UInt8) :=
  {bytes | ∃ v ∈ views, ∃ payload, v.signingBytes = .ok payload ∧ bytes = payload ++ v.signature}

/-- No two views of a run have the same hash for different bytes. -/
def CollisionFree (e : Crypto) (views : Set View) : Prop := Set.InjOn e.sum256 (hashed views)

variable {w : View}

section Invariant

variable {e : Crypto} {initial : View} {known : Set View} {careful : Prop} {s : Process} {m : Manager}

/-- A manager at work: its view is the active one, and its coordinator counts for this view only. -/
structure Live (known : Set View) (careful : Prop) (s : Process) (m : Manager) : Prop where
  active : s.views.head? = some m.view
  signed : m.view.Signed
  known : m.view ∈ known
  stored : careful → s.store = some m.view
  agrees : Agrees m.coordinator m.view
  tallied : Tallied m.coordinator 0
  reported : ∀ member, ∀ tag ∈ m.coordinator.retained member,
    ∃ r ∈ s.reports, r.view = m.view ∧ r.member = member ∧ tag ∈ r.tags

/-- The views that have been active are one chain from the first, and the store has the active view or
its successor. -/
structure Fenced (e : Crypto) (initial : View) (known : Set View) (careful : Prop) (s : Process) : Prop where
  chain : s.views.IsChain (Follows e)
  first : s.views.getLast? = some initial
  stored : ∃ v w, s.store = some v ∧ v ∈ known ∧ s.views.head? = some w ∧ (v = w ∨ Follows e v w)
  live : ∀ m, s.manager = some m → Live known careful s m

theorem activate_spec {views : List View} (hchain : views.IsChain (Follows e))
    (hfirst : views.getLast? = some initial) (hhead : views.head? = some w) (hv : v = w ∨ Follows e v w) :
    (activate v views).IsChain (Follows e) ∧ (activate v views).getLast? = some initial ∧
      (activate v views).head? = some v := by
  unfold activate
  split_ifs with hsame
  · exact ⟨hchain, hfirst, hsame⟩
  cases views with
  | nil => cases hhead
  | cons x views =>
    cases hhead
    rcases hv with rfl | hv
    · exact absurd rfl hsame
    · exact ⟨hchain.cons_cons hv, by rw [getLast?_cons_cons, hfirst], rfl⟩

theorem Live.of_fresh (hc : Fresh c v) (hv : v.Signed) (hknown : v ∈ known)
    (hactive : s.views.head? = some v) (hstore : careful → s.store = some v) : Live known careful s ⟨key, v, c⟩ := by
  refine ⟨hactive, hv, hknown, hstore, hc.agrees, hc.tallied, fun member tag htag => ?_⟩
  rw [hc.nothing] at htag
  exact absurd htag Std.ExtTreeSet.not_mem_empty

section
variable (h : Fenced e initial known careful s)
include h

/-- The process ends; the store may have gone on to a successor. -/
theorem Fenced.ended {store : Option View}
    (hstore : store = s.store ∨ ∃ v w, store = some v ∧ v ∈ known ∧ s.views.head? = some w ∧ Follows e v w) :
    Fenced e initial known careful {s with store, manager := none} := by
  refine ⟨h.chain, h.first, ?_, nofun⟩
  rcases hstore with hsame | ⟨v, w, hv, hknown, hw, hfollows⟩
  · rw [hsame]
    exact h.stored
  · exact ⟨v, w, hv, hknown, hw, .inr hfollows⟩

theorem Fenced.activated (key : List UInt8)
    (hv : v ∈ known) (hsigned : v.Signed) (hw : s.views.head? = some w) (hfollows : v = w ∨ Follows e v w)
    (hc : Fresh c v) : Fenced e initial known careful
      {s with store := some v, manager := some ⟨key, v, c⟩, views := activate v s.views} := by
  obtain ⟨hchain, hfirst, hhead⟩ := activate_spec h.chain h.first hw hfollows
  refine ⟨hchain, hfirst, ⟨v, v, rfl, hv, hhead, .inl rfl⟩, fun m hm => ?_⟩
  cases hm
  exact .of_fresh hc hsigned hv hhead fun _ => rfl

theorem Fenced.unchanged (hm : s.manager = some m) :
    Fenced e initial known careful {s with manager := some m} := by
  rw [← hm]
  exact h

end

variable {save : Save} {event : Event}

section
variable (h : Fenced e initial known careful s)
include h

theorem Fenced.install (hnext : next ∈ known)
    (hcareful : careful → save ≠ .failed true) : Fenced e initial known careful (step e s (.install next save)).1 := by
  cases hm : s.manager with
  | none =>
    rw [step, hm]
    exact h
  | some m =>
    have hlive := h.live m hm
    have hcases := m.install_cases e hlive.agrees next save s.store
    generalize hr : m.install e next save s.store = result at hcases
    rw [step, hm]
    dsimp only
    rw [hr]
    cases hcases with
    | refused err _ => exact h.unchanged hm
    | replayed _ _ _ =>
      dsimp only
      rw [activate, if_pos hlive.active]
      exact h.unchanged hm
    | failed stored _ hfollows =>
      cases stored with
      | false => exact h.unchanged hm
      | true =>
        refine ⟨h.chain, h.first, ⟨next, m.view, rfl, hnext, hlive.active, .inr hfollows⟩, fun m' hm' => ?_⟩
        cases hm'
        exact
          { active := hlive.active
            signed := hlive.signed
            known := hlive.known
            stored := fun hc => absurd rfl (hcareful hc)
            agrees := hlive.agrees
            tallied := hlive.tallied
            reported := hlive.reported }
    | crashed stored _ hfollows =>
      apply h.ended
      cases stored with
      | false => exact .inl rfl
      | true => exact .inr ⟨next, m.view, rfl, hnext, hlive.active, hfollows⟩
    | installed c hsigned hfollows hc =>
      exact h.activated m.authorityKey hnext hsigned hlive.active (.inr hfollows) hc

theorem Fenced.restart (key : List UInt8) (loads : Bool) :
    Fenced e initial known careful (step e s (.restart key loads)).1 := by
  obtain ⟨v, w, hstore, hv, hw, hfollows⟩ := h.stored
  cases hopen : openManager e key loads s.store with
  | error err =>
    rw [step, hopen]
    exact h.ended (.inl rfl)
  | ok m =>
    rw [step, hopen]
    unfold openManager at hopen
    rw [hstore] at hopen
    split_ifs at hopen
    dsimp only at hopen
    split at hopen
    · cases hopen
    rename_i hverify
    have hsigned := signed_of_verifyView hverify
    obtain ⟨c, hc, hfresh⟩ := managerAt_of_valid hsigned.valid key
    rw [hc] at hopen
    cases hopen
    have hnext := h.activated key hv hsigned hw hfollows hfresh
    rw [← hstore] at hnext
    exact hnext

theorem Fenced.record (hm : s.manager = some m)
    {reports : List Report} (hview : SameView m.coordinator c) (htally : Tallied c 0)
    (hret : ∀ member, ∀ tag ∈ c.retained member, ∃ r ∈ reports, r.view = m.view ∧ r.member = member ∧ tag ∈ r.tags) :
    Fenced e initial known careful {s with manager := some {m with coordinator := c}, reports} := by
  have hlive := h.live m hm
  refine ⟨h.chain, h.first, h.stored, fun m' hm' => ?_⟩
  cases hm'
  exact
    { active := hlive.active
      signed := hlive.signed
      known := hlive.known
      stored := hlive.stored
      agrees := ⟨hview.groupID.trans hlive.agrees.groupID, hview.epoch.trans hlive.agrees.epoch, fun id =>
        hview.members ▸ hlive.agrees.members id⟩
      tallied := htally
      reported := hret }

theorem Fenced.acknowledge (groupID member : List UInt8) (epoch : UInt64)
    (tags : List Tag) : Fenced e initial known careful (step e s (.acknowledge groupID member epoch tags)).1 := by
  cases hm : s.manager with
  | none =>
    rw [step, hm]
    exact h
  | some m =>
    have hlive := h.live m hm
    rw [step, hm]
    dsimp only
    unfold Coordinator.acknowledge
    cases Gc.validateTombstones tags with
    | error err => exact h.record hm ⟨rfl, rfl, rfl⟩ hlive.tallied hlive.reported
    | ok u =>
      have hleaves := Gc.acknowledgeLocked_spec hlive.tallied groupID member epoch tags
      rcases hack : m.coordinator.acknowledgeLocked groupID member epoch tags with ⟨c, err | ⟨⟩⟩
      all_goals
        rw [hack] at hleaves
        obtain ⟨htally, hview, hret⟩ := hleaves
        refine h.record hm hview htally fun member' tag htag => ?_
      · exact (hret member' tag htag).elim (hlive.reported member' tag) nofun
      rcases hret member' tag htag with hold | ⟨-, -, -, hmember, hnew⟩
      · obtain ⟨r, hr, hrest⟩ := hlive.reported member' tag hold
        exact ⟨r, mem_cons_of_mem _ hr, hrest⟩
      · exact ⟨_, mem_cons_self, rfl, hmember.symm, hnew⟩

theorem Fenced.prune (groupID : List UInt8) (epoch : UInt64) (tags : List Tag) :
    Fenced e initial known careful (step e s (.prune groupID epoch tags)).1 := by
  cases hm : s.manager with
  | none =>
    rw [step, hm]
    exact h
  | some m =>
    have hlive := h.live m hm
    rw [step, hm]
    dsimp only
    obtain ⟨htally, hview, hret⟩ := Gc.pruneAcknowledgements_spec hlive.tallied groupID epoch tags
    exact h.record hm hview htally fun member tag htag => hlive.reported member tag (hret member tag htag).1

end

/-- No failed `SaveView` has stored its view. -/
def Careful (events : List Event) : Prop := ∀ next, .install next (.failed true) ∉ events

theorem Fenced.step (h : Fenced e initial known careful s) (hknown : ∀ v ∈ offered [event], v ∈ known)
    (hcareful : careful → Careful [event]) : Fenced e initial known careful (step e s event).1 := by
  cases event with
  | install next save =>
    apply h.install (hknown next mem_cons_self)
    intro hc hsave
    exact hcareful hc next (hsave ▸ mem_cons_self)
  | restart key loads => exact h.restart key loads
  | acknowledge groupID member epoch tags => exact h.acknowledge groupID member epoch tags
  | prune groupID epoch tags => exact h.prune groupID epoch tags

theorem offered_append (a b : List Event) : offered (a ++ b) = offered a ++ offered b := by
  induction a with
  | nil => rfl
  | cons event a ih => cases event <;> simp only [cons_append, offered, ih]

theorem Fenced.run (h : Fenced e initial known careful s) {events : List Event}
    (hknown : ∀ v ∈ offered events, v ∈ known) (hcareful : careful → Careful events) :
    Fenced e initial known careful (run e s events) := by
  induction events generalizing s with
  | nil => exact h
  | cons event events ih =>
    have hsplit : offered (event :: events) = offered [event] ++ offered events := offered_append [event] events
    rw [hsplit] at hknown
    apply ih
    · apply h.step
      · intro v hv
        exact hknown v (mem_append_left _ hv)
      · intro hc next hmem
        exact hcareful hc next (mem_cons.mpr (.inl (mem_singleton.mp hmem)))
    · intro v hv
      exact hknown v (mem_append_right _ hv)
    · intro hc next hmem
      exact hcareful hc next (mem_cons_of_mem _ hmem)

end Invariant

end Crdt.Membership
