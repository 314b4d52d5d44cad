import Crdt.Text.Undo

/-! What the undo history knows of the visible text.

A rune of the text may lose its position and get another one, time and again, as edits are
undone and redone. `Name` is what stays: the index of the rune in the insertion that brought
it in, or the position at which it was found when the history began. `Cells` says that the
replica shows a list of names at their present places, and that the entries and the owner map
of the history know these places. Taking names out (`Cells.remove`) and putting them back
(`Cells.restore`) keep it. -/
namespace Crdt.Text

open Clock Rga MapLoop Option List

/-- A rune of the text for as long as the history remembers it. -/
inductive Name
  | owned (entry index : Nat) (value : Rune)
  | base (position : Position) (value : Rune)
deriving DecidableEq

namespace Name

def rune : Name → Rune
  | owned _ _ value => value
  | base _ value => value

def owner : Name → Option PositionOwner
  | owned entry index _ => some ⟨entry, index⟩
  | base _ _ => none

/-- The names of the runes of an insertion. -/
def block (id : Nat) (value : List Rune) : List Name := value.mapIdx (owned id)

@[simp] theorem length_block (id : Nat) (value : List Rune) : (block id value).length = value.length := by
  simp [block]

theorem getElem?_block (id : Nat) (value : List Rune) (j : Nat) :
    (block id value)[j]? = value[j]?.map (owned id j) := by
  simp [block]

theorem map_rune_block (id : Nat) (value : List Rune) : (block id value).map rune = value := by
  refine ext_getElem? fun j => ?_
  rw [getElem?_map, getElem?_block]
  cases value[j]? <;> rfl

theorem owner_block {id : Nat} {value : List Rune} {j : Nat} {n : Name}
    (h : (block id value)[j]? = some n) : n.owner = some ⟨id, j⟩ := by
  rw [getElem?_block] at h
  obtain ⟨v, _, rfl⟩ := map_eq_some_iff.mp h
  rfl

theorem mem_block {id : Nat} {value : List Rune} {n : Name} (h : n ∈ block id value) :
    ∃ j v, value[j]? = some v ∧ n = owned id j v := by
  obtain ⟨j, hj⟩ := mem_iff_getElem?.mp h
  rw [getElem?_block] at hj
  obtain ⟨v, hv, rfl⟩ := map_eq_some_iff.mp hj
  exact ⟨j, v, hv, rfl⟩

theorem nodup_block (id : Nat) (value : List Rune) : (block id value).Nodup := by
  refine nodup_iff_getElem?_ne_getElem?.mpr fun i j hij hj he => ?_
  rw [length_block] at hj
  rw [getElem?_block, getElem?_block, getElem?_eq_getElem hj, getElem?_eq_getElem (hij.trans hj)] at he
  simp only [map_some, some.injEq, owned.injEq] at he
  omega

/-- The places of `names` change to `ids`. -/
def rename (place : Name → Position) (names : List Name) (ids : List Position) (n : Name) : Position :=
  ((names.zip ids).lookup n).getD (place n)

variable {place : Name → Position} {names : List Name} {ids : List Position} {n : Name}

theorem rename_of_not_mem (h : n ∉ names) : rename place names ids n = place n := by
  induction names generalizing ids with
  | nil => rfl
  | cons n' names ih =>
    cases ids with
    | nil => rfl
    | cons x ids =>
      have hne : (n == n') = false := by simpa using fun he : n = n' => h (he ▸ mem_cons_self)
      rw [rename, zip_cons_cons, lookup_cons, hne]
      exact ih fun hm => h (mem_cons_of_mem _ hm)

theorem map_rename_of_disjoint {others : List Name} (h : ∀ n ∈ names, n ∉ others) :
    names.map (rename place others ids) = names.map place :=
  map_congr_left fun n hn => rename_of_not_mem (h n hn)

variable (place : Name → Position) (hn : names.Nodup) (hlen : names.length = ids.length)
include hn hlen

theorem map_rename : names.map (rename place names ids) = ids := by
  induction names generalizing ids with
  | nil => exact (eq_nil_of_length_eq_zero hlen.symm).symm
  | cons n names ih =>
    obtain ⟨hnot, hn⟩ := nodup_cons.mp hn
    cases ids with
    | nil => simp at hlen
    | cons x ids =>
      have hhead : rename place (n :: names) (x :: ids) n = x := by simp [rename]
      rw [map_cons]
      congr 1
      have hlen' : names.length = ids.length := by simpa using hlen
      refine Eq.trans (map_congr_left fun n' hn' => ?_) (ih hn hlen')
      have hne : (n' == n) = false := by simpa using fun he : n' = n => hnot (he ▸ hn')
      rw [rename, zip_cons_cons, lookup_cons, hne]
      rfl

theorem rename_getElem {j : Nat} (hj : names[j]? = some n) : ids[j]? = some (rename place names ids n) := by
  conv_lhs => rw [← map_rename place hn hlen]
  rw [getElem?_map, hj]
  rfl

end Name

/-! ### The replica -/

variable {r r' : RGA} {place : Name → Position} {names A N B : List Name}

theorem perm_names (A N B : List Name) : (A ++ N ++ B).Perm (N ++ (A ++ B)) := by
  rw [← append_assoc]
  exact perm_append_comm.append_right B

theorem mem_names {n : Name} : n ∈ A ++ N ++ B ↔ n ∈ N ∨ n ∈ A ++ B :=
  (perm_names A N B).mem_iff.trans mem_append

/-- The replica shows `names`, in this order, at their places. -/
structure Shows (r : RGA) (place : Name → Position) (names : List Name) : Prop where
  ready : Ready r
  visible : r.visible = names.map place
  runes : ∀ n ∈ names, r.runeAt (place n) = n.rune

namespace Shows

theorem text (h : Shows r place names) : r.visibleRunes = some (names.map Name.rune) := by
  rw [visibleRunes_eq h.ready.inv, h.visible, List.map_map]
  exact congrArg some (map_congr_left h.runes)

theorem placed (h : Shows r place names) {n : Name} (hn : n ∈ names) :
    place n ∈ r.nodes ∧ place n ∉ r.tombstones := by
  have hv : place n ∈ r.visible := by
    rw [h.visible]
    exact mem_map_of_mem hn
  exact (mem_projection h.ready.inv.indexed.forested).mp hv

theorem nodup_places (h : Shows r place names) : (names.map place).Nodup := by
  rw [← h.visible]
  exact nodup_projection h.ready.inv.indexed.forested

theorem insert {p : Position} {chain : List (Position × Rune)} (h : Shows r place (A ++ B))
    (he : Edited r r' p chain []) (hp : visibleThrough r.nodes r.tombstones p = A.length)
    (hN : N.map Name.rune = chain.map Prod.snd) (hnodup : (A ++ N ++ B).Nodup) :
    Shows r' (Name.rename place N (chain.map Prod.fst)) (A ++ N ++ B) := by
  obtain ⟨hNn, -, hapart⟩ := nodup_append.mp ((perm_names A N B).nodup_iff.mp hnodup)
  have hlen : N.length = (chain.map Prod.fst).length := by simpa using congrArg List.length hN
  have hout : ∀ n ∈ A ++ B, n ∉ N := fun n hn hm => hapart n hm n hn rfl
  have hren := Name.map_rename place hNn hlen
  refine ⟨he.ready, ?_, fun n hn => ?_⟩
  · have hv : r.visible = A.map place ++ B.map place := by rw [h.visible, map_append]
    rw [he.visible h.ready, hp, hv, ← length_map (f := place), take_left, drop_left,
      map_append, map_append, hren, Name.map_rename_of_disjoint fun n hn => hout n (mem_append_left _ hn),
      Name.map_rename_of_disjoint fun n hn => hout n (mem_append_right _ hn)]
    simp
  by_cases hm : n ∈ N
  · have hmap : N.map (r'.runeAt ∘ Name.rename place N (chain.map Prod.fst)) = N.map Name.rune := by
      rw [← List.map_map, hren, he.map_runeAt, hN]
    exact map_inj_left.mp hmap n hm
  have hn' : n ∈ A ++ B := (mem_names.mp hn).resolve_left hm
  rw [Name.rename_of_not_mem hm, he.runeAt (h.placed hn').1]
  exact h.runes n hn'

theorem delete (h : Shows r place (A ++ N ++ B)) (he : Edited r r' .zero [] (N.map place)) :
    Shows r' place (A ++ B) := by
  have hsub : ∀ n ∈ A ++ B, n ∈ A ++ N ++ B := fun n hn => mem_names.mpr (.inr hn)
  refine ⟨he.ready, ?_, fun n hn => ?_⟩
  · have hnodup := h.nodup_places
    rw [map_append, map_append] at hnodup
    obtain ⟨hAN, _, hB⟩ := nodup_append.mp hnodup
    obtain ⟨_, _, hA⟩ := nodup_append.mp hAN
    rw [he.visible h.ready, visibleThrough_zero h.ready.inv.indexed.forested, h.visible]
    simp only [take_zero, map_nil, append_nil, nil_append, drop_zero, map_append, filter_append]
    have hkeepA : (A.map place).filter (· ∉ N.map place) = A.map place :=
      filter_eq_self.mpr fun x hx => decide_eq_true fun hm => hA x hx x hm rfl
    have hdrop : (N.map place).filter (· ∉ N.map place) = [] :=
      filter_eq_nil_iff.mpr fun x hx => by simpa using hx
    have hkeepB : (B.map place).filter (· ∉ N.map place) = B.map place := filter_eq_self.mpr fun x hx =>
        decide_eq_true fun hm => hB x (mem_append_right _ hm) x hx rfl
    rw [hkeepA, hdrop, hkeepB, append_nil]
  · rw [he.runeAt (h.placed (hsub n hn)).1]
    exact h.runes n (hsub n hn)

end Shows

/-! ### The entries and the owners -/

/-- The position that an entry has at an index. -/
def positionOf (entries : List UndoEntry) (o : PositionOwner) : Option Position :=
  entries[o.entry]?.bind fun entry => entry.positions[o.index]?

def kindOf (entries : List UndoEntry) (id : Nat) : Option UndoKind := entries[id]?.map UndoEntry.kind

variable {entries entries' : List UndoEntry} {owners owners' : TagMap PositionOwner}
  {live live' : List Nat}

/-- Entries keep all but their positions, and how many of those they have. -/
def Keeps (entries entries' : List UndoEntry) : Prop :=
  ∀ (id : Nat) (entry : UndoEntry), entries[id]? = some entry → ∃ positions,
    entries'[id]? = some {entry with positions} ∧ positions.length = entry.positions.length

namespace Keeps

theorem refl (entries : List UndoEntry) : Keeps entries entries :=
  fun _ entry h => ⟨entry.positions, h, rfl⟩

theorem trans {entries'' : List UndoEntry} (h : Keeps entries entries') (h' : Keeps entries' entries'') :
    Keeps entries entries'' := by
  intro id entry he
  obtain ⟨ps, he', hlen⟩ := h id entry he
  obtain ⟨ps', he'', hlen'⟩ := h' id _ he'
  exact ⟨ps', he'', hlen'.trans hlen⟩

theorem append (entries : List UndoEntry) (entry : UndoEntry) : Keeps entries (entries ++ [entry]) :=
  fun id e h => ⟨e.positions, by
    rw [getElem?_append_left (List.getElem?_eq_some_iff.mp h).1]
    exact h, rfl⟩

theorem modify {id : Nat} {f : List Position → List Position}
    (hf : ∀ entry, entries[id]? = some entry → (f entry.positions).length = entry.positions.length) :
    Keeps entries (entries.modify id fun entry => {entry with positions := f entry.positions}) := by
  intro id' entry he
  rw [getElem?_modify, he]
  by_cases hid : id = id'
  · subst hid
    exact ⟨f entry.positions, by simp, hf entry he⟩
  · exact ⟨entry.positions, by simp [hid], rfl⟩

end Keeps

theorem positionOf_setPosition (m : UndoManager) (id index : Nat) (x : Position) (o : PositionOwner) :
    positionOf (m.setPosition id index x).entries o =
      if o = ⟨id, index⟩ then (positionOf m.entries o).map fun _ => x else positionOf m.entries o := by
  obtain ⟨e, i⟩ := o
  simp only [positionOf, UndoManager.setPosition, getElem?_modify, PositionOwner.mk.injEq]
  cases m.entries[e]? with
  | none => simp
  | some entry =>
    by_cases he : id = e
    · subst he
      by_cases hi : index = i
      · subst hi
        by_cases hlt : index < entry.positions.length
        · simp [hlt]
        · simp [hlt]
      · simp [getElem?_set_ne hi, Ne.symm hi]
    · simp [he, Ne.symm he]

section Owners

open UndoManager

variable {id index : Nat} {x : Position} {ids : List Position}

theorem getElem?_registerFrom_of_not_mem
    (hx : x ∉ ids) : (registerFrom owners id index ids)[x]? = owners[x]? := by
  induction ids generalizing owners index with
  | nil => rfl
  | cons y ids ih =>
    obtain ⟨hy, hx⟩ := not_or.mp (mem_cons.not.mp hx)
    rw [registerFrom]
    split
    · rw [ih hx, get?_insert, if_neg (Ne.symm hy)]
    · exact ih hx

theorem getElem?_registerFrom {j : Nat}
    (hnodup : ids.Nodup) (hvalid : ∀ y ∈ ids, y.valid = true) (hx : ids[j]? = some x) :
    (registerFrom owners id index ids)[x]? = some ⟨id, index + j⟩ := by
  induction ids generalizing owners index j with
  | nil => simp at hx
  | cons y ids ih =>
    obtain ⟨hy, hnodup⟩ := nodup_cons.mp hnodup
    rw [registerFrom, if_pos (hvalid y (by simp))]
    cases j with
    | zero =>
      cases hx
      rw [getElem?_registerFrom_of_not_mem hy, get?_insert, if_pos rfl]
      rfl
    | succ j =>
      rw [ih hnodup (fun z hz => hvalid z (by simp [hz])) hx]
      congr 2
      omega

theorem getElem?_unregister_of_not_mem (hx : x ∉ ids) : (unregister owners ids)[x]? = owners[x]? := by
  induction ids generalizing owners with
  | nil => rfl
  | cons y ids ih =>
    obtain ⟨hy, hx⟩ := not_or.mp (mem_cons.not.mp hx)
    exact (ih hx).trans (by rw [getElem?_erase, if_neg (Ne.symm hy)])

theorem mem_of_mem_unregister (hx : x ∈ unregister owners ids) : x ∈ owners := by
  induction ids generalizing owners with
  | nil => exact hx
  | cons y ids ih => exact Std.ExtTreeMap.mem_of_mem_erase (ih hx)

theorem getElem?_disown {ids : List Nat}
    (hx : ∀ id ∈ ids, kindOf entries id = some .insertion → ∀ j, positionOf entries ⟨id, j⟩ ≠ some x) :
    (disown entries owners ids)[x]? = owners[x]? := by
  induction ids generalizing owners with
  | nil => rfl
  | cons id ids ih =>
    rw [disown, foldl_cons]
    refine (ih fun id' hid' => hx id' (by simp [hid'])).trans ?_
    cases he : entries[id]? with
    | none => rfl
    | some entry =>
      dsimp only
      split_ifs with hk
      · refine getElem?_unregister_of_not_mem fun hm => ?_
        obtain ⟨j, hj⟩ := mem_iff_getElem?.mp hm
        exact hx id (by simp) (by simp [kindOf, he, hk]) j (by simp [positionOf, he, hj])
      · rfl

theorem mem_of_mem_disown {ids : List Nat} (hx : x ∈ disown entries owners ids) : x ∈ owners := by
  induction ids generalizing owners with
  | nil => exact hx
  | cons id ids ih =>
    have hm := ih hx
    dsimp only at hm
    split at hm
    · split_ifs at hm
      · exact mem_of_mem_unregister hm
      · exact hm
    · exact hm

/-! ### Undoing a deletion -/

variable {m m' : UndoManager} {l : List (Position × UndoTarget)} {t : UndoTarget}

theorem replaceOwnedPosition_eq {o : PositionOwner} {old : Position}
    (hold : positionOf m.entries o = some old) :
    m.replaceOwnedPosition o x = some {m.setPosition o.entry o.index x with
      owners := (m.owners.erase old).insert x o} := by
  obtain ⟨entry, he, hp⟩ := bind_eq_some_iff.mp hold
  simp only [replaceOwnedPosition, he, bind_eq_bind, bind_some, hp]
  rfl

/-- What is asked of the runes that a deletion, entry `id`, gets back: their positions are new,
no two of them have one owner, and the owners are other entries. -/
structure Returned (entries : List UndoEntry) (id : Nat) (l : List (Position × UndoTarget)) : Prop where
  nodup : (l.map Prod.fst).Nodup
  distinct : l.Pairwise fun a b => ∀ o, a.2 = .owned o → b.2 ≠ .owned o
  owned : ∀ x o, (x, .owned o) ∈ l → o.entry ≠ id ∧
    ∃ old, positionOf entries o = some old ∧ old ∉ l.map Prod.fst

theorem Returned.tail (h : Returned m.entries id ((x, t) :: l)) (slot : PositionOwner) :
    Returned (m.setPosition slot.entry slot.index x).entries id l := by
  obtain ⟨hx, hnodup⟩ := nodup_cons.mp h.nodup
  refine ⟨hnodup, (pairwise_cons.mp h.distinct).2, fun y o ho => ?_⟩
  obtain ⟨hid, old, hold, hout⟩ := h.owned y o (by simp [ho])
  refine ⟨hid, ?_⟩
  rw [positionOf_setPosition]
  split_ifs
  · exact ⟨x, by simp [hold], hx⟩
  · exact ⟨old, hold, fun hm => hout (by simp [hm])⟩

/-- The entry that the head of the list writes to. -/
def slot (id index : Nat) : UndoTarget → PositionOwner
  | .owned o => o
  | .external _ => ⟨id, index⟩

theorem retarget_cons
    (h : Returned m.entries id ((x, t) :: l)) (hm : m.retarget id index ((x, t) :: l) = some m') :
    ∃ owners, (∀ y, y ≠ x → (∀ o, t = .owned o → positionOf m.entries o ≠ some y) →
        owners[y]? = m.owners[y]?) ∧ (∀ o, t = .owned o → owners[x]? = some o) ∧
      (∀ p, t = .external p → owners = m.owners) ∧ (∀ y ∈ owners, y ∈ m.owners ∨ y = x) ∧
      UndoManager.retarget {m.setPosition (slot id index t).entry (slot id index t).index x with
        owners := owners} id (index + 1) l = some m' := by
  cases t with
  | external p => exact ⟨m.owners, by simp, by simp, by simp, fun y hy => .inl hy, hm⟩
  | owned o =>
    obtain ⟨_, old, hold, _⟩ := h.owned x o (by simp)
    rw [retarget, replaceOwnedPosition_eq hold] at hm
    refine ⟨(m.owners.erase old).insert x o, fun y hy hne => ?_, fun o' ho => ?_, by simp, ?_, hm⟩
    · rw [get?_insert, if_neg (Ne.symm hy), getElem?_erase, if_neg]
      rintro rfl
      exact hne o rfl hold
    · cases ho
      simp
    intro y hy
    rw [mem_insert] at hy
    rcases hy with rfl | hy
    · exact .inr rfl
    · exact .inl (Std.ExtTreeMap.mem_of_mem_erase hy)

/-- What the whole loop does to the entries and the owner map. -/
structure Retargeted (m m' : UndoManager) (id index : Nat) (l : List (Position × UndoTarget)) :
    Prop where
  rest : m' = {m with entries := m'.entries, owners := m'.owners}
  keeps : Keeps m.entries m'.entries
  other : ∀ o : PositionOwner, (∀ x, (x, .owned o) ∉ l) → (o.entry = id → o.index < index) →
    positionOf m'.entries o = positionOf m.entries o
  entry : ∀ e ≠ id, (∀ x o, (x, .owned o) ∈ l → o.entry ≠ e) → m'.entries[e]? = m.entries[e]?
  owned : ∀ x o, (x, .owned o) ∈ l → positionOf m'.entries o = some x ∧ m'.owners[x]? = some o
  external : ∀ (j : Nat) (x p : Position), l[j]? = some (x, .external p) → m'.owners[x]? = m.owners[x]? ∧
    ((positionOf m.entries ⟨id, index + j⟩).isSome → positionOf m'.entries ⟨id, index + j⟩ = some x)
  kept : ∀ y ∉ l.map Prod.fst, (∀ x o, (x, .owned o) ∈ l → positionOf m.entries o ≠ some y) →
    m'.owners[y]? = m.owners[y]?
  known : ∀ y ∈ m'.owners, y ∈ m.owners ∨ y ∈ l.map Prod.fst

theorem keeps_setPosition (m : UndoManager) (id index : Nat) (x : Position) :
    Keeps m.entries (m.setPosition id index x).entries :=
  Keeps.modify (f := fun positions => positions.set index x) fun _ _ => by simp

theorem getElem?_setPosition_of_ne {e : Nat} (he : e ≠ id) :
    (m.setPosition id index x).entries[e]? = m.entries[e]? := by
  simp [setPosition, Ne.symm he]

theorem retarget_spec (h : Returned m.entries id l)
    (hm : m.retarget id index l = some m') : Retargeted m m' id index l := by
  induction l generalizing m index with
  | nil =>
    cases hm
    exact ⟨rfl, Keeps.refl _, by simp, by simp, by simp, by simp, by simp, fun y hy => .inl hy⟩
  | cons a l ih =>
    obtain ⟨x, t⟩ := a
    obtain ⟨owners, hkept, hown, hext, hknown, hrest⟩ := retarget_cons h hm
    obtain ⟨hx, _⟩ := nodup_cons.mp h.nodup
    have htail := h.tail (slot id index t)
    have hr := ih (m := {m.setPosition (slot id index t).entry (slot id index t).index x with
      owners := owners}) htail hrest
    have hset := positionOf_setPosition m (slot id index t).entry (slot id index t).index x
    have hentry : (slot id index t).entry = id ∨ ∃ o, t = .owned o := by
      cases t <;> simp [slot]
    -- the rest of the list neither stores nor forgets `x`
    have hfresh : ∀ y o, (y, .owned o) ∈ l →
        positionOf (m.setPosition (slot id index t).entry (slot id index t).index x).entries o ≠
          some x := by
      intro y o ho
      obtain ⟨hid, old, hold, hout⟩ := h.owned y o (by simp [ho])
      rw [hset, if_neg, hold]
      · rintro hc
        cases hc
        exact hout (by simp)
      intro he
      cases t with
      | external p => exact hid (by rw [he]; rfl)
      | owned o' =>
        have := (pairwise_cons.mp h.distinct).1 _ ho o' rfl
        exact this (by rw [he]; rfl)
    have hkeptx : m'.owners[x]? = owners[x]? := hr.kept x hx hfresh
    refine ⟨hr.rest, (keeps_setPosition m _ _ x).trans hr.keeps, fun o ho hi => ?_, fun e he ho => ?_,
      fun y o ho => ?_, fun j y p hj => ?_, fun y hy ho => ?_, fun y hy => ?_⟩
    · rw [hr.other o (fun y hy => ho y (by simp [hy])) fun he => (hi he).trans (Nat.lt_succ_self _),
        hset, if_neg]
      rintro rfl
      cases t with
      | external p => exact absurd (hi rfl) (Nat.lt_irrefl _)
      | owned o' => exact ho x (by simp [slot])
    · rw [hr.entry e he fun y o hy => ho y o (by simp [hy])]
      refine getElem?_setPosition_of_ne ?_
      rcases hentry with hs | ⟨o, rfl⟩
      · rw [hs]
        exact he
      · exact (ho x o (by simp)).symm
    · rcases mem_cons.mp ho with he | ho
      · cases he
        obtain ⟨hid, old, hold, _⟩ := h.owned x o (by simp)
        refine ⟨?_, hkeptx.trans (hown o rfl)⟩
        rw [hr.other o (fun y hy => (pairwise_cons.mp h.distinct).1 _ hy o rfl rfl)
          (fun he => absurd he hid), hset, if_pos (by rfl), hold]
        rfl
      · exact hr.owned y o ho
    · cases j with
      | zero =>
        cases hj
        refine ⟨by rw [hkeptx, hext p rfl], fun hs => ?_⟩
        obtain ⟨old, hold⟩ := isSome_iff_exists.mp hs
        have hnot : ∀ z, (z, UndoTarget.owned ⟨id, index + 0⟩) ∉ l := fun z hz =>
          (h.owned z ⟨id, index + 0⟩ (mem_cons_of_mem _ hz)).1 rfl
        rw [hr.other _ hnot fun _ => by simp, hset, hold]
        simp [slot]
      | succ j =>
        have hj' : l[j]? = some (y, .external p) := hj
        obtain ⟨h₁, h₂⟩ := hr.external j y p hj'
        have hy : y ∈ l.map Prod.fst := mem_map.mpr ⟨_, mem_of_getElem? hj', rfl⟩
        have hne : y ≠ x := fun he => hx (he ▸ hy)
        refine ⟨h₁.trans (hkept y hne fun o ho hc => ?_), fun hs => ?_⟩
        · obtain ⟨_, old, hold, hout⟩ := h.owned x o (by simp [ho])
          rw [hold, some.injEq] at hc
          exact hout (by rw [hc]; simp only [map_cons, mem_cons]; exact .inr hy)
        have hidx : index + (j + 1) = index + 1 + j := by omega
        rw [hidx] at hs ⊢
        refine h₂ ?_
        change (positionOf (m.setPosition _ _ x).entries _).isSome = true
        rw [hset]
        split_ifs
        · simpa using hs
        · exact hs
    · obtain ⟨hyx, hyl⟩ := not_or.mp (mem_cons.not.mp hy)
      rw [hr.kept y hyl fun z o hz => ?_]
      · exact hkept y hyx fun o hto => ho x o (by simp [hto])
      change positionOf (m.setPosition _ _ x).entries _ ≠ _
      rw [hset]
      split_ifs
      · intro hc
        obtain ⟨_, _, hc⟩ := map_eq_some_iff.mp hc
        exact hyx hc.symm
      · exact ho z o (by simp [hz])
    · rcases hr.known y hy with hy | hy
      · rcases hknown y hy with hy | rfl
        · exact .inl hy
        · exact .inr (by simp)
      · exact .inr (by simp only [map_cons, mem_cons]; exact .inr hy)

end Owners

/-- The replica shows `names`, the history knows where each of them is, and every other position
of an insertion among the entries `live` is deleted. -/
structure Cells (r : RGA) (entries : List UndoEntry) (owners : TagMap PositionOwner)
    (live : List Nat) (place : Name → Position) (names : List Name) : Prop where
  shows : Shows r place names
  nodup : names.Nodup
  homes : ∀ n ∈ names, ∀ o, n.owner = some o → positionOf entries o = some (place n)
  owned : ∀ n ∈ names, owners[place n]? = n.owner
  known : ∀ x ∈ owners, x ∈ r.nodes
  stale : ∀ id ∈ live, kindOf entries id = some .insertion → ∀ j x,
    positionOf entries ⟨id, j⟩ = some x → x ∈ r.tombstones ∨ ∃ n ∈ names, n.owner = some ⟨id, j⟩

theorem Cells.remove (h : Cells r entries owners live place (A ++ N ++ B))
    (he : Edited r r' .zero [] (N.map place)) : Cells r' entries owners live place (A ++ B) := by
  have hsub : ∀ n ∈ A ++ B, n ∈ A ++ N ++ B := fun n hn => mem_names.mpr (.inr hn)
  refine ⟨h.shows.delete he, h.nodup.sublist (by simp), fun n hn => h.homes n (hsub n hn),
    fun n hn => h.owned n (hsub n hn), fun x hx => ?_, fun id hid hk j x hx => ?_⟩
  · rw [he.nodes]
    exact h.known x hx
  rcases h.stale id hid hk j x hx with ht | ⟨n, hn, ho⟩
  · exact .inl ((he.tombstones x).mpr (.inl ht))
  by_cases hm : n ∈ N
  · -- the name goes, and its position is among the deleted ones
    have hplace := h.homes n hn _ ho
    rw [hx, some.injEq] at hplace
    exact .inl ((he.tombstones x).mpr (.inr (hplace ▸ mem_map_of_mem hm)))
  · exact .inr ⟨n, (mem_names.mp hn).resolve_left hm, ho⟩

/-- The entries and the owner map take note that `N` is now at `ids`, and forget nothing about
`rest`. -/
structure Noted (r : RGA) (entries entries' : List UndoEntry) (owners owners' : TagMap PositionOwner)
    (live' : List Nat) (place : Name → Position) (N : List Name) (ids : List Position)
    (rest : List Name) : Prop where
  homes : ∀ (j : Nat) (n : Name) (o : PositionOwner), N[j]? = some n → n.owner = some o → positionOf entries' o = ids[j]?
  kept : ∀ n ∈ rest, ∀ o, n.owner = some o → positionOf entries' o = positionOf entries o
  owned : ∀ (j : Nat) (n : Name) (x : Position), N[j]? = some n → ids[j]? = some x → owners'[x]? = n.owner
  keptOwned : ∀ n ∈ rest, owners'[place n]? = owners[place n]?
  known : ∀ x ∈ owners', x ∈ owners ∨ x ∈ ids
  stale : ∀ id ∈ live', kindOf entries' id = some .insertion → ∀ j x,
    positionOf entries' ⟨id, j⟩ = some x →
    x ∈ r.tombstones ∨ ∃ n, (n ∈ rest ∨ n ∈ N) ∧ n.owner = some ⟨id, j⟩

theorem Cells.restore {p : Position} {chain : List (Position × Rune)}
    (h : Cells r entries owners live place (A ++ B)) (he : Edited r r' p chain [])
    (hp : visibleThrough r.nodes r.tombstones p = A.length)
    (hN : N.map Name.rune = chain.map Prod.snd) (hnodup : (A ++ N ++ B).Nodup)
    (hnote : Noted r entries entries' owners owners' live' place N (chain.map Prod.fst) (A ++ B)) :
    Cells r' entries' owners' live' (Name.rename place N (chain.map Prod.fst)) (A ++ N ++ B) := by
  have hNn : N.Nodup := hnodup.sublist (by simp)
  have hlen : N.length = (chain.map Prod.fst).length := by simpa using congrArg List.length hN
  have hrest : ∀ n ∈ A ++ N ++ B, n ∉ N → n ∈ A ++ B := fun n hn hm => (mem_names.mp hn).resolve_left hm
  refine ⟨h.shows.insert he hp hN hnodup, hnodup, fun n hn o ho => ?_, fun n hn => ?_,
    fun x hx => ?_, fun id hid hk j x hx => ?_⟩
  · by_cases hm : n ∈ N
    · obtain ⟨j, hj⟩ := mem_iff_getElem?.mp hm
      rw [hnote.homes j n o hj ho, Name.rename_getElem place hNn hlen hj]
    · rw [Name.rename_of_not_mem hm, hnote.kept n (hrest n hn hm) o ho]
      exact h.homes n (hrest n hn hm) o ho
  · by_cases hm : n ∈ N
    · obtain ⟨j, hj⟩ := mem_iff_getElem?.mp hm
      exact hnote.owned j n _ hj (Name.rename_getElem place hNn hlen hj)
    · rw [Name.rename_of_not_mem hm, hnote.keptOwned n (hrest n hn hm)]
      exact h.owned n (hrest n hn hm)
  · rw [he.nodes, mem_growChain]
    exact (hnote.known x hx).imp_left (h.known x)
  rcases hnote.stale id hid hk j x hx with ht | ⟨n, hn, ho⟩
  · exact .inl ((he.tombstones x).mpr (.inl ht))
  · exact .inr ⟨n, mem_names.mpr hn.symm, ho⟩

end Crdt.Text
