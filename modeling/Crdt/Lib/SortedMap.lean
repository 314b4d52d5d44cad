import Crdt.Lib.Map
import Crdt.Lib.Reader

/-! Maps written in the order of their keys.

A map is written as its entries, the smallest key first. The reader takes one entry after the other and
refuses a key that is not greater than the one before, so a map has one encoding: `inverts_readMap` says
that the reader accepts what is written for a map and nothing else. -/
namespace SortedMap

open Reader MapLoop List

variable {K V τ ε : Type} {cmp : K → K → Ordering} [Std.TransCmp cmp] [Std.LawfulEqCmp cmp]

/-- The assignments of a list, one after the other. -/
def assign (m : Std.ExtTreeMap K V cmp) (entries : List (K × V)) : Std.ExtTreeMap K V cmp :=
  entries.foldl (fun m p => m.insert p.1 p.2) m

/-- The keys go up. -/
def Ascending (cmp : K → K → Ordering) (entries : List (K × V)) : Prop :=
  entries.Pairwise fun p q => cmp p.1 q.1 = .lt

section Assign
variable {m : Std.ExtTreeMap K V cmp} {entries : List (K × V)}

omit [Std.TransCmp cmp] in
theorem Ascending.ne (h : Ascending cmp entries) : entries.Pairwise (·.1 ≠ ·.1) := h.imp fun hlt he => by
    cases hlt.symm.trans (Std.LawfulEqCmp.compare_eq_iff_eq.mpr he)

omit [Std.LawfulEqCmp cmp] in
theorem ascending_toList (m : Std.ExtTreeMap K V cmp) : Ascending cmp m.toList := m.ordered_keys_toList

theorem toList_assign [DecidableEq K] (h : Ascending cmp entries) :
    (assign (∅ : Std.ExtTreeMap K V cmp) entries).toList = entries := by
  have hnodup : ∀ {l : List (K × V)}, Ascending cmp l → l.Nodup := fun hl => hl.ne.imp fun hne he => hne (congrArg Prod.fst he)
  have hmem : ∀ p, p ∈ (assign (∅ : Std.ExtTreeMap K V cmp) entries).toList ↔ p ∈ entries := by
    intro p
    rw [mem_toList, assign, getElem?_foldl_assign h.ne]
    constructor
    · rintro ⟨q, hq, hkey, hvalue⟩
      rwa [← Prod.ext hkey hvalue]
    · exact fun hp => ⟨p, hp, rfl, rfl⟩
  have hperm := (perm_ext_iff_of_nodup (hnodup (ascending_toList _)) (hnodup h)).mpr hmem
  refine hperm.eq_of_pairwise (fun a b _ _ hab hba => ?_) (ascending_toList _) h
  have hswap : cmp a.1 b.1 = (cmp b.1 a.1).swap := Std.OrientedCmp.eq_swap
  rw [hswap, hba] at hab
  cases hab

theorem assign_toList [DecidableEq K] (m : Std.ExtTreeMap K V cmp) : assign ∅ m.toList = m :=
  Std.ExtTreeMap.ext_getElem? fun _ => (getElem?_foldl_toList m).trans (by simp)

end Assign

/-! ### Reading -/

/-- One round: an entry is taken if there is room for it and its key is greater than the one before. -/
def readEntry (entry : Reader τ ε (K × V)) (room : Nat → Bool) (err : ε) (s : Std.ExtTreeMap K V cmp × Option K) :
    Reader τ ε (Std.ExtTreeMap K V cmp × Option K) := do
  check (room s.1.size) err
  let p ← entry
  check (s.2.all fun previous => cmp previous p.1 = .lt) err
  return (s.1.insert p.1 p.2, some p.1)

def readMap (entry : Reader τ ε (K × V)) (room : Nat → Bool) (err : ε) (n : Nat) :
    Reader τ ε (Std.ExtTreeMap K V cmp) := do
  let s ← times (readEntry entry room err) n (∅, none)
  return s.1

variable {entry : Reader τ ε (K × V)} {write : K × V → List τ} {P : K × V → Prop} {room : Nat → Bool}
  {err : ε}
  {previous : Option K} {m : Std.ExtTreeMap K V cmp} {p : K × V}

/-- The keys of a list follow the key before. -/
def Follow (cmp : K → K → Ordering) (previous : Option K) (entries : List (K × V)) : Prop :=
  Ascending cmp entries ∧ ∀ k ∈ previous, ∀ p ∈ entries, cmp k p.1 = .lt

omit [Std.LawfulEqCmp cmp] in
theorem follow_cons {entries : List (K × V)} : Follow cmp previous (p :: entries) ↔
      (previous.all fun k => cmp k p.1 = .lt) = true ∧ Follow cmp (some p.1) entries := by
  simp only [Follow, Ascending, pairwise_cons, forall_mem_cons, Option.mem_def, Option.some.injEq,
    forall_eq', Option.all_eq_true, decide_eq_true_eq]
  constructor
  · intro ⟨⟨hp, h⟩, hprevious⟩
    exact ⟨fun k hk => (hprevious k hk).1, h, hp⟩
  · intro ⟨hprevious, h, hp⟩
    exact ⟨⟨hp, h⟩, fun k hk => ⟨hprevious k hk, fun q hq => Std.TransCmp.lt_trans (hprevious k hk) (hp q hq)⟩⟩

/-- The map has the keys up to the one before. -/
def UpTo (m : Std.ExtTreeMap K V cmp) (previous : Option K) : Prop :=
  ∀ k ∈ m, ∃ last ∈ previous, (cmp k last).isLE = true

theorem UpTo.insert (h : UpTo m previous) (hp : (previous.all fun k => cmp k p.1 = .lt) = true) :
    p.1 ∉ m ∧ UpTo (m.insert p.1 p.2) (some p.1) := by
  simp only [Option.all_eq_true, decide_eq_true_eq] at hp
  have hlt : ∀ k ∈ m, cmp k p.1 = .lt := by
    intro k hk
    obtain ⟨last, hlast, hle⟩ := h k hk
    exact Std.TransCmp.lt_of_isLE_of_lt hle (hp last hlast)
  have hself : cmp p.1 p.1 = .eq := Std.ReflCmp.compare_self
  constructor
  · intro hmem
    have := hlt p.1 hmem
    rw [hself] at this
    cases this
  intro k hk
  refine ⟨p.1, rfl, ?_⟩
  rw [mem_insert] at hk
  cases hk with
  | inl he => rw [← he, hself]; rfl
  | inr hk => rw [hlt k hk]; rfl

/-- The rounds of the loop take a list of entries that goes on where the map ends. -/
theorem times_readEntry_eq_ok_iff [DecidableEq K] (h : Inverts entry write P) (n : Nat)
    (hm : UpTo m previous) {data rest : List τ} {m' : Std.ExtTreeMap K V cmp} :
    (∃ last, times (readEntry entry room err) n (m, previous) data = .ok ((m', last), rest)) ↔
      ∃ entries : List (K × V), entries.length = n ∧ Follow cmp previous entries ∧ (∀ p ∈ entries, P p) ∧
        (∀ i < n, room (m.size + i) = true) ∧ m' = assign m entries ∧ data = entries.flatMap write ++ rest := by
  induction n generalizing m previous data with
  | zero =>
    simp only [times, pure_eq_ok_iff, Prod.mk.injEq]
    constructor
    · intro ⟨last, ⟨hm', _⟩, hdata⟩
      exact ⟨[], rfl, ⟨.nil, by simp⟩, by simp, by simp, hm'.symm, hdata⟩
    intro ⟨entries, hlen, _, _, _, hm', hdata⟩
    rw [length_eq_zero_iff.mp hlen] at hm' hdata
    exact ⟨previous, ⟨hm'.symm, rfl⟩, hdata⟩
  | succ n ih =>
    have hround : ∀ last, times (readEntry entry room err) (n + 1) (m, previous) data = .ok ((m', last), rest) ↔
        room m.size = true ∧ ∃ p left, P p ∧ data = write p ++ left ∧
          (previous.all fun k => cmp k p.1 = .lt) = true ∧
          times (readEntry entry room err) n (m.insert p.1 p.2, some p.1) left = .ok ((m', last), rest) := by
      intro last
      rw [times, readEntry]
      simp only [bind_assoc, check_bind_eq_ok_iff, h.bind_eq_ok_iff, pure_bind]
    simp only [hround]
    have hsplit : ∀ p : K × V, p.1 ∉ m → ((∀ i < n + 1, room (m.size + i) = true) ↔
        room m.size = true ∧ ∀ i < n, room ((m.insert p.1 p.2).size + i) = true) := by
      intro p hnew
      rw [Std.ExtTreeMap.size_insert, if_neg (by simpa using hnew), Nat.forall_lt_succ_left]
      simp only [Nat.add_zero, Nat.add_assoc, Nat.add_comm 1]
    constructor
    · intro ⟨last, hroom, p, left, hP, hdata, hp, hrest⟩
      obtain ⟨hnew, hnext⟩ := hm.insert hp
      obtain ⟨entries, hlen, hfollow, hPs, hrooms, hm', hleft⟩ := (ih hnext).mp ⟨last, hrest⟩
      refine ⟨p :: entries, by simp [hlen], follow_cons.mpr ⟨hp, hfollow⟩, forall_mem_cons.mpr ⟨hP, hPs⟩,
        (hsplit p hnew).mpr ⟨hroom, hrooms⟩, hm', ?_⟩
      rw [flatMap_cons, append_assoc, ← hleft, hdata]
    intro ⟨entries, hlen, hfollow, hPs, hrooms, hm', hdata⟩
    cases entries with
    | nil => cases hlen
    | cons p entries =>
      obtain ⟨hp, hfollow⟩ := follow_cons.mp hfollow
      obtain ⟨hP, hPs⟩ := forall_mem_cons.mp hPs
      obtain ⟨hnew, hnext⟩ := hm.insert hp
      obtain ⟨hroom, hrooms⟩ := (hsplit p hnew).mp hrooms
      rw [flatMap_cons, append_assoc] at hdata
      obtain ⟨last, hrest⟩ := (ih hnext).mpr ⟨entries, Nat.succ.inj hlen, hfollow, hPs, hrooms, hm', rfl⟩
      exact ⟨last, hroom, p, _, hP, hdata, hp, hrest⟩

theorem inverts_readMap [DecidableEq K] (h : Inverts entry write P) (room : Nat → Bool) (err : ε) (n : Nat) :
    Inverts (readMap entry room err n : Reader τ ε (Std.ExtTreeMap K V cmp)) (fun m => m.toList.flatMap write)
      fun m => m.size = n ∧ (∀ i < n, room i = true) ∧ ∀ p ∈ m.toList, P p := by
  intro data m rest
  have hempty : UpTo (∅ : Std.ExtTreeMap K V cmp) none := by
    intro k hk
    simp at hk
  have hloop : readMap entry room err n data = .ok (m, rest) ↔
      ∃ last, times (readEntry entry room err) n ((∅ : Std.ExtTreeMap K V cmp), none) data = .ok ((m, last), rest) := by
    rw [readMap, bind_apply, Checked.bind_eq_ok_iff]
    constructor
    · intro ⟨⟨⟨m', last⟩, left⟩, hloop, hpure⟩
      cases hpure
      exact ⟨last, hloop⟩
    · intro ⟨last, hloop⟩
      exact ⟨((m, last), rest), hloop, rfl⟩
  rw [hloop, times_readEntry_eq_ok_iff h n hempty]
  simp only [Std.ExtTreeMap.size_empty, Nat.zero_add]
  constructor
  · intro ⟨entries, hlen, ⟨hascending, _⟩, hPs, hrooms, hm, hdata⟩
    have hlist : m.toList = entries := by rw [hm, toList_assign hascending]
    rw [← Std.ExtTreeMap.length_toList, hlist]
    exact ⟨⟨hlen, hrooms, hPs⟩, hdata⟩
  intro ⟨⟨hsize, hrooms, hPs⟩, hdata⟩
  refine ⟨m.toList, by rw [Std.ExtTreeMap.length_toList, hsize], ⟨ascending_toList m, nofun⟩, hPs, hrooms, ?_, hdata⟩
  exact (assign_toList m).symm

end SortedMap
