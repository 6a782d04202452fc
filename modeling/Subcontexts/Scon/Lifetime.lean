import Subcontexts.Maps.Arena
import Mathlib.Data.List.GetD

/-! The maps that `scon.c` makes and frees, over runs of `scon_create`, `scon_callf` and `scon_close`:
no struct is freed twice, and none is left behind. -/

namespace Subcontexts.Lifetime
open Maps

/-- `memmaps` has `scon->memmap` of each handle; `closed` remembers the handles closed. -/
structure State where
  arena : Arena
  memmaps : List Addr
  closed : List Nat

/-- What a `scon_create` finds: what `dlopen` returns, the maps file before and after it, and what is
on the stack while they are parsed. -/
structure Opening where
  libhandle : Nat
  before : Option (List Char)
  after : Option (List Char)
  junkBefore : Nat → Nat → Char
  junkAfter : Nat → Nat → Char

/-- `scon_create` once the library is open; the loop at its end reads the entries to protect. -/
def diffMaps (before after : Addr) (ar : Arena) : Except Halt (Addr × Arena) := do
  let (memmap, ar) ← ar.diff before after
  let ar ← mapFree before ar
  let ar ← mapFree after ar
  let _ ← ar.entries memmap
  return (memmap, ar)

/-- `scon_create`, as far as its maps go. -/
def sconCreate (o : Opening) (s : State) : Except Halt State := do
  let (before, ar) ← s.arena.parse o.junkBefore o.before
  haltIf (.exit 1) (o.libhandle = 0)
  let (after, ar) ← ar.parse o.junkAfter o.after
  match before, after with
  | some before, some after => do
    let (memmap, ar) ← diffMaps before after ar
    return { s with arena := ar, memmaps := s.memmaps ++ [memmap] }
  | _, _ => .error .fault

def State.memmap (s : State) (scon : Nat) : Except Halt Addr :=
  match s.memmaps[scon]? with
  | some memmap => .ok memmap
  | none => .error .assertion

/-- The loop at the end of `scon_callf`. -/
def sconCallf (scon : Nat) (s : State) : Except Halt (List MapEntry) := do
  let memmap ← s.memmap scon
  s.arena.entries memmap

/-- `scon_close`; the destructors that `dlclose` runs are left out. -/
def sconClose (scon : Nat) (s : State) : Except Halt State := do
  let memmap ← s.memmap scon
  let _ ← s.arena.entries memmap
  let ar ← mapFree memmap s.arena
  return { s with arena := ar, closed := scon :: s.closed }

inductive Call where
  | create (o : Opening)
  | callf (scon : Nat)
  | close (scon : Nat)

def step (s : State) : Call → Except Halt State
  | .create o => sconCreate o s
  | .callf scon => do
    let _ ← sconCallf scon s
    return s
  | .close scon => sconClose scon s

def State.init (s : State) : Prop :=
  s.arena.heap.used = 0 ∧ (∀ a, s.arena.freed a = false) ∧ s.arena.maps = [] ∧ s.memmaps = [] ∧
    s.closed = []

def Reachable : State → Prop := Trans.Reach State.init fun s c t => step s c = .ok t

def State.opens (s : State) : List Nat :=
  (List.range s.memmaps.length).filter fun scon => scon ∉ s.closed

def State.owned (s : State) (ls : Nat → List Addr) : List (Addr × List Addr) :=
  s.opens.map fun scon => (s.memmaps.getD scon 0, ls scon)

/-- Both files can be read, and no pathname in them is too long. -/
def Readable (mapsfile : Option (List Char)) : Prop :=
  ∃ input, mapsfile = some input ∧
    ∀ piece ∈ Lines.pieces 256 (input.length + 1) input, (pathnameOf piece).length < 128

def Opening.Found (o : Opening) : Prop :=
  o.libhandle ≠ 0 ∧ Readable o.before ∧ Readable o.after

structure Inv (s : State) (ls : Nat → List Addr) : Prop where
  owned : Owned s.arena (s.owned ls)
  nodup : s.memmaps.Nodup
  made : ∀ i ∈ s.memmaps, i < s.arena.maps.length
  closed : ∀ scon ∈ s.closed, scon < s.memmaps.length

section Arena
variable {ar ar' : Arena} {owned : List (Addr × List Addr)} {junk : Nat → Nat → Char}
  {mapsfile : Option (List Char)}

def Keeps (ar ar' : Arena) (owned : List (Addr × List Addr)) : Prop :=
  ∀ o ∈ owned, ∀ a ∈ o.2, ar'.heap.mem a = ar.heap.mem a

theorem parse_spec {before : Option Addr} (O : Owned ar owned)
    (hrun : ar.parse junk mapsfile = .ok (before, ar')) :
    (before = none ∧ ar' = ar) ∨ ∃ l, before = some ar.maps.length ∧
      Owned ar' ((ar.maps.length, l) :: owned) ∧ ar'.maps.length = ar.maps.length + 1 ∧
      Keeps ar ar' owned := by
  obtain ⟨⟨m, h⟩, hparse, hret⟩ := bind_eq_ok.mp hrun
  rcases mapParse_grows hparse with ⟨rfl, rfl⟩ | ⟨maps, curr, l, rfl, G⟩
  · obtain ⟨rfl, rfl⟩ := Prod.mk.inj (Except.ok.inj hret)
    exact .inl ⟨rfl, rfl⟩
  · obtain ⟨rfl, rfl⟩ := Prod.mk.inj (Except.ok.inj hret)
    refine .inr ⟨l, rfl, O.put G, List.length_append, fun o ho a ha => ?_⟩
    exact G.old a (O.taken ho ha).1

theorem diff_spec {before after memmap : Addr} (O : Owned ar owned)
    (hrun : ar.diff before after = .ok (memmap, ar')) :
    ∃ l, memmap = ar.maps.length ∧ Owned ar' ((ar.maps.length, l) :: owned) ∧
      ar'.maps.length = ar.maps.length + 1 ∧ Keeps ar ar' owned := by
  obtain ⟨a, -, hrun⟩ := bind_eq_ok.mp hrun
  obtain ⟨b, -, hrun⟩ := bind_eq_ok.mp hrun
  obtain ⟨⟨m, h⟩, hdiff, hret⟩ := bind_eq_ok.mp hrun
  obtain ⟨curr, l, G⟩ := mapDiff_grows hdiff
  obtain ⟨rfl, rfl⟩ := Prod.mk.inj (Except.ok.inj hret)
  exact ⟨l, rfl, O.put G, List.length_append, fun o ho a ha => G.old a (O.taken ho ha).1⟩

theorem diff_of_owned {before after : Addr} {lb la : List Addr} (O : Owned ar owned)
    (hb : (before, lb) ∈ owned) (ha : (after, la) ∈ owned) :
    ∃ memmap ar', ar.diff before after = .ok (memmap, ar') := by
  obtain ⟨b, hget, B⟩ := O.chain hb
  obtain ⟨a, hget', A⟩ := O.chain ha
  obtain ⟨diff, h', hrun, -⟩ :=
    mapDiff_spec B A (Nat.lt_succ_of_le B.length_le) (Nat.lt_succ_of_le A.length_le)
  unfold Arena.diff
  rw [hget', ok_bind, hget, ok_bind, hrun]
  exact ⟨_, _, rfl⟩

theorem diffMaps_spec {before after : Addr} {lb la : List Addr}
    (O : Owned ar ((after, la) :: (before, lb) :: owned)) :
    ∃ l ar', diffMaps before after ar = .ok (ar.maps.length, ar') ∧
      Owned ar' ((ar.maps.length, l) :: owned) ∧ ar'.maps.length = ar.maps.length + 1 ∧
      Keeps ar ar' owned := by
  obtain ⟨memmap, ar₁, hdiff⟩ := diff_of_owned O (List.mem_cons_of_mem _ (List.mem_cons_self ..))
    (List.mem_cons_self ..)
  obtain ⟨l, rfl, O₁, hlen₁, hkeep⟩ := diff_spec O hdiff
  have hswap : List.Perm ((ar.maps.length, l) :: (after, la) :: (before, lb) :: owned)
      ((before, lb) :: (after, la) :: (ar.maps.length, l) :: owned) :=
    ((List.Perm.swap (before, lb) (after, la) owned).cons _).trans
      ((List.Perm.swap ..).trans ((List.Perm.swap (after, la) _ owned).cons _))
  obtain ⟨ar₂, hfree₂, O₂, hheap₂, hlen₂⟩ := (O₁.perm hswap).mapFree
  obtain ⟨ar₃, hfree₃, O₃, hheap₃, hlen₃⟩ := O₂.mapFree
  refine ⟨l, ar₃, ?_, O₃, by omega, fun o ho a ha => ?_⟩
  · unfold diffMaps
    rw [hdiff, ok_bind]
    dsimp only
    rw [hfree₂, ok_bind, hfree₃, ok_bind, O₃.entries_eq (List.mem_cons_self ..)]
    rfl
  · rw [hheap₃, hheap₂, hkeep o (List.mem_cons_of_mem _ (List.mem_cons_of_mem _ ho)) a ha]

end Arena

section Steps
variable {s t : State} {ls : Nat → List Addr} {owned : List (Addr × List Addr)} {o : Opening}

theorem sconCreate_spec (O : Owned s.arena owned) (hrun : sconCreate o s = .ok t) :
    ∃ memmap l, t.memmaps = s.memmaps ++ [memmap] ∧ t.closed = s.closed ∧
      Owned t.arena ((memmap, l) :: owned) ∧ s.arena.maps.length ≤ memmap ∧
      memmap < t.arena.maps.length ∧ Keeps s.arena t.arena owned := by
  obtain ⟨⟨before, ar₁⟩, hbefore, hrun⟩ := bind_eq_ok.mp hrun
  obtain ⟨_, -, hrun⟩ := bind_eq_ok.mp hrun
  obtain ⟨⟨after, ar₂⟩, hafter, hrun⟩ := bind_eq_ok.mp hrun
  cases before with
  | none => cases hrun
  | some before =>
    cases after with
    | none => cases hrun
    | some after =>
      rcases parse_spec O hbefore with ⟨h, -⟩ | ⟨lb, h, O₁, hlen₁, hkeep₁⟩
      · cases h
      obtain rfl := Option.some.inj h
      rcases parse_spec O₁ hafter with ⟨h, -⟩ | ⟨la, h, O₂, hlen₂, hkeep₂⟩
      · cases h
      obtain rfl := Option.some.inj h
      obtain ⟨l, ar₃, hmaps, O₃, hlen₃, hkeep₃⟩ := diffMaps_spec O₂
      obtain ⟨⟨memmap, ar⟩, hmaps', hret⟩ := bind_eq_ok.mp hrun
      obtain ⟨rfl, rfl⟩ := Prod.mk.inj (Except.ok.inj (hmaps.symm.trans hmaps'))
      obtain rfl := Except.ok.inj hret
      refine ⟨_, l, rfl, rfl, O₃, by omega, ?_, fun o ho a ha => ?_⟩
      · show ar₂.maps.length < ar₃.maps.length
        omega
      · show ar₃.heap.mem a = s.arena.heap.mem a
        rw [hkeep₃ o ho a ha, hkeep₂ o (List.mem_cons_of_mem _ ho) a ha, hkeep₁ o ho a ha]

theorem mem_opens {scon : Nat} : scon ∈ s.opens ↔ scon < s.memmaps.length ∧ scon ∉ s.closed := by
  unfold State.opens
  rw [List.mem_filter, List.mem_range, decide_eq_true_iff]

theorem memmap_of_lt {scon : Nat} (h : scon < s.memmaps.length) :
    s.memmap scon = .ok (s.memmaps.getD scon 0) := by
  unfold State.memmap
  rw [List.getD_eq_getElem?_getD, List.getElem?_eq_getElem h]
  rfl

theorem mem_owned (ls : Nat → List Addr) {scon : Nat} (h : scon ∈ s.opens) : (s.memmaps.getD scon 0, ls scon) ∈ s.owned ls :=
  List.mem_map_of_mem (f := fun scon => (s.memmaps.getD scon 0, ls scon)) h

theorem Inv.init (h : s.init) : Inv s fun _ => [] := by
  obtain ⟨hused, hfreed, hmaps, hmemmaps, hclosed⟩ := h
  have hopens : s.opens = [] := by
    unfold State.opens
    rw [hmemmaps]
    rfl
  have howned : s.owned (fun _ => []) = [] := by
    unfold State.owned
    rw [hopens]
    rfl
  refine ⟨?_, ?_, ?_, ?_⟩
  · rw [howned]
    refine ⟨fun o ho => absurd ho (List.not_mem_nil), List.nodup_nil, fun i m hm => ?_, ?_,
      fun a _ => hfreed a⟩
    · rw [hmaps] at hm
      cases hm
    · have hempty : {a | a < s.arena.heap.used ∧ s.arena.freed a = false} = ∅ := by
        ext a
        simp [hused]
      rw [hempty]
      exact Tiles.nil
  · rw [hmemmaps]
    exact List.nodup_nil
  · rw [hmemmaps]
    exact fun i hi => absurd hi (List.not_mem_nil)
  · rw [hclosed]
    exact fun i hi => absurd hi (List.not_mem_nil)

theorem Inv.entries_iff (I : Inv s ls) {scon : Nat} :
    (∃ es, sconCallf scon s = .ok es) ↔ scon ∈ s.opens := by
  constructor
  · rintro ⟨es, h⟩
    obtain ⟨memmap, hmemmap, hentries⟩ := bind_eq_ok.mp h
    have hlt : scon < s.memmaps.length := by
      by_contra hn
      unfold State.memmap at hmemmap
      rw [List.getElem?_eq_none (Nat.not_lt.mp hn)] at hmemmap
      cases hmemmap
    rw [memmap_of_lt hlt] at hmemmap
    obtain rfl := Except.ok.inj hmemmap
    obtain ⟨m, hget, -⟩ := bind_eq_ok.mp hentries
    have hmap : s.arena.maps[s.memmaps.getD scon 0]? = some (some m) := by
      unfold Arena.get at hget
      split at hget
      · obtain rfl := Except.ok.inj hget
        assumption
      · cases hget
    -- the map belongs to an open handle, which is this one
    obtain ⟨o, ho, heq⟩ := List.mem_map.mp (I.owned.maps _ m hmap)
    obtain ⟨k, hk, rfl⟩ := List.mem_map.mp ho
    have hklt := (mem_opens.mp hk).1
    have heq : s.memmaps.getD k 0 = s.memmaps.getD scon 0 := heq
    obtain rfl := (List.getD_inj hklt hlt I.nodup).mp heq
    exact hk
  · intro h
    unfold sconCallf
    rw [memmap_of_lt (mem_opens.mp h).1, ok_bind]
    exact ⟨_, I.owned.entries_eq (mem_owned ls h)⟩

theorem Inv.callf (I : Inv s ls) {scon : Nat} (h : scon ∈ s.opens) :
    sconCallf scon s = .ok ((ls scon).map fun a => (s.arena.heap.mem a).toMapEntry) := by
  unfold sconCallf
  rw [memmap_of_lt (mem_opens.mp h).1, ok_bind]
  exact I.owned.entries_eq (mem_owned ls h)

theorem Inv.create (I : Inv s ls) (h : sconCreate o s = .ok t) :
    ∃ ls', Inv t ls' ∧ ∀ scon ∈ t.opens, scon < s.memmaps.length →
      scon ∈ s.opens ∧ sconCallf scon t = sconCallf scon s := by
  obtain ⟨memmap, l, hmemmaps, hclosed, O, hge, hlt, hkeep⟩ := sconCreate_spec I.owned h
  have hnot : s.memmaps.length ∉ s.closed := fun hc => absurd (I.closed _ hc) (Nat.lt_irrefl _)
  have hopens : t.opens = s.opens ++ [s.memmaps.length] := by
    unfold State.opens
    rw [hmemmaps, hclosed, List.length_append, List.length_singleton, List.range_succ,
      List.filter_append, List.filter_singleton, decide_eq_true hnot]
    rfl
  let ls' := Function.update ls s.memmaps.length l
  have hold : ∀ scon < s.memmaps.length, ls' scon = ls scon := fun scon hs =>
    Function.update_of_ne (Nat.ne_of_lt hs) _ _
  have howned : t.owned ls' = s.owned ls ++ [(memmap, l)] := by
    unfold State.owned
    rw [hopens, List.map_append, List.map_singleton, hmemmaps]
    congr 1
    · refine List.map_congr_left fun scon hs => ?_
      have hs := (mem_opens.mp hs).1
      rw [hold scon hs, List.getD_append _ _ _ _ hs]
    · have hself : ls' s.memmaps.length = l := Function.update_self ..
      rw [hself, List.getD_append_right _ _ _ _ (Nat.le_refl _), Nat.sub_self]
      rfl
  have I' : Inv t ls' := by
    refine ⟨?_, ?_, fun i hi => ?_, fun scon hc => ?_⟩
    · rw [howned]
      exact O.perm (List.perm_append_singleton _ _).symm
    · rw [hmemmaps]
      refine List.nodup_append.mpr ⟨I.nodup, List.nodup_singleton _, fun i hi j hj => ?_⟩
      obtain rfl := List.mem_singleton.mp hj
      exact Nat.ne_of_lt (Nat.lt_of_lt_of_le (I.made i hi) hge)
    · rw [hmemmaps] at hi
      rcases List.mem_append.mp hi with hi | hi
      · exact Nat.lt_trans (Nat.lt_of_lt_of_le (I.made i hi) hge) hlt
      · obtain rfl := List.mem_singleton.mp hi
        exact hlt
    · rw [hmemmaps, List.length_append]
      rw [hclosed] at hc
      exact Nat.lt_add_right _ (I.closed scon hc)
  refine ⟨ls', I', fun scon hs hlen => ?_⟩
  have hs₀ : scon ∈ s.opens := by
    rw [hopens] at hs
    rcases List.mem_append.mp hs with hs | hs
    · exact hs
    · exact absurd (List.mem_singleton.mp hs) (Nat.ne_of_lt hlen)
  refine ⟨hs₀, ?_⟩
  rw [I'.callf hs, I.callf hs₀, hold scon hlen]
  refine congrArg Except.ok (List.map_congr_left fun a ha => ?_)
  rw [hkeep _ (mem_owned ls hs₀) a ha]

theorem Inv.close (I : Inv s ls) {scon : Nat} (h : scon ∈ s.opens) :
    ∃ t, sconClose scon s = .ok t ∧ Inv t ls ∧ t.memmaps = s.memmaps ∧
      t.closed = scon :: s.closed ∧ t.arena.heap = s.arena.heap := by
  have hlt := (mem_opens.mp h).1
  have hnodup : s.opens.Nodup := List.nodup_range.filter _
  have hperm : (s.owned ls).Perm ((s.memmaps.getD scon 0, ls scon) ::
      (s.opens.erase scon).map fun k => (s.memmaps.getD k 0, ls k)) :=
    (List.perm_cons_erase h).map fun k => (s.memmaps.getD k 0, ls k)
  obtain ⟨ar', hfree, O, hheap, hlen⟩ := (I.owned.perm hperm).mapFree
  let t : State := { s with arena := ar', closed := scon :: s.closed }
  have hopens : t.opens = s.opens.erase scon := by
    rw [hnodup.erase_eq_filter]
    unfold State.opens
    rw [List.filter_filter]
    refine List.filter_congr fun k _ => ?_
    have hcons : (k ∉ t.closed) ↔ k ≠ scon ∧ k ∉ s.closed := List.mem_cons.not.trans not_or
    rw [Bool.eq_iff_iff, decide_eq_true_iff, hcons, Bool.and_eq_true, decide_eq_true_iff, bne_iff_ne]
  refine ⟨t, ?_, ⟨?_, I.nodup, fun i hi => ?_, fun k hk => ?_⟩, rfl, rfl, hheap⟩
  · have hentries := I.callf h
    unfold sconCallf at hentries
    rw [memmap_of_lt hlt, ok_bind] at hentries
    unfold sconClose
    rw [memmap_of_lt hlt, ok_bind, hentries, ok_bind, hfree]
    rfl
  · unfold State.owned
    rw [hopens]
    exact O
  · exact hlen ▸ I.made i hi
  · rcases List.mem_cons.mp hk with rfl | hk
    · exact hlt
    · exact I.closed k hk

theorem Inv.close_iff (I : Inv s ls) {scon : Nat} :
    (∃ t, sconClose scon s = .ok t) ↔ scon ∈ s.opens := by
  constructor
  · rintro ⟨t, h⟩
    obtain ⟨memmap, hmemmap, h⟩ := bind_eq_ok.mp h
    obtain ⟨es, hes, -⟩ := bind_eq_ok.mp h
    refine I.entries_iff.mp ⟨es, ?_⟩
    unfold sconCallf
    rw [hmemmap]
    exact hes
  · intro h
    obtain ⟨t, ht, -⟩ := I.close h
    exact ⟨t, ht⟩

theorem Inv.step (I : Inv s ls) {c : Call} (h : Lifetime.step s c = .ok t) :
    ∃ ls', Inv t ls' ∧ s.memmaps.length ≤ t.memmaps.length ∧
      ∀ scon ∈ t.opens, scon < s.memmaps.length →
        scon ∈ s.opens ∧ sconCallf scon t = sconCallf scon s := by
  cases c with
  | create o =>
    obtain ⟨ls', I', hkept⟩ := I.create h
    obtain ⟨memmap, l, hmemmaps, -⟩ := sconCreate_spec I.owned h
    exact ⟨ls', I', by rw [hmemmaps, List.length_append]; exact Nat.le_add_right .., hkept⟩
  | callf scon =>
    obtain ⟨_, -, hret⟩ := bind_eq_ok.mp h
    obtain rfl := Except.ok.inj hret
    exact ⟨ls, I, Nat.le_refl _, fun scon hs _ => ⟨hs, rfl⟩⟩
  | close scon =>
    obtain ⟨t', ht, I', hmemmaps, hclosed, hheap⟩ := I.close (I.close_iff.mp ⟨t, h⟩)
    obtain rfl := Except.ok.inj (ht.symm.trans h)
    refine ⟨ls, I', hmemmaps ▸ Nat.le_refl _, fun k hk _ => ?_⟩
    have hk₀ : k ∈ s.opens := by
      rw [mem_opens, hmemmaps, hclosed, List.mem_cons, not_or] at hk
      exact mem_opens.mpr ⟨hk.1, hk.2.2⟩
    refine ⟨hk₀, ?_⟩
    rw [I'.callf hk, I.callf hk₀, hheap]

end Steps

section Main
variable {s t : State}

theorem inv_of_reachable (h : Reachable s) : ∃ ls, Inv s ls := by
  refine Trans.Reach.inv (I := fun s => ∃ ls, Inv s ls) (fun s h => ⟨_, Inv.init h⟩)
    (fun s c t ⟨ls, I⟩ hst => ?_) h
  obtain ⟨ls', I', -⟩ := I.step hst
  exact ⟨ls', I'⟩

end Main

section Run

end Run
end Subcontexts.Lifetime
