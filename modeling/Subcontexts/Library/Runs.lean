import Subcontexts.Library.Refines

/-! The steps of the library, one after the other: each is a step of its calls over the ranges alone,
and can be taken wherever that one can and the maps files are there. -/

namespace Subcontexts.Library
open Maps
open Lifetime (Keeps parse_spec)

section Lists
variable {α β : Type} {f g : α → β} {l : List α} {i : Nat} {x : α}

theorem map_set_of_congr (hi : l[i]? = some x)
    (hrest : ∀ k y, k ≠ i → l[k]? = some y → g y = f y) : l.map g = (l.map f).set i (g x) := by
  apply List.ext_getElem?
  intro k
  rw [List.getElem?_set, List.length_map, List.getElem?_map, List.getElem?_map]
  by_cases hk : i = k
  · subst k
    rw [if_pos rfl, if_pos (List.getElem?_eq_some_iff.mp hi).1, hi]
    rfl
  · rw [if_neg hk]
    cases hy : l[k]? with
    | none => rfl
    | some y => exact congrArg some (hrest k y (Ne.symm hk) hy)

theorem filterMap_set_perm {os : List (Option β)} {o : Option β} (p : Option β) (hi : os[i]? = some o) :
    (o.toList ++ (os.set i p).filterMap id).Perm (p.toList ++ os.filterMap id) := by
  induction os generalizing i with
  | nil => cases hi
  | cons q os ih =>
    have hcons : ∀ (q : Option β) (os : List (Option β)),
        (q :: os).filterMap id = q.toList ++ os.filterMap id := by
      intro q os
      cases q <;> rfl
    have hswap : ∀ a b c : List β, (a ++ (b ++ c)).Perm (b ++ (a ++ c)) := by
      intro a b c
      rw [← List.append_assoc, ← List.append_assoc]
      exact List.perm_append_comm.append_right c
    cases i with
    | zero =>
      obtain rfl := Option.some.inj hi
      rw [List.set_cons_zero, hcons, hcons]
      exact hswap ..
    | succ i =>
      have hi : os[i]? = some o := hi
      rw [List.set_cons_succ, hcons, hcons]
      exact (hswap ..).trans (((ih hi).append_left q.toList).trans (hswap ..))

end Lists

section Steps
variable {s t : State} {owned : List (Addr × List Addr)} {a : Addr} {scon : Nat}

theorem lives_eq (ar : Arena) (table : List Scb) :
    table.filterMap (Scb.inUse ar) = (table.map (Scb.inUse ar)).filterMap id := by
  rw [List.filterMap_map]
  rfl

theorem Inv.same (I : Inv s owned) (harena : t.arena = s.arena) (htable : t.table = s.table)
    (hstack : befores t.stack = befores s.stack) : Inv t owned := by
  refine ⟨harena ▸ I.owned, ?_, ?_⟩
  · rw [hstack, htable, harena]
    exact I.roots
  · rw [htable, harena]
    exact I.made

theorem parse_keeps {ar ar' : Arena} {junk : Nat → Nat → Char} {mapsfile : Option (List Char)}
    {before : Option Addr} (O : Owned ar owned) (h : ar.parse junk mapsfile = .ok (before, ar')) :
    ∃ owned', Owned ar' owned' ∧ owned'.map Prod.fst = before.toList ++ owned.map Prod.fst ∧
      ar.maps.length ≤ ar'.maps.length ∧ ∀ a < ar.maps.length, ar'.entries a = ar.entries a := by
  rcases parse_spec O h with ⟨rfl, rfl⟩ | ⟨l, rfl, O', hlen, hkeep⟩
  · exact ⟨owned, O, rfl, Nat.le_refl _, fun _ _ => rfl⟩
  · refine ⟨_, O', rfl, hlen ▸ Nat.le_succ _, fun a ha => entries_frame O O' ?_ fun l' hl' => ?_⟩
    · rw [List.map_cons, List.mem_cons]
      exact ⟨.inr, fun h => h.resolve_left (Nat.ne_of_lt ha)⟩
    · have hold : (a, l') ∈ owned := (List.mem_cons.mp hl').resolve_left fun heq =>
        absurd (Prod.mk.inj heq).1 (Nat.ne_of_lt ha)
      exact ⟨hold, hkeep _ hold⟩

theorem Inv.create (I : Inv s owned) {moved : Bool} {before : Option (List Char)}
    {junk : Nat → Nat → Char} (h : step s (.create moved before junk) = .ok t) :
    Scon.step s.view (.create moved) = some t.view ∧ ∃ owned', Inv t owned' := by
  obtain ⟨⟨before, ar⟩, hparse, hret⟩ := bind_eq_ok.mp h
  obtain rfl := Except.ok.inj hret
  obtain ⟨owned', O', hids, hle, hentries⟩ := parse_keeps I.owned hparse
  have hread : ∀ c ∈ s.table, ∀ a, c.memmap = some a → ar.entries a = s.arena.entries a :=
    fun c hc a ha => hentries a (I.made c hc a ha)
  have hview : (s.table ++ [(⟨0, none⟩ : Scb)]).map (Scb.view ar) = s.view.table ++ [⟨0, .notSet⟩] := by
    rw [List.map_append]
    exact congrArg (· ++ _) (List.map_congr_left fun c hc => view_congr (hread c hc))
  have hlives : (s.table ++ [(⟨0, none⟩ : Scb)]).filterMap (Scb.inUse ar) =
      s.table.filterMap (Scb.inUse s.arena) := by
    rw [List.filterMap_append, List.filterMap_congr fun c hc => inUse_congr (hread c hc)]
    exact List.append_nil _
  constructor
  · simp only [Scon.step, State.view, List.length_map, List.map_cons, Frame.view]
    rw [hview]
    rfl
  · refine ⟨owned', O', ?_, fun c hc a ha => ?_⟩
    · rw [hids]
      show List.Perm _ (befores (.creating _ _ before :: s.stack) ++
        (s.table ++ [(⟨0, none⟩ : Scb)]).filterMap (Scb.inUse ar))
      rw [hlives]
      cases before with
      | none => exact I.roots
      | some b => exact I.roots.cons b
    · rcases List.mem_append.mp hc with hc | hc
      · exact Nat.lt_of_lt_of_le (I.made c hc a ha) hle
      · obtain rfl := List.mem_singleton.mp hc
        cases ha

theorem Inv.exists_before (I : Inv s owned) {h gen b : Nat} {stack : List Frame}
    (hstack : s.stack = .creating h gen (some b) :: stack) :
    ∃ lb rest, owned.Perm ((b, lb) :: rest) ∧
      (rest.map Prod.fst).Perm (befores stack ++ s.table.filterMap (Scb.inUse s.arena)) ∧
      ∀ c ∈ s.table, c.memmap ≠ some b := by
  have hroots : (owned.map Prod.fst).Perm
      (b :: (befores stack ++ s.table.filterMap (Scb.inUse s.arena))) := by
    have hroots := I.roots
    rw [hstack] at hroots
    exact hroots
  have hb : b ∈ owned.map Prod.fst := hroots.mem_iff.mpr (List.mem_cons_self ..)
  obtain ⟨lb, hlb⟩ := exists_mem_of_mem_ids hb
  have hperm : owned.Perm ((b, lb) :: owned.erase (b, lb)) := List.perm_cons_erase hlb
  refine ⟨lb, _, hperm, ((hperm.map Prod.fst).symm.trans hroots).cons_inv, fun c hc hcb => ?_⟩
  have hnodup := hroots.nodup_iff.mp I.owned.ids
  have huse : b ∈ s.table.filterMap (Scb.inUse s.arena) :=
    List.mem_filterMap.mpr ⟨c, hc, (inUse_eq_some I.owned).mpr ⟨hcb, hb⟩⟩
  exact (List.nodup_cons.mp hnodup).1 (List.mem_append_right _ huse)

theorem opened_spec {libhandle : Nat} {after : Option (List Char)} {junk : Nat → Nat → Char}
    (h : step s (.opened libhandle after junk) = .ok t) :
    ∃ scon before stack after' ar memmap es ar', s.stack = .creating scon s.gen before :: stack ∧
      libhandle ≠ 0 ∧ s.arena.parse junk after = .ok (after', ar) ∧
      newMap before after' ar = .ok (memmap, es, ar') ∧ t = { s with
        arena := ar'
        table := s.table.set scon ⟨libhandle, some memmap⟩
        prot := Scon.mprotectMap (ranges es) .none s.prot
        stack := stack } := by
  simp only [step] at h
  split at h
  · rename_i scon gen before stack hstack
    obtain ⟨_, hgen, hrun⟩ := bind_eq_ok.mp h
    obtain ⟨_, hlib, hrun⟩ := bind_eq_ok.mp hrun
    obtain ⟨⟨after', ar⟩, hparse, hrun⟩ := bind_eq_ok.mp hrun
    obtain ⟨⟨memmap, es, ar'⟩, hmap, hret⟩ := bind_eq_ok.mp hrun
    have hgen : gen = s.gen := not_not.mp (haltIf_eq_ok.mp hgen)
    exact ⟨scon, before, stack, after', ar, memmap, es, ar', hgen ▸ hstack, haltIf_eq_ok.mp hlib,
      hparse, hmap, (Except.ok.inj hret).symm⟩
  · cases h

theorem newMap_eq_ok {before after : Option Addr} {ar : Arena} {r : Addr × List MapEntry × Arena}
    (h : newMap before after ar = .ok r) : ∃ b a, before = some b ∧ after = some a := by
  unfold newMap at h
  split at h
  · exact ⟨_, _, rfl, rfl⟩
  · cases h

structure Compared (s : State) (ar : Arena) (rest : List (Addr × List Addr)) (b memmap : Addr)
    (bs as : List MapEntry) : Prop where
  before : s.arena.entries b = .ok bs
  entries : ar.entries memmap = .ok (as.filter (isNew bs))
  fresh : s.arena.maps.length < memmap
  made : ar.maps.length = memmap + 1
  owned : ∃ l, Owned ar ((memmap, l) :: rest)
  roots : ∀ stack h gen, s.stack = .creating h gen (some b) :: stack →
    (rest.map Prod.fst).Perm (befores stack ++ s.table.filterMap (Scb.inUse s.arena))
  others : ∀ a < s.arena.maps.length, a ≠ b → ar.entries a = s.arena.entries a
  gone : ar.entries b = .error .fault
  unlinked : ∀ c ∈ s.table, c.memmap ≠ some b

theorem Inv.compared (I : Inv s owned) {h gen a b memmap : Nat} {stack : List Frame}
    {input : List Char} {junk : Nat → Nat → Char} {ar ar' : Arena} {es : List MapEntry}
    (hstack : s.stack = .creating h gen (some b) :: stack)
    (hparse : s.arena.parse junk (some input) = .ok (some a, ar))
    (hmap : newMap (some b) (some a) ar = .ok (memmap, es, ar')) :
    ∃ rest bs as, fileEntries junk input = .ok as ∧ es = as.filter (isNew bs) ∧
      Compared s ar' rest b memmap bs as := by
  obtain ⟨lb, rest, hperm, hrest, hnot⟩ := I.exists_before hstack
  have O := I.owned.perm hperm
  obtain ⟨as, has⟩ := parse_eq_ok hparse
  obtain ⟨la, ar₁, hrun, O₁, hentries₁, hlen₁, hkeep₁⟩ := parse_reads O has
  obtain ⟨heq, rfl⟩ := Prod.mk.inj (Except.ok.inj (hrun.symm.trans hparse))
  obtain rfl := Option.some.inj heq
  have hbs : s.arena.entries b = .ok (lb.map fun c => (s.arena.heap.mem c).toMapEntry) :=
    O.entries_eq (List.mem_cons_self ..)
  obtain ⟨_, -, hold⟩ := parse_keeps O hparse
  have hltb : b < s.arena.maps.length := by
    obtain ⟨m, hm, -⟩ := O.lists (b, lb) (List.mem_cons_self ..)
    exact (List.getElem?_eq_some_iff.mp hm).1
  obtain ⟨l, ar₂, hrun₂, O₂, hentries₂, hlen₂, hkeep₂⟩ :=
    newMap_spec O₁ ((hold.2.2 b hltb).trans hbs) hentries₁
  obtain ⟨rfl, heq⟩ := Prod.mk.inj (Except.ok.inj (hrun₂.symm.trans hmap))
  obtain ⟨rfl, rfl⟩ := Prod.mk.inj heq
  have hfresh : s.arena.maps.length < ar₁.maps.length := hlen₁ ▸ Nat.lt_succ_self _
  refine ⟨rest, _, as, has, rfl, hbs, hentries₂, hfresh, hlen₂, ⟨l, O₂⟩, fun stack' h' gen' hs' => ?_,
    fun a hlt hne => entries_frame O O₂ ?_ fun l' hl' => ?_, entries_of_not_mem O₂ ?_, hnot⟩
  · obtain ⟨-, rfl⟩ := List.cons.inj (hstack.symm.trans hs')
    exact hrest
  · rw [List.map_cons, List.map_cons, List.mem_cons, List.mem_cons]
    exact or_congr (iff_of_false hne (Nat.ne_of_lt (Nat.lt_trans hlt hfresh))) Iff.rfl
  · have hmem : (a, l') ∈ rest := (List.mem_cons.mp hl').resolve_left fun heq =>
      absurd (Prod.mk.inj heq).1 (Nat.ne_of_lt (Nat.lt_trans hlt hfresh))
    refine ⟨List.mem_cons_of_mem _ hmem, fun c hc => ?_⟩
    rw [hkeep₂ _ hmem c hc, hkeep₁ _ (List.mem_cons_of_mem _ hmem) c hc]
  · rw [List.map_cons, List.mem_cons, not_or]
    exact ⟨Nat.ne_of_lt (Nat.lt_trans hltb hfresh), (List.nodup_cons.mp O.ids).1⟩

theorem exists_unset (L : Scon.Lifecycle s.view) {gen : Nat} {b : Option Addr} {stack : List Frame}
    (hstack : s.stack = .creating scon gen b :: stack) :
    ∃ c, s.table[scon]? = some c ∧ c.memmap = none := by
  have hcreating : scon ∈ s.view.creating := by
    unfold Scon.State.creating State.view
    rw [hstack]
    exact List.mem_cons_self ..
  obtain ⟨l, hl⟩ := (L.notSet scon).mpr hcreating
  have hl : (s.table.map (Scb.view s.arena))[scon]? = some ⟨l, .notSet⟩ := hl
  rw [List.getElem?_map] at hl
  obtain ⟨c, hc, hview⟩ := Option.map_eq_some_iff.mp hl
  refine ⟨c, hc, ?_⟩
  cases hm : c.memmap with
  | none => rfl
  | some a =>
    have hmem := (Scon.Scb.mk.inj hview).2
    rw [hm] at hmem
    dsimp only at hmem
    split at hmem
    · cases hmem
    · cases hmem

theorem before_eq {gen b : Nat} {stack : List Frame} {bs : List MapEntry}
    (hstack : s.stack = .creating scon gen (some b) :: stack) (hbs : s.arena.entries b = .ok bs) :
    s.before = bs := by
  unfold State.before
  rw [hstack]
  dsimp only
  rw [hbs]
  rfl

theorem found_eq {input : List Char} {junk : Nat → Nat → Char} {as : List MapEntry}
    (has : fileEntries junk input = .ok as) : found (some input) junk = as := by
  unfold found
  rw [Option.map_some, has]
  rfl

theorem Inv.opened (I : Inv s owned) (L : Scon.Lifecycle s.view) {libhandle : Nat}
    {after : Option (List Char)} {junk : Nat → Nat → Char}
    (h : step s (.opened libhandle after junk) = .ok t) :
    Scon.step s.view (Action.view s (.opened libhandle after junk)) = some t.view ∧
      ∃ owned', Inv t owned' := by
  obtain ⟨scon, before, stack, after', ar, memmap, es, ar', hstack, hlib, hparse, hmap, rfl⟩ :=
    opened_spec h
  obtain ⟨b, a, rfl, rfl⟩ := newMap_eq_ok hmap
  cases after with
  | none => cases hparse
  | some input =>
  obtain ⟨rest, bs, as, has, rfl, C⟩ := I.compared hstack hparse hmap
  -- the maps of the other handles are read as before
  have hread : ∀ c ∈ s.table, ∀ a, c.memmap = some a → ar'.entries a = s.arena.entries a := by
    intro c hc a ha
    refine C.others a (I.made c hc a ha) ?_
    rintro rfl
    exact C.unlinked c hc ha
  have hnew : Scb.view ar' ⟨libhandle, some memmap⟩ =
      ⟨libhandle, .live (ranges (as.filter (isNew bs)))⟩ := live_iff.mpr ⟨rfl, _, C.entries, rfl⟩
  constructor
  · have htable : (s.table.set scon ⟨libhandle, some memmap⟩).map (Scb.view ar') =
        s.view.table.set scon ⟨libhandle, .live (ranges (as.filter (isNew bs)))⟩ := by
      rw [List.map_set, hnew, List.map_congr_left fun c hc => view_congr (hread c hc)]
      rfl
    have hdiff : Scon.mapDiff (ranges s.before) (ranges (found (some input) junk)) =
        ranges (as.filter (isNew bs)) := by
      rw [before_eq hstack C.before, found_eq has]
      exact (map_toRange_filter bs as).symm
    have hvstack : s.view.stack = .creating scon s.gen :: stack.map Frame.view := by
      unfold State.view
      rw [hstack]
      rfl
    simp only [Action.view, Scon.step]
    rw [hdiff, hvstack]
    dsimp only
    rw [if_pos ⟨rfl, hlib⟩, ← htable]
    rfl
  · obtain ⟨l, O'⟩ := C.owned
    obtain ⟨c, hc, hcnone⟩ := exists_unset L hstack
    refine ⟨(memmap, l) :: rest, O', ?_, fun d hd a ha => ?_⟩
    · have huse : Scb.inUse ar' ⟨libhandle, some memmap⟩ = some memmap :=
        (inUse_eq_some O').mpr ⟨rfl, List.mem_cons_self ..⟩
      have hold : (s.table.map (Scb.inUse s.arena))[scon]? = some none := by
        rw [List.getElem?_map, hc]
        show some (Option.filter _ c.memmap) = _
        rw [hcnone]
        rfl
      have hset := filterMap_set_perm (some memmap) hold
      have hrest := C.roots stack scon s.gen hstack
      show List.Perm _ (befores stack ++ (s.table.set scon _).filterMap (Scb.inUse ar'))
      rw [lives_eq, List.map_set, huse, List.map_congr_left fun c hc => inUse_congr (hread c hc)]
      rw [lives_eq] at hrest
      exact (hrest.cons memmap).trans
        ((List.perm_middle.symm).trans (hset.symm.append_left (befores stack)))
    · show a < ar'.maps.length
      rw [C.made]
      rcases List.mem_or_eq_of_mem_set hd with hd | rfl
      · exact Nat.lt_succ_of_lt (Nat.lt_trans (I.made d hd a ha) C.fresh)
      · have hlast : memmap = a := Option.some.inj ha
        exact hlast ▸ Nat.lt_succ_self _

theorem close_spec (h : step s (.close scon) = .ok t) :
    ∃ c memmap es ar, s.table[scon]? = some c ∧ c.memmap = some memmap ∧
      s.arena.entries memmap = .ok es ∧ mapFree memmap s.arena = .ok ar ∧ t = { s with
        arena := ar
        prot := Scon.mprotectMap (ranges es) .rwx s.prot
        closed := scon :: s.closed } := by
  obtain ⟨c, hc, h⟩ := bind_eq_ok.mp h
  obtain ⟨memmap, hmap, h⟩ := bind_eq_ok.mp h
  obtain ⟨es, hes, h⟩ := bind_eq_ok.mp h
  obtain ⟨ar, har, h⟩ := bind_eq_ok.mp h
  refine ⟨c, memmap, es, ar, ?_, ?_, hes, har, (Except.ok.inj h).symm⟩
  · unfold getScb at hc
    split at hc
    · obtain rfl := Except.ok.inj hc
      assumption
    · cases hc
  · unfold Scb.follow at hmap
    split at hmap
    · obtain rfl := Except.ok.inj hmap
      assumption
    · cases hmap

theorem getScb_eq_ok {c : Scb} : getScb s scon = .ok c ↔ s.table[scon]? = some c := by
  unfold getScb
  cases s.table[scon]? with
  | none =>
    constructor
    · intro h
      cases h
    · intro h
      cases h
  | some d =>
    constructor
    · intro h
      exact congrArg some (Except.ok.inj h)
    · intro h
      exact congrArg Except.ok (Option.some.inj h)

theorem Inv.freed (I : Inv s owned) {ar : Arena} {es : List MapEntry}
    (hes : s.arena.entries a = .ok es) (hfree : mapFree a s.arena = .ok ar) :
    ∃ rest, (owned.map Prod.fst).Perm (a :: rest.map Prod.fst) ∧ Owned ar rest ∧
      ar.maps.length = s.arena.maps.length ∧ ar.entries a = .error .fault ∧
      ∀ b ≠ a, ar.entries b = s.arena.entries b := by
  obtain ⟨l, hl⟩ := exists_mem_of_mem_ids ((entries_ok_iff I.owned).mp ⟨es, hes⟩)
  have hperm : owned.Perm ((a, l) :: owned.erase (a, l)) := List.perm_cons_erase hl
  have O := I.owned.perm hperm
  obtain ⟨ar', hfree', O', hheap, hlen⟩ := O.mapFree
  obtain rfl := Except.ok.inj (hfree'.symm.trans hfree)
  refine ⟨_, hperm.map Prod.fst, O', hlen, entries_of_not_mem O' (List.nodup_cons.mp O.ids).1,
    fun b hne => entries_frame O O' ?_ fun l' hl' => ⟨List.mem_cons_of_mem _ hl', fun e _ => ?_⟩⟩
  · rw [List.map_cons, List.mem_cons]
    exact ⟨fun h => h.resolve_left hne, .inr⟩
  · rw [hheap]

theorem Inv.close (I : Inv s owned) (h : step s (.close scon) = .ok t) :
    Scon.step s.view (.close scon) = some t.view ∧ ∃ owned', Inv t owned' := by
  obtain ⟨c, a, es, ar, hc, hmap, hes, hfree, rfl⟩ := close_spec h
  have ha := (entries_ok_iff I.owned).mp ⟨es, hes⟩
  obtain ⟨rest, hperm, O', hlen, hdead, hothers⟩ := I.freed hes hfree
  have huse : c.inUse s.arena = some a := (inUse_eq_some I.owned).mpr ⟨hmap, ha⟩
  -- no other handle has this map
  have hread : ∀ k d, k ≠ scon → s.table[k]? = some d → ∀ b, d.memmap = some b →
      ar.entries b = s.arena.entries b := by
    intro k d hk hd b hb
    refine hothers b ?_
    rintro rfl
    exact hk (I.inUse_unique hd hc ((inUse_eq_some I.owned).mpr ⟨hb, ha⟩) huse)
  have hviewc : c.view ar = ⟨c.libhandle, .freed⟩ := by
    unfold Scb.view
    rw [hmap]
    dsimp only
    rw [hdead]
  have husec : c.inUse ar = none := by
    unfold Scb.inUse
    rw [hmap, Option.filter_some, hdead]
    rfl
  constructor
  · have hentries : s.view.entries scon = some (ranges es) := by
      refine view_entries_iff.mpr ⟨c, es, getScb_eq_ok.mpr hc, ?_, rfl⟩
      unfold Scb.entries Scb.follow
      rw [hmap]
      exact hes
    have htable : s.table.map (Scb.view ar) =
        s.view.table.modify scon fun c => { c with memmap := .freed } := by
      have hget : (s.table.map (Scb.view s.arena))[scon]? = some (c.view s.arena) := by
        rw [List.getElem?_map, hc]
        rfl
      rw [map_set_of_congr hc fun k d hk hd => view_congr (hread k d hk hd), hviewc]
      apply List.ext_getElem?
      intro k
      show _ = ((s.table.map (Scb.view s.arena)).modify scon _)[k]?
      rw [List.getElem?_set, List.getElem?_modify]
      by_cases hk : scon = k
      · subst k
        rw [if_pos rfl, if_pos (List.getElem?_eq_some_iff.mp hget).1, hget]
        simp only [if_pos]
        rfl
      · rw [if_neg hk]
        simp only [if_neg hk]
        cases (s.table.map (Scb.view s.arena))[k]? with
        | none => rfl
        | some d => rfl
    simp only [Scon.step]
    rw [hentries]
    dsimp only
    rw [← htable]
    rfl
  · refine ⟨rest, O', ?_, fun d hd b hb => hlen ▸ I.made d hd b hb⟩
    have hold : (s.table.map (Scb.inUse s.arena))[scon]? = some (some a) := by
      rw [List.getElem?_map, hc]
      exact congrArg some huse
    have hset := filterMap_set_perm none hold
    have hroots := hperm.symm.trans I.roots
    rw [lives_eq] at hroots
    show List.Perm _ (befores s.stack ++ s.table.filterMap (Scb.inUse ar))
    rw [lives_eq, map_set_of_congr hc fun k d hk hd => inUse_congr (hread k d hk hd), husec]
    apply List.Perm.cons_inv (a := a)
    exact hroots.trans ((hset.symm.append_left (befores s.stack)).trans List.perm_middle)

theorem ret_spec (h : step s .ret = .ok t) : ∃ scon stack c es,
    s.stack = .calling scon s.gen :: stack ∧ getScb s scon = .ok c ∧ c.entries s.arena = .ok es ∧
      t = { s with prot := Scon.mprotectMap (ranges es) .none s.prot, stack := stack } := by
  simp only [step] at h
  split at h
  · rename_i scon gen stack hstack
    obtain ⟨_, hgen, hrun⟩ := bind_eq_ok.mp h
    obtain ⟨c, hc, hrun⟩ := bind_eq_ok.mp hrun
    obtain ⟨es, hes, hret⟩ := bind_eq_ok.mp hrun
    have hgen : gen = s.gen := not_not.mp (haltIf_eq_ok.mp hgen)
    exact ⟨scon, stack, c, es, hgen ▸ hstack, hc, hes, (Except.ok.inj hret).symm⟩
  · cases h

theorem Inv.ret (I : Inv s owned) (h : step s .ret = .ok t) :
    Scon.step s.view .ret = some t.view ∧ Inv t owned := by
  obtain ⟨scon, stack, c, es, hstack, hc, hes, rfl⟩ := ret_spec h
  have hentries : s.view.entries scon = some (ranges es) := view_entries_iff.mpr ⟨c, es, hc, hes, rfl⟩
  have hvstack : s.view.stack = .calling scon s.gen :: stack.map Frame.view := by
    unfold State.view
    rw [hstack]
    rfl
  constructor
  · simp only [Scon.step]
    rw [hvstack]
    dsimp only
    rw [hentries]
    exact if_pos rfl
  · refine I.same rfl rfl ?_
    rw [hstack]
    rfl

theorem handler_view (I : Inv s owned) (siErrno : Int) (addr : Nat) :
    Scon.sigsegvHandler siErrno addr s.view.table = outcome (sigsegvHandler siErrno addr s) := by
  unfold Scon.sigsegvHandler sigsegvHandler
  split
  · rfl
  · exact findEntry_view I.owned addr s.table

theorem Inv.fault (I : Inv s owned) {siErrno : Int} {addr : Nat}
    (h : step s (.fault siErrno addr) = .ok t) :
    Scon.step s.view (.fault siErrno addr) = some t.view ∧ Inv t owned := by
  obtain ⟨e, he, hret⟩ := bind_eq_ok.mp h
  obtain rfl := Except.ok.inj hret
  refine ⟨?_, I.same rfl rfl rfl⟩
  simp only [Scon.step]
  rw [handler_view I, he]
  rfl

/-- A step of the library is one of its calls over the ranges. -/
theorem Inv.step (I : Inv s owned) (L : Scon.Lifecycle s.view) {act : Action}
    (h : Library.step s act = .ok t) :
    Scon.step s.view (act.view s) = some t.view ∧ ∃ owned', Inv t owned' := by
  cases act with
  | create moved before junk => exact I.create h
  | opened libhandle after junk => exact I.opened L h
  | call scon =>
    obtain ⟨c, hc, hrun⟩ := bind_eq_ok.mp h
    obtain ⟨es, hes, hret⟩ := bind_eq_ok.mp hrun
    obtain rfl := Except.ok.inj hret
    have hentries : s.view.entries scon = some (ranges es) :=
      view_entries_iff.mpr ⟨c, es, hc, hes, rfl⟩
    refine ⟨?_, owned, I.same rfl rfl rfl⟩
    simp only [Action.view, Scon.step]
    rw [hentries]
    rfl
  | ret =>
    obtain ⟨hst, I'⟩ := I.ret h
    exact ⟨hst, owned, I'⟩
  | close scon => exact I.close h
  | fault siErrno addr =>
    obtain ⟨hst, I'⟩ := I.fault h
    exact ⟨hst, owned, I'⟩
  | remap start len p =>
    obtain ⟨_, hfor, hret⟩ := bind_eq_ok.mp h
    obtain rfl := Except.ok.inj hret
    refine ⟨?_, owned, I.same rfl rfl rfl⟩
    exact if_pos ((foreign_iff start len).mpr (not_not.mp (haltIf_eq_ok.mp hfor)))

end Steps

section Enabled
variable {s : State} {t : Scon.State} {owned : List (Addr × List Addr)} {scon : Nat}

theorem creating_of_view {h gen : Nat} {stack : List Scon.Frame}
    (hs : s.view.stack = .creating h gen :: stack) :
    ∃ before stack', s.stack = .creating h gen before :: stack' := by
  obtain ⟨f, fs, hf, hview, -⟩ := List.map_eq_cons_iff.mp hs
  cases f with
  | creating h' gen' before =>
    obtain ⟨rfl, rfl⟩ := Scon.Frame.creating.inj hview
    exact ⟨before, fs, hf⟩
  | calling h' gen' => cases hview

theorem calling_of_view {h gen : Nat} {stack : List Scon.Frame}
    (hs : s.view.stack = .calling h gen :: stack) : ∃ stack', s.stack = .calling h gen :: stack' := by
  obtain ⟨f, fs, hf, hview, -⟩ := List.map_eq_cons_iff.mp hs
  cases f with
  | creating h' gen' before => cases hview
  | calling h' gen' =>
    obtain ⟨rfl, rfl⟩ := Scon.Frame.calling.inj hview
    exact ⟨fs, hf⟩

theorem found_opened {h gen b libhandle : Nat} {stack : List Frame} {input : List Char}
    {junk : Nat → Nat → Char} {es : List MapEntry}
    (hstack : s.stack = .creating h gen (some b) :: stack) (hes : fileEntries junk input = .ok es) :
    Found s (.opened libhandle (some input) junk) := by
  refine ⟨⟨input, es, rfl, hes⟩, fun h' gen' before stack' hstack' => ?_⟩
  obtain ⟨-, -, rfl⟩ := Frame.creating.inj (List.cons.inj (hstack.symm.trans hstack')).1
  exact Option.some_ne_none b

theorem opened_enabled {libhandle : Nat} {before after : List Scon.MapEntry}
    (h : Scon.step s.view (.opened libhandle before after) = some t) :
    libhandle ≠ 0 ∧ ∃ scon b stack, s.stack = .creating scon s.gen b :: stack := by
  obtain ⟨scon, stack, hs, -⟩ := Scon.step_opened h
  obtain ⟨b, stack', hstack⟩ := creating_of_view hs
  refine ⟨fun hlib => ?_, scon, b, stack', hstack⟩
  simp only [Scon.step] at h
  rw [hs] at h
  dsimp only at h
  rw [if_neg fun hboth => hboth.2 hlib] at h
  cases h

theorem Inv.exists_create (I : Inv s owned) {moved : Bool} {before : Option (List Char)}
    {junk : Nat → Nat → Char} (hfound : Found s (.create moved before junk)) :
    ∃ u, Library.step s (.create moved before junk) = .ok u := by
  cases before with
  | none => exact ⟨_, rfl⟩
  | some input =>
    obtain ⟨es, hes⟩ := hfound input rfl
    obtain ⟨l, ar, hrun, -⟩ := parse_reads I.owned hes
    exact ⟨_, bind_eq_ok.mpr ⟨_, hrun, rfl⟩⟩

theorem Inv.exists_opened (I : Inv s owned) {libhandle : Nat} {after : Option (List Char)}
    {junk : Nat → Nat → Char} (hfound : Found s (.opened libhandle after junk))
    (h : Scon.step s.view (Action.view s (.opened libhandle after junk)) = some t) :
    ∃ u, Library.step s (.opened libhandle after junk) = .ok u := by
  obtain ⟨hlib, scon, before, stack, hstack⟩ := opened_enabled h
  obtain ⟨⟨input, as, rfl, has⟩, hbefore⟩ := hfound
  obtain ⟨b, rfl⟩ := Option.ne_none_iff_exists'.mp (hbefore _ _ _ _ hstack)
  obtain ⟨lb, rest, hperm, -⟩ := I.exists_before hstack
  have O := I.owned.perm hperm
  obtain ⟨la, ar, hrun, O₁, hentries, -⟩ := parse_reads O has
  obtain ⟨l, ar', hmap, -⟩ := newMap_spec O₁ (O₁.entries_eq (List.mem_cons_of_mem _
    (List.mem_cons_self ..))) hentries
  simp only [Library.step]
  rw [hstack]
  dsimp only
  rw [haltIf_neg (not_not.mpr rfl), ok_bind, haltIf_neg hlib, ok_bind, hrun, ok_bind]
  dsimp only
  rw [hmap]
  exact ⟨_, rfl⟩

theorem Inv.exists_close (I : Inv s owned) (h : Scon.step s.view (.close scon) = some t) :
    ∃ u, Library.step s (.close scon) = .ok u := by
  obtain ⟨_, hentries, -⟩ := Scon.step_close h
  obtain ⟨c, es, hc, hes, -⟩ := view_entries_iff.mp hentries
  obtain ⟨memmap, hmap, hread⟩ := bind_eq_ok.mp hes
  obtain ⟨l, hl⟩ := exists_mem_of_mem_ids ((entries_ok_iff I.owned).mp ⟨es, hread⟩)
  obtain ⟨ar, hfree, -⟩ := (I.owned.perm (List.perm_cons_erase hl)).mapFree
  exact ⟨_, bind_eq_ok.mpr ⟨c, hc, bind_eq_ok.mpr ⟨memmap, hmap, bind_eq_ok.mpr ⟨es, hread,
    bind_eq_ok.mpr ⟨ar, hfree, rfl⟩⟩⟩⟩⟩

/-- Where the calls over the ranges can go on, the library can. -/
theorem Inv.exists_step (I : Inv s owned) {act : Action} (hfound : Found s act)
    (h : Scon.step s.view (act.view s) = some t) : ∃ u, Library.step s act = .ok u := by
  cases act with
  | create moved before junk => exact I.exists_create hfound
  | opened libhandle after junk => exact I.exists_opened hfound h
  | call scon =>
    obtain ⟨⟨_, hentries⟩, -⟩ := Scon.step_call h
    obtain ⟨c, es, hc, hes, -⟩ := view_entries_iff.mp hentries
    exact ⟨_, bind_eq_ok.mpr ⟨c, hc, bind_eq_ok.mpr ⟨es, hes, rfl⟩⟩⟩
  | ret =>
    obtain ⟨scon, _, stack, hs, hentries, -⟩ := Scon.step_ret h
    obtain ⟨stack', hstack⟩ := calling_of_view hs
    obtain ⟨c, es, hc, hes, -⟩ := view_entries_iff.mp hentries
    have hstack : s.stack = .calling scon s.gen :: stack' := hstack
    simp only [Library.step]
    rw [hstack]
    dsimp only
    rw [haltIf_neg (not_not.mpr rfl), ok_bind, hc, ok_bind, hes]
    exact ⟨_, rfl⟩
  | close scon => exact I.exists_close h
  | fault siErrno addr =>
    obtain ⟨e, hsi, hfind, -⟩ := Scon.step_fault h
    have hfind : Scon.findEntry (s.table.map (Scb.view s.arena)) addr = .granted e := hfind
    rw [findEntry_view I.owned] at hfind
    cases hrun : findEntry s.arena addr s.table with
    | ok e' =>
      refine ⟨_, bind_eq_ok.mpr ⟨e', ?_, rfl⟩⟩
      unfold sigsegvHandler
      rw [if_neg (not_not.mpr hsi), hrun]
    | error err =>
      rw [hrun] at hfind
      cases err <;> cases hfind
  | remap start len p =>
    obtain ⟨hfor, -⟩ := Scon.step_remap h
    have hforeign : s.foreign start len := (foreign_iff start len).mp hfor
    exact ⟨_, bind_eq_ok.mpr ⟨(), haltIf_neg (not_not.mpr hforeign), rfl⟩⟩

theorem found_of_step {act : Action} {u : State} (h : step s act = .ok u) : Found s act := by
  cases act with
  | create moved before junk =>
    intro input hbefore
    subst hbefore
    obtain ⟨_, hparse, -⟩ := bind_eq_ok.mp h
    exact parse_eq_ok hparse
  | opened libhandle after junk =>
    obtain ⟨scon, before, stack, after', ar, memmap, es, ar', hstack, -, hparse, hmap, -⟩ :=
      opened_spec h
    obtain ⟨b, a, rfl, rfl⟩ := newMap_eq_ok hmap
    cases after with
    | none => cases hparse
    | some input =>
      obtain ⟨as, has⟩ := parse_eq_ok hparse
      exact found_opened hstack has
  | call scon => exact trivial
  | ret => exact trivial
  | close scon => exact trivial
  | fault siErrno addr => exact trivial
  | remap start len p => exact trivial

end Enabled

section Main
variable {s t : State}

def State.init (s : State) : Prop :=
  s.view.init ∧ s.arena.heap.used = 0 ∧ (∀ a, s.arena.freed a = false) ∧ s.arena.maps = []

def Reachable : State → Prop := Trans.Reach State.init fun s act t => step s act = .ok t

theorem inv_of_reachable (h : Reachable s) : Scon.Reachable s.view ∧ ∃ owned, Inv s owned := by
  refine Trans.Reach.inv (I := fun s => Scon.Reachable s.view ∧ ∃ owned, Inv s owned)
    (fun s ⟨hview, hused, hfreed, hmaps⟩ => ⟨.init hview, [], .init hview hused hfreed hmaps⟩)
    (fun s act t ⟨hr, owned, I⟩ hst => ?_) h
  obtain ⟨hstep, I'⟩ := I.step (Scon.lifecycle_of_reachable hr) hst
  exact ⟨.step (l := act.view s) hr hstep, I'⟩

/-- The library refines its calls over ranges: it takes each of their steps where the maps files are
there, and no others, and it keeps the maps of the open handles and of the creations in progress. -/
theorem library_refines (h : Reachable s) :
    Scon.Reachable s.view ∧
    (∀ act t, step s act = .ok t → Scon.step s.view (act.view s) = some t.view) ∧
    (∀ act, (∃ t, step s act = .ok t) ↔
      Found s act ∧ ∃ t, Scon.step s.view (act.view s) = some t) ∧
    ∃ owned, Owned s.arena owned ∧ (owned.map Prod.fst).Perm
      (befores s.stack ++ s.table.filterMap (Scb.inUse s.arena)) := by
  obtain ⟨hr, owned, I⟩ := inv_of_reachable h
  have L := Scon.lifecycle_of_reachable hr
  refine ⟨hr, fun act t hst => (I.step L hst).1, fun act => ?_, owned, I.owned, I.roots⟩
  constructor
  · rintro ⟨t, hst⟩
    exact ⟨found_of_step hst, _, (I.step L hst).1⟩
  · rintro ⟨hfound, t, hst⟩
    exact I.exists_step hfound hst

end Main

section Run

def emptyState : State :=
  ⟨⟨emptyHeap, fun _ => false, []⟩, [], 10, 0, fun _ => .rwx, [], []⟩

theorem emptyState_init : emptyState.init :=
  ⟨⟨rfl, rfl, rfl, rfl, rfl⟩, rfl, fun _ => rfl, rfl⟩

def noJunk : Nat → Nat → Char := fun _ _ => '-'

def fileBefore : List Char := "1000-2000 rw-p\n".toList

def fileAfter : List Char := "1000-2000 rw-p\n3000-4000 r-xp\n".toList

theorem fileEntries_before : ∃ es, fileEntries noJunk fileBefore = .ok es :=
  parsePieces_total (by decide +kernel)

theorem fileEntries_after : ∃ es, fileEntries noJunk fileAfter = .ok es :=
  parsePieces_total (by decide +kernel)

theorem library_refines_oneRange : ∃ s t : State, Reachable s ∧
    step s (.opened 1 (some fileAfter) noJunk) = .ok t ∧ Scon.Reachable t.view := by
  have h₀ : Reachable emptyState := .init emptyState_init
  obtain ⟨-, -, henabled, owned, O, -⟩ := library_refines h₀
  obtain ⟨s, hs⟩ := (henabled (.create false (some fileBefore) noJunk)).mpr
    ⟨fun input hinput => Option.some.inj hinput ▸ fileEntries_before, _, rfl⟩
  have h : Reachable s := .step (l := .create false (some fileBefore) noJunk) h₀ hs
  obtain ⟨bs, hbs⟩ := fileEntries_before
  obtain ⟨l, ar, hrun, -⟩ := parse_reads O hbs
  obtain ⟨⟨before, ar'⟩, hparse, hret⟩ := bind_eq_ok.mp hs
  obtain ⟨rfl, rfl⟩ := Prod.mk.inj (Except.ok.inj (hrun.symm.trans hparse))
  obtain rfl := Except.ok.inj hret
  obtain ⟨as, has⟩ := fileEntries_after
  obtain ⟨-, -, henabled', -⟩ := library_refines h
  obtain ⟨t, ht⟩ := (henabled' (.opened 1 (some fileAfter) noJunk)).mpr
    ⟨found_opened rfl has, _, rfl⟩
  have h' : Reachable t := .step (l := .opened 1 (some fileAfter) noJunk) h ht
  exact ⟨_, t, h, ht, (library_refines h').1⟩

end Run
end Subcontexts.Library
