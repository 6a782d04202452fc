import Subcontexts.Library.Model
import Subcontexts.Scon.Lifetime

/-! What the loops of the library read of a map, and that it stays what it was while other maps are
made and freed. -/

namespace Subcontexts.Library
open Maps
open Lifetime (Keeps parse_spec diff_spec)

section Arena
variable {ar ar' : Arena} {owned owned' : List (Addr × List Addr)} {a b : Addr} {l la lb : List Addr}
  {m : Map} {es as bs : List MapEntry}

theorem get_of_not_mem (O : Owned ar owned) (h : a ∉ owned.map Prod.fst) :
    ar.get a = .error .fault := by
  unfold Arena.get
  split
  · rename_i m hm
    exact absurd (O.maps a m hm) h
  · rfl

theorem entries_of_not_mem (O : Owned ar owned) (h : a ∉ owned.map Prod.fst) :
    ar.entries a = .error .fault := by
  unfold Arena.entries
  rw [get_of_not_mem O h]
  rfl

theorem exists_mem_of_mem_ids (h : a ∈ owned.map Prod.fst) : ∃ l, (a, l) ∈ owned := by
  obtain ⟨o, ho, rfl⟩ := List.mem_map.mp h
  exact ⟨o.2, ho⟩

theorem entries_ok_iff (O : Owned ar owned) :
    (∃ es, ar.entries a = .ok es) ↔ a ∈ owned.map Prod.fst := by
  constructor
  · rintro ⟨es, hes⟩
    by_contra hnot
    rw [entries_of_not_mem O hnot] at hes
    cases hes
  · intro h
    obtain ⟨l, hl⟩ := exists_mem_of_mem_ids h
    exact ⟨_, O.entries_eq hl⟩

theorem entries_of_shows (O : Owned ar owned) (ho : (a, l) ∈ owned) (hget : ar.get a = .ok m)
    (hshows : ar.heap.Shows m es) : ar.entries a = .ok es := by
  obtain ⟨m', hm', C⟩ := O.chain ho
  obtain rfl := Except.ok.inj (hget.symm.trans hm')
  obtain ⟨l', C'⟩ := hshows
  rw [O.entries_eq ho, C.unique C']

theorem entries_frame (O : Owned ar owned) (O' : Owned ar' owned')
    (hids : a ∈ owned.map Prod.fst ↔ a ∈ owned'.map Prod.fst)
    (hkeep : ∀ l, (a, l) ∈ owned' → (a, l) ∈ owned ∧ ∀ b ∈ l, ar'.heap.mem b = ar.heap.mem b) :
    ar'.entries a = ar.entries a := by
  by_cases ha : a ∈ owned'.map Prod.fst
  · obtain ⟨l, hl⟩ := exists_mem_of_mem_ids ha
    obtain ⟨hold, hmem⟩ := hkeep l hl
    rw [O.entries_eq hold, O'.entries_eq hl]
    refine congrArg Except.ok (List.map_congr_left fun b hb => ?_)
    rw [hmem b hb]
  · rw [entries_of_not_mem O' ha, entries_of_not_mem O (hids.not.mpr ha)]

theorem get_put (h : Heap) : (ar.put h m).2.get ar.maps.length = .ok m := by
  have hlast : (ar.maps ++ [some m])[ar.maps.length]? = some (some m) := List.getElem?_concat_length
  unfold Arena.get Arena.put
  rw [hlast]

def fileEntries (junk : Nat → Nat → Char) (input : List Char) : Except Halt (List MapEntry) :=
  parsePieces junk 0 (Lines.pieces 256 (input.length + 1) input)

theorem parse_reads {junk : Nat → Nat → Char} {input : List Char} (O : Owned ar owned)
    (hes : fileEntries junk input = .ok es) :
    ∃ l ar', ar.parse junk (some input) = .ok (some ar.maps.length, ar') ∧
      Owned ar' ((ar.maps.length, l) :: owned) ∧ ar'.entries ar.maps.length = .ok es ∧
      ar'.maps.length = ar.maps.length + 1 ∧ Keeps ar ar' owned := by
  obtain ⟨m, h', hparse, hshows, -⟩ := mapParse_ok (h := ar.heap) hes
  have hrun : ar.parse junk (some input) = .ok (some ar.maps.length, (ar.put h' m).2) := by
    unfold Arena.parse
    rw [hparse]
    rfl
  rcases parse_spec O hrun with ⟨hnone, -⟩ | ⟨l, -, O', hlen, hkeep⟩
  · cases hnone
  · exact ⟨l, _, hrun, O', entries_of_shows O' (List.mem_cons_self ..) (get_put h') hshows, hlen,
      hkeep⟩

theorem parse_eq_ok {junk : Nat → Nat → Char} {input : List Char} {before : Option Addr}
    (h : ar.parse junk (some input) = .ok (before, ar')) : ∃ es, fileEntries junk input = .ok es := by
  obtain ⟨⟨m, h'⟩, hparse, -⟩ := bind_eq_ok.mp h
  obtain ⟨es, hes, -⟩ := mapParse_eq_ok hparse
  exact ⟨es, hes⟩

theorem newMap_spec (O : Owned ar ((a, la) :: (b, lb) :: owned)) (hb : ar.entries b = .ok bs)
    (ha : ar.entries a = .ok as) :
    ∃ l ar', newMap (some b) (some a) ar = .ok (ar.maps.length, as.filter (isNew bs), ar') ∧
      Owned ar' ((ar.maps.length, l) :: owned) ∧
      ar'.entries ar.maps.length = .ok (as.filter (isNew bs)) ∧
      ar'.maps.length = ar.maps.length + 1 ∧ Keeps ar ar' owned := by
  have hmemb : (b, lb) ∈ (a, la) :: (b, lb) :: owned := List.mem_cons_of_mem _ (List.mem_cons_self ..)
  obtain ⟨mb, hgetb, B⟩ := O.chain hmemb
  obtain ⟨ma, hgeta, A⟩ := O.chain (List.mem_cons_self ..)
  obtain rfl := Except.ok.inj ((O.entries_eq hmemb).symm.trans hb)
  obtain rfl := Except.ok.inj ((O.entries_eq (List.mem_cons_self ..)).symm.trans ha)
  obtain ⟨m, h', hrun, -, hshows, -⟩ :=
    mapDiff_spec B A (Nat.lt_succ_of_le B.length_le) (Nat.lt_succ_of_le A.length_le)
  have hdiff : ar.diff b a = .ok (ar.maps.length, (ar.put h' m).2) := by
    unfold Arena.diff
    rw [hgeta, ok_bind, hgetb, ok_bind, hrun]
    rfl
  obtain ⟨l, -, O₁, hlen₁, hkeep⟩ := diff_spec O hdiff
  have hentries₁ := entries_of_shows O₁ (List.mem_cons_self ..) (get_put h') hshows
  have hswap : List.Perm ((ar.maps.length, l) :: (a, la) :: (b, lb) :: owned)
      ((b, lb) :: (a, la) :: (ar.maps.length, l) :: owned) :=
    ((List.Perm.swap (b, lb) (a, la) owned).cons _).trans
      ((List.Perm.swap ..).trans ((List.Perm.swap (a, la) _ owned).cons _))
  obtain ⟨ar₂, hfree₂, O₂, hheap₂, hlen₂⟩ := (O₁.perm hswap).mapFree
  obtain ⟨ar₃, hfree₃, O₃, hheap₃, hlen₃⟩ := O₂.mapFree
  have hentries₃ : ar₃.entries ar.maps.length = (ar.put h' m).2.entries ar.maps.length := by
    rw [O₃.entries_eq (List.mem_cons_self ..), O₁.entries_eq (List.mem_cons_self ..), hheap₃, hheap₂]
  have hentries := hentries₃.trans hentries₁
  refine ⟨l, ar₃, ?_, O₃, hentries, by omega, fun o ho c hc => ?_⟩
  · unfold newMap
    dsimp only
    rw [hdiff, ok_bind]
    dsimp only
    rw [hfree₂, ok_bind, hfree₃, ok_bind, hentries, ok_bind]
    rfl
  · rw [hheap₃, hheap₂, hkeep o (List.mem_cons_of_mem _ (List.mem_cons_of_mem _ ho)) c hc]

end Arena

section Handler
variable {ar : Arena} {owned : List (Addr × List Addr)} {addr : Nat}

theorem findLoop_spec {head : Option Addr} {l : List Addr} {fuel : Nat}
    (hl : (ar.heap.links head).Holds l) (huse : ∀ a ∈ l, ar.freed a = false)
    (hfuel : l.length < fuel) :
    findLoop ar addr fuel head =
      .ok ((l.map fun a => (ar.heap.mem a).toMapEntry).find? fun e => e.toRange.contains addr) := by
  induction l generalizing head fuel with
  | nil =>
    cases fuel with
    | zero => exact absurd hfuel (Nat.not_lt_zero _)
    | succ fuel =>
      obtain rfl : head = none := hl
      rfl
  | cons a l ih =>
    cases fuel with
    | zero => exact absurd hfuel (Nat.not_lt_zero _)
    | succ fuel =>
      obtain ⟨rfl, hrest⟩ := hl
      have hrest : (ar.heap.links (ar.heap.mem a).next).Holds l := hrest
      have hread : ¬ ar.freed a = true := by
        rw [huse a (List.mem_cons_self ..)]
        exact Bool.false_ne_true
      rw [findLoop, haltIf_neg hread, ok_bind, List.map_cons, List.find?_cons]
      by_cases hin : (ar.heap.mem a).toRange.contains addr
      · rw [if_pos hin, decide_eq_true hin]
        rfl
      · rw [if_neg hin, decide_eq_false hin,
          ih hrest (fun b hb => huse b (List.mem_cons_of_mem _ hb)) (Nat.lt_of_succ_lt_succ hfuel)]

theorem find?_ranges (es : List MapEntry) :
    (ranges es).find? (fun e => e.contains addr) =
      (es.find? fun e => e.toRange.contains addr).map MapEntry.toRange := by
  unfold ranges
  rw [List.find?_map]
  rfl

end Handler
end Subcontexts.Library
