import Subcontexts.Member.NextJoiner

/-! `sc_join` with its locks and `sc_join` as the regions see it: the two walks of the one get through
where those of the other do. -/

namespace Subcontexts.Member
open Region Holding

section Walk
variable {pg : PageSize} {active : Bool} {granted : Addr → Bool} {fuel : Nat} {p : Process}
  {cur : Addr} {l : List Addr} {held : List (Lock × Mode)} {u : Thread Process Lock} {s : Sc}

theorem walks_of_joinLoop (hl : Seg (fun a => (p.world.sc.mem a).next) (some cur) l none)
    (h : (joinLoop pg active granted fuel cur).exec ⟨p, held⟩ = (.ok true, u)) :
    Walks pg active granted fuel p.world.sc l := by
  induction fuel generalizing cur l held with
  | zero => cases h
  | succ fuel ih =>
    cases l with
    | nil => cases hl
    | cons a l =>
      obtain ⟨hcur, hl⟩ := hl
      obtain rfl := Option.some.inj hcur
      dsimp only at hl
      rw [joinLoop, exec_fetch_bind, exec_call_bind_eq_ok] at h
      obtain ⟨_, hcheck, h⟩ := h
      split at h
      · cases h
      rename_i hgo
      have hgranted : granted cur = true := by simpa using hgo
      split at h
      · rename_i hnext
        have hnil : l = [] := by
          rw [hnext] at hl
          cases l with
          | nil => rfl
          | cons b l => cases hl.1
        subst hnil
        exact ⟨Nat.succ_le_succ (Nat.zero_le _), List.forall_mem_singleton.mpr ⟨hgranted, hcheck⟩⟩
      · rename_i next hnext
        rw [exec_lock_bind_eq_ok] at h
        obtain ⟨-, h⟩ := h
        rw [exec_unlock_bind] at h
        rw [hnext] at hl
        obtain ⟨hfuel, hgood⟩ := ih hl h
        exact ⟨Nat.succ_le_succ hfuel, List.forall_mem_cons.mpr ⟨⟨hgranted, hcheck⟩, hgood⟩⟩

theorem joinLoop_state {r : Except Halt Bool} {q : Process} {held' : List (Lock × Mode)}
    (h : (joinLoop pg active granted fuel cur).exec ⟨p, held⟩ = (r, ⟨q, held'⟩)) : q = p := by
  have hreads := @joinLoop_reads pg active granted fuel cur ⟨p, held⟩
  rwa [h] at hreads

theorem joinList_of_walks {cur : Option Addr} (grants : Addr → Bool) (space : Space)
    (hl : Seg (fun a => (s.mem a).next) cur l none) (h : Walks pg active granted fuel s l) :
    ∃ map, joinList pg s active grants (fuel + 1) cur space = .ok map := by
  induction l generalizing fuel cur space with
  | nil =>
    obtain rfl := hl
    exact ⟨_, rfl⟩
  | cons a l ih =>
    obtain ⟨rfl, hl⟩ := hl
    obtain ⟨hfuel, hgood⟩ := h
    obtain ⟨-, hcheck⟩ := hgood a (List.mem_cons_self ..)
    obtain ⟨map, hmap⟩ : ∃ map,
        joinRegion pg s.tmpfileSize active (s.mem a).toExtent (grants a) space = .ok map := by
      unfold checkRegion at hcheck
      dsimp only at hcheck
      unfold joinRegion
      split at hcheck
      · rename_i hfile
        obtain ⟨_, hend, haligned⟩ := bind_eq_ok.mp hcheck
        rw [if_pos hfile, hend, haligned, ok_bind, ok_bind]
        exact ⟨_, rfl⟩
      · rename_i hfile
        rw [if_neg hfile, hcheck, ok_bind]
        exact ⟨_, rfl⟩
    cases fuel with
    | zero => exact absurd hfuel (Nat.not_succ_le_zero _)
    | succ fuel =>
      rw [joinList, hmap, ok_bind]
      cases map with
      | none => exact ⟨none, rfl⟩
      | some space' =>
        exact ih space' hl
          ⟨Nat.le_of_succ_le_succ hfuel, fun b hb => hgood b (List.mem_cons_of_mem _ hb)⟩

theorem walks_of_joinList {space space' : Space} {grants : Addr → Bool} {cur : Option Addr}
    (hl : Seg (fun a => (s.mem a).next) cur l none)
    (h : joinList pg s active grants fuel cur space = .ok (some space')) :
    Walks pg active (fun _ => true) fuel s l := by
  induction l generalizing fuel cur space with
  | nil => exact ⟨Nat.zero_le _, fun _ ha => by cases ha⟩
  | cons a l ih =>
    obtain ⟨rfl, hl⟩ := hl
    cases fuel with
    | zero => cases h
    | succ fuel =>
      rw [joinList] at h
      obtain ⟨map, hmap, h⟩ := bind_eq_ok.mp h
      have hcheck : checkRegion pg s active a = .ok () := by
        unfold joinRegion at hmap
        unfold checkRegion
        dsimp only
        split at hmap
        · rename_i hfile
          obtain ⟨_, hend, hmap⟩ := bind_eq_ok.mp hmap
          obtain ⟨_, haligned, -⟩ := bind_eq_ok.mp hmap
          rw [if_pos hfile, hend, ok_bind, haligned]
        · rename_i hfile
          obtain ⟨_, hoff, -⟩ := bind_eq_ok.mp hmap
          rw [if_neg hfile, hoff]
      cases map with
      | none => cases h
      | some space₁ =>
        obtain ⟨hfuel, hgood⟩ := ih hl h
        exact ⟨Nat.succ_le_succ hfuel, List.forall_mem_cons.mpr ⟨⟨rfl, hcheck⟩, hgood⟩⟩

end Walk

section Join
variable {pg : PageSize} {fp : FirstPage pg} {answers : JoinAnswers} {fuel : Nat} {p : Process}
  {l v : List Addr}

structure Listed (s : Sc) (l v : List Addr) : Prop where
  active : (s.links s.activeRegions).Holds l
  reserved : (s.links s.reservedRegions).Holds v

theorem mappable_of_mapRegions {granted : Addr → Bool} {held : List (Lock × Mode)}
    {u : Thread Process Lock} (L : Listed p.world.sc l v)
    (h : (mapRegions pg granted fuel).exec ⟨p, held⟩ = (.ok true, u)) :
    Mappable pg granted fuel p.world.sc := by
  unfold mapRegions at h
  rw [exec_fetch_bind] at h
  split at h
  · cases h
  rename_i first hfirst
  rw [exec_lock_bind_eq_ok] at h
  obtain ⟨-, h⟩ := h
  split at h
  · rename_i second reserved hsecond hreserved
    rw [exec_lock_bind_eq_ok] at h
    obtain ⟨-, h⟩ := h
    rw [exec_lock_bind_eq_ok] at h
    obtain ⟨-, h⟩ := h
    rw [exec_unlock_bind, exec_unlock_bind, exec_bind_eq_ok] at h
    obtain ⟨mapped, ⟨q, held'⟩, hwalk, h⟩ := h
    dsimp only at hfirst hsecond hreserved hwalk
    split at h
    · rename_i hmapped
      subst hmapped
      obtain rfl := joinLoop_state hwalk
      have hl := L.active
      have hv := L.reserved
      unfold Linked.Holds Sc.links at hl hv
      dsimp only at hl hv
      rw [hfirst] at hl
      rw [hreserved] at hv
      cases l with
      | nil => cases hl
      | cons a l =>
        obtain ⟨ha, hl⟩ := hl
        obtain rfl := Option.some.inj ha
        dsimp only at hl
        rw [hsecond] at hl
        cases l with
        | nil => cases hl
        | cons b l =>
          cases v with
          | nil => cases hv
          | cons c v =>
            obtain rfl := Option.some.inj hv.1
            obtain rfl := Option.some.inj hl.1
            exact ⟨⟨first, second, l, L.active, walks_of_joinLoop hl hwalk⟩,
              ⟨reserved, v, L.reserved, walks_of_joinLoop hv h⟩⟩
    · cases h
  · cases h

theorem mappable_of_scJoin {answers : Region.JoinAnswers} {s : Sc} {space space' : Space}
    (L : Listed s l v) (h : Region.scJoin pg answers fuel s space = .ok (some space')) :
    Mappable pg (fun _ => true) fuel s := by
  unfold Region.scJoin at h
  obtain ⟨-, -, h⟩ := bind_eq_ok.mp h
  split at h
  · cases h
  rename_i first hfirst
  dsimp only at h
  split at h
  · cases h
  split at h
  · cases h
  obtain ⟨_, hsecond, h⟩ := bind_eq_ok.mp h
  obtain ⟨_, hreserved, h⟩ := bind_eq_ok.mp h
  obtain ⟨map, hwalk, h⟩ := bind_eq_ok.mp h
  cases map with
  | none => cases h
  | some space₁ =>
    have hl := L.active
    have hv := L.reserved
    cases l with
    | nil => exact absurd (hl.symm.trans hfirst) fun h => by cases h
    | cons a l =>
      obtain ⟨ha, hl⟩ := hl
      obtain rfl : first = a := Option.some.inj (hfirst.symm.trans ha)
      have hwalks := walks_of_joinList hl hwalk
      cases l with
      | nil => exact (haltIf_eq_ok.mp hsecond hl).elim
      | cons b l =>
        cases v with
        | nil => exact (haltIf_eq_ok.mp hreserved hv).elim
        | cons c v =>
          exact ⟨⟨first, b, l, L.active, hwalks⟩, ⟨c, v, L.reserved, walks_of_joinList hv h⟩⟩

theorem scJoin_of_mappable {answers : Region.JoinAnswers} {granted : Addr → Bool} {s : Sc}
    (space : Space) (hlock : s.lock = false) (h : Mappable pg granted fuel s) :
    ∃ map, Region.scJoin pg answers (fuel + 1) s space = .ok map := by
  obtain ⟨first, second, l, ⟨hfirst, hsecond, hl⟩, hwalks⟩ := h.active
  obtain ⟨reserved, v, hv, hwalks'⟩ := h.reserved
  have hactive : s.activeRegions = some first := hfirst
  have hnext : (s.mem first).next = some second := hsecond
  have hreserved : s.reservedRegions = some reserved := hv.1
  unfold Region.scJoin
  rw [haltIf_neg (by rw [hlock]; decide), ok_bind, hactive]
  dsimp only
  split
  · exact ⟨none, rfl⟩
  rename_i space₀ hroot
  split
  · exact ⟨none, rfl⟩
  have hseg : Seg (fun a => (s.mem a).next) (some second) (second :: l) none := ⟨rfl, hl⟩
  obtain ⟨map, hmap⟩ := joinList_of_walks answers.region space₀ hseg hwalks
  rw [haltIf_neg (by rw [hnext]; exact Option.some_ne_none _), ok_bind,
    haltIf_neg (by rw [hreserved]; exact Option.some_ne_none _), ok_bind, hnext, hmap, ok_bind]
  cases map with
  | none => exact ⟨none, rfl⟩
  | some space₁ => exact joinList_of_walks answers.region space₁ hv hwalks'

/-- Where a process gets through `sc_join`, with every lock and every way out, the join of the regions
fails no assertion; it gives up only where the kernel puts a map elsewhere. -/
theorem scJoin_forget {t : Thread Process Lock} {a : Addr} (L : Listed p.world.sc l v)
    (hlock : p.world.sc.lock = false)
    (h : (scJoin fp answers fuel).exec ⟨p, []⟩ = (.ok (some a), t)) (answers' : Region.JoinAnswers)
    (space : Space) : ∃ map, Region.scJoin pg answers' (fuel + 1) p.world.sc space = .ok map := by
  by_cases hearly : answers.malloc = false ∨ answers.root = none ∨ p.magic = false
  · cases (scJoin_early hearly).symm.trans h
  obtain ⟨hmalloc, hroot, hmagic⟩ : ¬ answers.malloc = false ∧ ¬ answers.root = none ∧
      ¬ p.magic = false := by
    rwa [not_or, not_or] at hearly
  obtain ⟨root, hroot⟩ := Option.ne_none_iff_exists'.mp hroot
  rw [scJoin_exec (Bool.of_not_eq_false hmalloc) hroot (Bool.of_not_eq_false hmagic)] at h
  split at h
  · cases h
  split at h
  · cases h
  split at h
  · cases h
  · unfold joinRest at h
    obtain ⟨mapped, u, hmap, h⟩ := exec_bind_eq_ok.mp h
    cases mapped with
    | false => cases h
    | true =>
      have hmappable := mappable_of_mapRegions (p := { p with preallocProc := none }) L hmap
      exact scJoin_of_mappable space hlock hmappable

/-- What the join of the regions maps, a process that runs `sc_join` gets through. -/
theorem mapRegions_of_scJoin {answers' : Region.JoinAnswers} {space space' : Space}
    {granted : Addr → Bool} (L : Listed p.world.sc l v) (hgranted : ∀ a, granted a = true)
    (h : Region.scJoin pg answers' fuel p.world.sc space = .ok (some space')) :
    (mapRegions pg granted fuel).exec ⟨p, [(.root, .shared)]⟩ = (.ok true, ⟨p, []⟩) := by
  obtain rfl : granted = fun _ => true := funext hgranted
  exact mapRegions_ok (mappable_of_scJoin L h)

end Join
end Subcontexts.Member
