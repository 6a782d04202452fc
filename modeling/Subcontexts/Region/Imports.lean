import Subcontexts.Lib.Holding
import Subcontexts.Region.Added

/-! `sc_import` and `sc_import_protNone` with every lock operation of the caller, and what they leave
behind when they return. -/

namespace Subcontexts.Region
open Holding

inductive Lock where
  | root
  | region (a : Addr)
  | process (a : Addr)
  | malloc
  | localList
  deriving DecidableEq, Repr

abbrev Code := Prog Halt World Lock

namespace Locked
variable {pg : PageSize} (fp : FirstPage pg)

def lockRoot : Code Unit := do
  let w ← fetch
  let w ← call w.lockRoot
  store w
  lock .blocked .exclusive .root

def unlockRoot : Code Unit := do
  let w ← fetch
  store w.unlock
  unlock .exclusive .root

def importBytes (answers : Answers) (addr len prot offset : Nat) : Code Int := do
  if !answers.lookup then return 3
  let w ← fetch
  if ¬ truncates answers w.sc.tmpfileSize then
    unlockRoot
    return 3
  let w := w.ftruncate w.sc.tmpfileSize
  call (w.touchRoot fp)
  store w
  if ¬ fileRange pg answers.buf 0 len offset then return 4
  let w ← call (w.copyIn pg addr len offset)
  store w
  if ¬ fileRange pg answers.replaced addr len offset then return 5
  let w := w.mapFixed addr len (.file prot offset)
  call (w.touchRoot fp)
  store w
  unlockRoot
  return 0

def scImport (answers : Answers) (fuel addr len prot : Nat) : Code Int := do
  call (check (addr % pg.bytes = 0))
  call (check (len % pg.bytes = 0))
  call (check (prot = protRead ∨ prot = protRead ||| protWrite ∨ prot = protRead ||| protExec))
  lockRoot
  let w ← fetch
  if w.sc.procCount ≠ 1 then
    unlockRoot
    return 1
  match w.sc.activeRegions with
  | none => throw .fault
  | some first =>
    lock .blocked .shared (.region first)
    let duplicate ← call (findDuplicate w.sc.mem addr len fuel (some first))
    unlock .shared (.region first)
    if duplicate then return 1
    let (reg, sc) ← call (scGetFreeRegion w.sc)
    match reg with
    | none =>
      store { w with sc := sc }
      unlockRoot
      return 2
    | some reg =>
      lock .blocked .exclusive (.region first)
      match sc.activeRegionsTail with
      | none => throw .fault
      | some tail =>
        let sc := (sc.append tail reg).setNext reg none
        unlock .exclusive (.region first)
        let offset := sc.tmpfileSize
        let sc := sc.setRegion reg
          { sc.mem reg with toExtent := ⟨addr, len, prot, offset⟩, permaPin := false }
        let sc := { sc with tmpfileSize := u64 (sc.tmpfileSize + len) }
        store { w with sc := sc }
        importBytes fp answers addr len prot offset

def scImportProtNone (answers : Answers) (addr len : Nat) : Code Int := do
  call (check (addr % pg.bytes = 0))
  call (check (len % pg.bytes = 0))
  lockRoot
  let w ← fetch
  if w.sc.procCount ≠ 1 then
    unlockRoot
    return 1
  let (reg, sc) ← call (scGetFreeRegion w.sc)
  match reg with
  | none =>
    store { w with sc := sc }
    unlockRoot
    return 2
  | some reg =>
    match sc.activeRegions with
    | none => throw .fault
    | some first =>
      lock .blocked .exclusive (.region first)
      let sc := (sc.setNext reg (sc.mem first).next).setNext first (some reg)
      unlock .exclusive (.region first)
      let sc := sc.setRegion reg
        { sc.mem reg with toExtent := ⟨addr, len, protNone, noOffset⟩, permaPin := false }
      let w := { w with sc := sc }
      store w
      if ¬ range answers.replaced addr len then return 5
      let w := w.mapFixed addr len .noAccess
      call (w.touchRoot fp)
      store w
      unlockRoot
      return 0

end Locked

/-- The caller holds what the root struct says that is held: the root lock, or nothing. -/
def Mirrors (t : Thread World Lock) : Prop :=
  t.held = if t.state.sc.lock then [(.root, .exclusive)] else []

section Forget
variable {pg : PageSize} {fp : FirstPage pg} {answers : Answers} {w : World}
  {t u : Thread World Lock} {addr len prot offset fuel : Nat} {r : Int}

theorem lockRoot_bind_eq_ok {α : Type} {f : Unit → Code α} {a : α}
    (h : (Locked.lockRoot >>= f).exec ⟨w, []⟩ = (.ok a, u)) :
    ∃ w', w.lockRoot = .ok w' ∧ (f ()).exec ⟨w', [(.root, .exclusive)]⟩ = (.ok a, u) := by
  obtain ⟨_, t, hlock, h⟩ := exec_bind_eq_ok.mp h
  unfold Locked.lockRoot at hlock
  rw [exec_fetch_bind] at hlock
  obtain ⟨w', hw', hlock⟩ := exec_call_bind_eq_ok.mp hlock
  rw [exec_store_bind] at hlock
  obtain ⟨-, rfl⟩ := exec_lock_eq_ok.mp hlock
  exact ⟨w', hw', h⟩

theorem copyIn_sc {w' : World} (h : w.copyIn pg addr len offset = .ok w') : w'.sc = w.sc := by
  unfold World.copyIn at h
  split at h
  · obtain rfl := Except.ok.inj h
    rfl
  · cases h

theorem importBytes_forget (hlock : w.sc.lock = true)
    (h : (Locked.importBytes fp answers addr len prot offset).exec ⟨w, [(.root, .exclusive)]⟩ =
      (.ok r, u)) :
    importBytes fp answers w addr len prot offset = .ok (r, u.state) ∧ Mirrors u := by
  have hheld : ∀ w' : World, w'.sc = w.sc → Mirrors ⟨w', [(.root, .exclusive)]⟩ := by
    intro w' hsc
    show _ = if w'.sc.lock then _ else _
    rw [hsc, hlock]
    rfl
  unfold Locked.importBytes at h
  unfold importBytes
  split at h
  · rename_i hlookup
    obtain ⟨rfl, rfl⟩ := exec_pure_eq_ok.mp h
    rw [if_pos hlookup]
    exact ⟨rfl, hheld w rfl⟩
  rename_i hlookup
  rw [if_neg hlookup]
  rw [exec_fetch_bind] at h
  dsimp only at h
  split at h
  · rename_i htruncates
    obtain ⟨rfl, rfl⟩ := exec_pure_eq_ok.mp h
    rw [if_pos htruncates]
    exact ⟨rfl, rfl⟩
  rename_i htruncates
  rw [if_neg htruncates]
  obtain ⟨_, hroot, h⟩ := exec_call_bind_eq_ok.mp h
  rw [exec_store_bind] at h
  dsimp only
  rw [hroot, ok_bind]
  split at h
  · rename_i hbuf
    obtain ⟨rfl, rfl⟩ := exec_pure_eq_ok.mp h
    rw [if_pos hbuf]
    exact ⟨rfl, hheld _ rfl⟩
  rename_i hbuf
  rw [if_neg hbuf]
  obtain ⟨w₁, hcopy, h⟩ := exec_call_bind_eq_ok.mp h
  rw [hcopy, ok_bind]
  rw [exec_store_bind] at h
  split at h
  · rename_i hreplaced
    obtain ⟨rfl, rfl⟩ := exec_pure_eq_ok.mp h
    rw [if_pos hreplaced]
    have hsc := copyIn_sc hcopy
    exact ⟨rfl, hheld _ hsc⟩
  rename_i hreplaced
  rw [if_neg hreplaced]
  obtain ⟨_, hroot', h⟩ := exec_call_bind_eq_ok.mp h
  rw [hroot', ok_bind]
  obtain ⟨rfl, rfl⟩ := exec_pure_eq_ok.mp h
  exact ⟨rfl, rfl⟩

theorem scGetFreeRegion_lock {s t' : Sc} {region : Option Addr}
    (h : scGetFreeRegion s = .ok (region, t')) : t'.lock = true := by
  unfold scGetFreeRegion at h
  obtain ⟨_, hlock, h⟩ := bind_eq_ok.mp h
  split at h
  · cases h
  split at h
  · cases h
  obtain ⟨-, rfl⟩ := Prod.mk.inj (Except.ok.inj h)
  exact check_eq_ok.mp hlock

/-- Without its locks it is `sc_import` as the other results know it. -/
theorem scImport_forget
    (h : (Locked.scImport fp answers fuel addr len prot).exec ⟨w, []⟩ = (.ok r, u)) :
    scImport fp answers fuel w addr len prot = .ok (r, u.state) ∧ Mirrors u := by
  unfold Locked.scImport at h
  unfold scImport
  obtain ⟨_, haddr, h⟩ := exec_call_bind_eq_ok.mp h
  obtain ⟨_, hlen, h⟩ := exec_call_bind_eq_ok.mp h
  obtain ⟨_, hprot, h⟩ := exec_call_bind_eq_ok.mp h
  rw [haddr, ok_bind, hlen, ok_bind, hprot, ok_bind]
  obtain ⟨w', hw', h⟩ := lockRoot_bind_eq_ok h
  rw [hw', ok_bind]
  rw [exec_fetch_bind] at h
  have hlock : w'.sc.lock = true := by rw [(lockRoot_spec hw').2]
  dsimp only at h
  split at h
  · rename_i hcount
    rw [if_pos hcount]
    obtain ⟨rfl, rfl⟩ := exec_pure_eq_ok.mp h
    exact ⟨rfl, rfl⟩
  rename_i hcount
  rw [if_neg hcount]
  split at h
  · cases h
  rename_i first hfirst
  obtain ⟨-, h⟩ := exec_lock_bind_eq_ok.mp h
  obtain ⟨duplicate, hdup, h⟩ := exec_call_bind_eq_ok.mp h
  rw [exec_unlock_bind] at h
  rw [haltIf_neg (by rw [hfirst]; exact Option.some_ne_none _), ok_bind, hfirst, hdup, ok_bind]
  simp only [List.erase_cons_head] at h
  split at h
  · rename_i hduplicate
    rw [if_pos hduplicate]
    obtain ⟨rfl, rfl⟩ := exec_pure_eq_ok.mp h
    exact ⟨rfl, (if_pos hlock).symm⟩
  rename_i hduplicate
  rw [if_neg hduplicate]
  obtain ⟨⟨reg, sc⟩, hfree, h⟩ := exec_call_bind_eq_ok.mp h
  rw [hfree, ok_bind]
  cases reg with
  | none => exact absurd hfree scGetFreeRegion_ne_none
  | some reg =>
    dsimp only at h ⊢
    obtain ⟨-, h⟩ := exec_lock_bind_eq_ok.mp h
    rcases htail : sc.activeRegionsTail with _ | tail
    · rw [htail] at h
      cases h
    rw [htail] at h
    rw [exec_unlock_bind] at h
    simp only [List.erase_cons_head] at h
    rw [exec_store_bind] at h
    have hlocked : sc.lock = true := scGetFreeRegion_lock hfree
    apply importBytes_forget _ h
    exact hlocked

/-- Without its locks it is `sc_import_protNone` as the other results know it. -/
theorem scImportProtNone_forget
    (h : (Locked.scImportProtNone fp answers addr len).exec ⟨w, []⟩ = (.ok r, u)) :
    scImportProtNone fp answers w addr len = .ok (r, u.state) ∧ Mirrors u := by
  unfold Locked.scImportProtNone at h
  unfold scImportProtNone
  obtain ⟨_, haddr, h⟩ := exec_call_bind_eq_ok.mp h
  obtain ⟨_, hlen, h⟩ := exec_call_bind_eq_ok.mp h
  rw [haddr, ok_bind, hlen, ok_bind]
  obtain ⟨w', hw', h⟩ := lockRoot_bind_eq_ok h
  rw [hw', ok_bind]
  rw [exec_fetch_bind] at h
  dsimp only at h
  split at h
  · rename_i hcount
    rw [if_pos hcount]
    obtain ⟨rfl, rfl⟩ := exec_pure_eq_ok.mp h
    exact ⟨rfl, rfl⟩
  rename_i hcount
  rw [if_neg hcount]
  obtain ⟨⟨reg, sc⟩, hfree, h⟩ := exec_call_bind_eq_ok.mp h
  rw [hfree, ok_bind]
  cases reg with
  | none => exact absurd hfree scGetFreeRegion_ne_none
  | some reg =>
    dsimp only at h ⊢
    rcases hfirst : sc.activeRegions with _ | first
    · rw [hfirst] at h
      cases h
    rw [hfirst] at h
    obtain ⟨-, h⟩ := exec_lock_bind_eq_ok.mp h
    rw [exec_unlock_bind] at h
    simp only [List.erase_cons_head] at h
    rw [exec_store_bind] at h
    dsimp only
    split at h
    · rename_i hreplaced
      rw [if_pos hreplaced]
      obtain ⟨rfl, rfl⟩ := exec_pure_eq_ok.mp h
      exact ⟨rfl, (if_pos (scGetFreeRegion_lock hfree)).symm⟩
    rename_i hreplaced
    rw [if_neg hreplaced]
    obtain ⟨_, hroot, h⟩ := exec_call_bind_eq_ok.mp h
    rw [hroot, ok_bind]
    obtain ⟨rfl, rfl⟩ := exec_pure_eq_ok.mp h
    exact ⟨rfl, rfl⟩

end Forget

section Clean
variable {pg : PageSize} {fp : FirstPage pg} {answers : Answers} {w w' : World} {l f : List Addr}
  {addr len prot offset fuel : Nat} {r : Int}

/-- What a failed import is to leave as it was. -/
def Same (s t : Sc) : Prop :=
  t.activeRegions = s.activeRegions ∧ t.activeRegionsTail = s.activeRegionsTail ∧
    t.freeStructs = s.freeStructs ∧ t.tmpfileSize = s.tmpfileSize

theorem importBytes_ends (hlock : w.sc.lock = true)
    (h : importBytes fp answers w addr len prot offset = .ok (r, w')) :
    (r = 0 ∧ w'.sc.lock = false ∧ answers.lookup = true ∧ truncates answers w.sc.tmpfileSize ∧
        fileRange pg answers.buf 0 len offset ∧ fileRange pg answers.replaced addr len offset) ∨
      (r ≠ 0 ∧ (w'.sc.lock = true ∨ w'.sc = w.sc.unlock) ∧ ¬ (answers.lookup = true ∧
        truncates answers w.sc.tmpfileSize ∧ fileRange pg answers.buf 0 len offset ∧
        fileRange pg answers.replaced addr len offset)) := by
  unfold importBytes at h
  split at h
  · rename_i hlookup
    obtain ⟨rfl, rfl⟩ := Prod.mk.inj (Except.ok.inj h)
    refine .inr ⟨by decide, .inl hlock, fun hall => ?_⟩
    rw [hall.1] at hlookup
    cases hlookup
  rename_i hlookup
  have hlookup : answers.lookup = true := by simpa using hlookup
  split at h
  · rename_i htruncates
    obtain ⟨rfl, rfl⟩ := Prod.mk.inj (Except.ok.inj h)
    exact .inr ⟨by decide, .inr rfl, fun hall => htruncates hall.2.1⟩
  rename_i htruncates
  dsimp only at h
  obtain ⟨_, hroot, h⟩ := bind_eq_ok.mp h
  split at h
  · rename_i hbuf
    obtain ⟨rfl, rfl⟩ := Prod.mk.inj (Except.ok.inj h)
    exact .inr ⟨by decide, .inl hlock, fun hall => hbuf hall.2.2.1⟩
  rename_i hbuf
  obtain ⟨u, hu, h⟩ := bind_eq_ok.mp h
  have husc := copyIn_sc hu
  split at h
  · rename_i hreplaced
    obtain ⟨rfl, rfl⟩ := Prod.mk.inj (Except.ok.inj h)
    refine .inr ⟨by decide, .inl ?_, fun hall => hreplaced hall.2.2.2⟩
    rw [husc]
    exact hlock
  rename_i hreplaced
  obtain ⟨_, hroot', h⟩ := bind_eq_ok.mp h
  obtain ⟨rfl, rfl⟩ := Prod.mk.inj (Except.ok.inj h)
  exact .inl ⟨rfl, rfl, hlookup, Decidable.of_not_not htruncates, Decidable.of_not_not hbuf,
    Decidable.of_not_not hreplaced⟩

/-- What the caller, `ftruncate` and the two `mmap` calls have to grant `sc_import`. -/
structure ImportGranted (pg : PageSize) (answers : Answers) (s : Sc) (l : List Addr)
    (addr len : Nat) : Prop where
  apart : ∀ a ∈ l, ¬ overlaps (s.mem a).toExtent addr len
  lookup : answers.lookup = true
  truncates : truncates answers (u64 (s.tmpfileSize + len))
  buf : fileRange pg answers.buf 0 len s.tmpfileSize
  replaced : fileRange pg answers.replaced addr len s.tmpfileSize

theorem findDuplicate_true {mem : Addr → ScRegion} {cur : Option Addr}
    (hl : Seg (fun a => (mem a).next) cur l none)
    (h : findDuplicate mem addr len fuel cur = .ok true) :
    ∃ a ∈ l, overlaps (mem a).toExtent addr len := by
  induction l generalizing cur fuel with
  | nil =>
    obtain rfl := hl
    cases fuel with
    | zero => cases h
    | succ fuel => cases h
  | cons b rest ih =>
    obtain ⟨rfl, hrest⟩ := hl
    cases fuel with
    | zero => cases h
    | succ fuel =>
      rw [findDuplicate] at h
      split at h
      · rename_i hb
        exact ⟨b, List.mem_cons_self .., hb⟩
      · obtain ⟨a, ha, hover⟩ := ih hrest h
        exact ⟨a, List.mem_cons_of_mem _ ha, hover⟩

theorem scImport_clean_iff (L : Lists fp w.sc l f)
    (h : scImport fp answers fuel w addr len prot = .ok (r, w')) :
    (w'.sc.lock = false ∧ (r ≠ 0 → Same w.sc w'.sc)) ↔
      w.sc.procCount ≠ 1 ∨ ImportGranted pg answers w.sc l addr len := by
  obtain ⟨-, -, -, ⟨hcount, rfl, rfl⟩ | ⟨hcount, duplicate, hdup, hends⟩⟩ := scImport_cases h
  · exact ⟨fun _ => .inl hcount, fun _ => ⟨rfl, fun _ => ⟨rfl, rfl, rfl, rfl⟩⟩⟩
  rw [or_iff_right (not_not_intro hcount)]
  rcases hends with ⟨rfl, rfl, rfl⟩ | ⟨rfl, reg, sc, tail, hfree, htail, h⟩
  · -- the caller is told of the overlap, and keeps the root lock
    obtain ⟨a, ha, hover⟩ := findDuplicate_true L.active hdup
    refine ⟨fun hclean => ?_, fun hgranted => absurd hover (hgranted.apart a ha)⟩
    cases hclean.1
  have hapart := findDuplicate_false L.active hdup
  have hlocked := scGetFreeRegion_lock hfree
  have L₀ : Lists fp { w.sc with lock := true } l f := L.congr rfl rfl rfl rfl fun _ _ => rfl
  obtain ⟨reg', f', hreg, rfl, T⟩ := L₀.getFree hfree
  obtain rfl := Option.some.inj hreg
  have hsize : sc.tmpfileSize = w.sc.tmpfileSize := T.tmpfileSize
  rcases importBytes_ends hlocked h with ⟨rfl, hunlocked, hlookup, htruncates, hbuf, hreplaced⟩ |
    ⟨hr, hstate, hrefused⟩
  · have htruncates : truncates answers (u64 (sc.tmpfileSize + len)) := htruncates
    rw [hsize] at htruncates
    have hbuf : fileRange pg answers.buf 0 len sc.tmpfileSize := hbuf
    rw [hsize] at hbuf
    have hreplaced : fileRange pg answers.replaced addr len sc.tmpfileSize := hreplaced
    rw [hsize] at hreplaced
    exact ⟨fun _ => ⟨hapart, hlookup, htruncates, hbuf, hreplaced⟩,
      fun _ => ⟨hunlocked, fun h => absurd rfl h⟩⟩
  · constructor
    · rintro ⟨hunlocked, hsame⟩
      rcases hstate with hheld | hsc
      · cases hheld.symm.trans hunlocked
      · -- after a failed `ftruncate` the new struct is the last of the active list
        have htail' : some reg = w.sc.activeRegionsTail :=
          (congrArg Sc.activeRegionsTail hsc).symm.trans (hsame hr).2.1
        rw [L.tail] at htail'
        exact absurd (List.mem_of_getLast? htail'.symm) T.off.1
    · intro hgranted
      refine absurd ⟨hgranted.lookup, ?_, ?_, ?_⟩ hrefused
      · show truncates answers (u64 (sc.tmpfileSize + len))
        rw [hsize]
        exact hgranted.truncates
      · show fileRange pg answers.buf 0 len sc.tmpfileSize
        rw [hsize]
        exact hgranted.buf
      · show fileRange pg answers.replaced addr len sc.tmpfileSize
        rw [hsize]
        exact hgranted.replaced

theorem scImportProtNone_clean_iff (h : scImportProtNone fp answers w addr len = .ok (r, w')) :
    (w'.sc.lock = false ∧ (r ≠ 0 → Same w.sc w'.sc)) ↔
      w.sc.procCount ≠ 1 ∨ range answers.replaced addr len := by
  obtain ⟨-, -, ⟨hcount, rfl, rfl⟩ | ⟨hcount, reg, sc, first, v, hfree, -, rfl, hends⟩⟩ :=
    scImportProtNone_cases h
  · exact ⟨fun _ => .inl hcount, fun _ => ⟨rfl, fun _ => ⟨rfl, rfl, rfl, rfl⟩⟩⟩
  rw [or_iff_right (not_not_intro hcount)]
  rcases hends with ⟨hrefused, rfl, rfl⟩ | ⟨hgranted, rfl, -, rfl⟩
  · refine ⟨fun hclean => ?_, fun hgranted => absurd hgranted hrefused⟩
    cases (scGetFreeRegion_lock hfree).symm.trans hclean.1
  · exact ⟨fun _ => hgranted, fun _ => ⟨rfl, fun h => absurd rfl h⟩⟩

end Clean

section Main
variable {pg : PageSize} {fp : FirstPage pg} {answers : Answers} {r : Root}
  {t : Thread World Lock} {rc : Int}

/-- A call of `sc_import`, where `fuel` bounds its search, or of `sc_import_protNone`. -/
inductive Import where
  | file (fuel addr len prot : Nat)
  | protNone (addr len : Nat)

def Import.run (fp : FirstPage pg) (answers : Answers) : Import → Code Int
  | .file fuel addr len prot => Locked.scImport fp answers fuel addr len prot
  | .protNone addr len => Locked.scImportProtNone fp answers addr len

def Import.Granted (pg : PageSize) (answers : Answers) (s : Sc) : Import → Prop
  | .file _ addr len _ =>
    ∃ l, (s.links s.activeRegions).Holds l ∧ ImportGranted pg answers s l addr len
  | .protNone addr len => range answers.replaced addr len

theorem Mirrors.held_iff (h : Mirrors t) : t.held = [] ↔ t.state.sc.lock = false := by
  unfold Mirrors at h
  rw [h]
  cases t.state.sc.lock with
  | false => exact iff_of_true rfl rfl
  | true => exact iff_of_false (List.cons_ne_nil _ _) (Bool.true_eq_false ▸ id)

theorem import_clean_iff {i : Import}
    (h : Trans.Reach (Root.init fp) (RootEvent.step fp) r)
    (hrun : (i.run fp answers).exec ⟨r.world, []⟩ = (.ok rc, t)) :
    (t.held = [] ∧ (rc ≠ 0 → Same r.world.sc t.state.sc)) ↔
      r.world.sc.procCount ≠ 1 ∨ i.Granted pg answers r.world.sc := by
  obtain ⟨l, f, v, K⟩ := reach_homed_any h
  cases i with
  | file fuel addr len prot =>
    obtain ⟨hcall, hheld⟩ := scImport_forget hrun
    rw [hheld.held_iff, scImport_clean_iff K.table.lists hcall]
    apply or_congr_right
    constructor
    · intro hgranted
      exact ⟨l, K.table.lists.active, hgranted⟩
    · rintro ⟨l', hl', hgranted⟩
      rwa [hl'.unique K.table.lists.active] at hgranted
  | protNone addr len =>
    obtain ⟨hcall, hheld⟩ := scImportProtNone_forget hrun
    rw [hheld.held_iff, scImportProtNone_clean_iff hcall]
    rfl

end Main

section Run

theorem import_clean_hidden : ∃ w t, Started firstPage4096 w ∧
    ((Import.protNone 0x300000 0x1000).run firstPage4096 granted).exec ⟨w, []⟩ = (.ok 0, t) ∧
      t.held = [] := by
  obtain ⟨w, hinit, t, hrun⟩ : ∃ w, scInit firstPage4096 initAnswers 10 emptyWorld = .ok (some w) ∧
      ∃ t, ((Import.protNone 0x300000 0x1000).run firstPage4096 granted).exec ⟨w, []⟩ = (.ok 0, t) :=
    ⟨_, rfl, _, rfl⟩
  have hstarted : Started firstPage4096 w := ⟨initAnswers, 10, emptyWorld, initAnswers_promise, hinit⟩
  have h : Trans.Reach (Root.init firstPage4096) (RootEvent.step firstPage4096) ⟨w, none, []⟩ :=
    .init ⟨hstarted, rfl, rfl⟩
  have hgranted : (Import.protNone 0x300000 0x1000).Granted page4096 granted w.sc := by
    show range true 0x300000 0x1000
    decide
  exact ⟨w, t, hstarted, hrun, ((import_clean_iff h hrun).mpr (.inr hgranted)).1⟩

/-- The first page is part of the subcontext already. -/
theorem import_keeps_root_lock : ∃ r t,
    Trans.Reach (Root.init firstPage4096) (RootEvent.step firstPage4096) r ∧
      ((Import.file 10 0x10000 0x1000 1).run firstPage4096 granted).exec ⟨r.world, []⟩ = (.ok 1, t) ∧
      t.held = [(.root, .exclusive)] := by
  obtain ⟨w, hinit, t, hrun, hheld⟩ :
      ∃ w, scInit firstPage4096 initAnswers 10 emptyWorld = .ok (some w) ∧
        ∃ t, ((Import.file 10 0x10000 0x1000 1).run firstPage4096 granted).exec ⟨w, []⟩ = (.ok 1, t) ∧
          t.held = [(.root, .exclusive)] := ⟨_, rfl, _, rfl, rfl⟩
  exact ⟨⟨w, none, []⟩, t,
    .init ⟨⟨initAnswers, 10, emptyWorld, initAnswers_promise, hinit⟩, rfl, rfl⟩, hrun, hheld⟩

end Run
end Subcontexts.Region
