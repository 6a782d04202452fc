import Subcontexts.Member.Serve

/-! The page-fault handler in the two threads of a process, its main thread and its background
thread: the recursion guard `prev_vaddr` is one variable for both. A step is an access to the guard,
an operation on a lock, or the `mmap`. -/

namespace Subcontexts.Member
open Region Holding

inductive Tid where
  | main
  | background
  deriving DecidableEq, Repr

/-- Where a thread is in `sc_signal_handler_SEGV`; `idle` is outside of it, and a thread that is
`dead` has ended the process. -/
inductive Place where
  | idle
  | check (f : Fault)
  | write (f : Fault)
  | lockList (f : Fault)
  | unlockList (f : Fault)
  | lockRoot (f : Fault)
  | lockRegion (f : Fault) (prevLock : Lock) (curReg : Addr)
  | unlockPrev (f : Fault) (prevLock : Lock) (curReg : Addr)
  | mmap (f : Fault) (curReg : Addr)
  | unlockLast (f : Fault) (prevLock : Lock) (found : Bool)
  | reset (f : Fault)
  | dead (why : Halt)
  deriving DecidableEq

/-- The guard, the address space, the locks that someone else holds exclusively, and the two threads
with their own locks. -/
structure Threads where
  prevVaddr : Nat
  space : Space
  busy : Lock → Bool
  held : Tid → List (Lock × Mode)
  place : Tid → Place

/-- `take` and `give` are what others do with a lock. -/
inductive Move where
  | fault (i : Tid) (f : Fault)
  | run (i : Tid)
  | take (x : Lock)
  | give (x : Lock)
  deriving DecidableEq

namespace Threads

def goto (t : Threads) (i : Tid) (place : Place) : Threads :=
  { t with place := Function.update t.place i place }

theorem goto_self (t : Threads) (i : Tid) (p : Place) : (t.goto i p).place i = p :=
  Function.update_self ..

theorem goto_of_ne (t : Threads) {i j : Tid} (p : Place) (h : j ≠ i) :
    (t.goto i p).place j = t.place j := Function.update_of_ne h _ _

def acquire (t : Threads) (i : Tid) (m : Mode) (x : Lock) (place : Place) : Option Threads :=
  if t.busy x then none
  else some { t.goto i place with held := Function.update t.held i ((x, m) :: t.held i) }

def release (t : Threads) (i : Tid) (m : Mode) (x : Lock) (place : Place) : Threads :=
  { t.goto i place with held := Function.update t.held i ((t.held i).erase (x, m)) }

end Threads

section Step
variable (pg : PageSize) (s : Sc)

/-- The head of the loop: on to the next region, or to the end of the walk. -/
def walkOn (f : Fault) (prevLock : Lock) : Option Addr → Place
  | none => .unlockLast f prevLock false
  | some curReg => .lockRegion f prevLock curReg

/-- The body of the loop, once `curReg` is locked. -/
def look (f : Fault) (curReg : Addr) : Place :=
  if holds (s.extent curReg) f.vaddr then
    if Refused (s.extent curReg) f then .dead (.exit (-1)) else .mmap f curReg
  else walkOn f (.region curReg) (s.mem curReg).next

def Threads.run (t : Threads) (i : Tid) : Option Threads :=
  match t.place i with
  | .idle => none
  | .check f => some (t.goto i (if f.vaddr = t.prevVaddr then .dead (.exit 3) else .write f))
  | .write f => some { t.goto i (.lockList f) with prevVaddr := f.vaddr }
  | .lockList f => t.acquire i .shared .localList (.unlockList f)
  | .unlockList f => some (t.release i .shared .localList (.lockRoot f))
  | .lockRoot f => t.acquire i .sharedRecursive .root (walkOn f .root s.activeRegions)
  | .lockRegion f prevLock curReg =>
    t.acquire i .sharedRecursive (.region curReg) (.unlockPrev f prevLock curReg)
  | .unlockPrev f prevLock curReg =>
    some (t.release i .sharedRecursive prevLock (look s f curReg))
  | .mmap f curReg =>
    let r := s.extent curReg
    if ¬ fileRange pg true r.vaddr r.len r.tmpfileOffset then some (t.goto i (.dead (.exit 3)))
    else some { t.goto i (.unlockLast f (.region curReg) true) with space := r.vma :: t.space }
  | .unlockLast f prevLock found =>
    some (t.release i .sharedRecursive prevLock (if found then .reset f else .dead (.exit (-1))))
  | .reset _ => some { t.goto i .idle with prevVaddr := 0 }
  | .dead _ => none

/-- The checks of the handler that need no shared data are part of the fault. -/
def Threads.step (t : Threads) : Move → Option Threads
  | .fault i f =>
    if t.place i = .idle then
      some (t.goto i (if f.Plausible then .check f else .dead (.exit (-1))))
    else none
  | .run i => t.run pg s i
  | .take x =>
    if t.busy x = false ∧ Free (t.held .main) x .exclusive ∧
        Free (t.held .background) x .exclusive then
      some { t with busy := Function.update t.busy x true }
    else none
  | .give x => some { t with busy := Function.update t.busy x false }

def Threads.init (t : Threads) : Prop :=
  t.prevVaddr = 0 ∧ (∀ i, t.place i = .idle) ∧ ∀ i, t.held i = []

end Step

/-- The fault that a thread has written to the guard, up to its reset. -/
def Place.inside : Place → Option Fault
  | .lockList f | .unlockList f | .lockRoot f | .lockRegion f _ _ | .unlockPrev f _ _ | .mmap f _
  | .unlockLast f _ _ | .reset f => some f
  | _ => none

def Place.waitsFor : Place → Option Lock
  | .lockList _ => some .localList
  | .lockRoot _ => some .root
  | .lockRegion _ _ curReg => some (.region curReg)
  | _ => none

section Advance
variable {pg : PageSize} {s : Sc} {l pre rest : List Addr} {f : Fault} {prevLock : Lock}
  {cur : Option Addr} {curReg : Addr} {t u : Threads} {i : Tid}

def left (l : List Addr) (curReg : Addr) : Nat := (l.dropWhile (· ≠ curReg)).length

def Place.rank (l : List Addr) : Place → Nat
  | .check _ => 2 * l.length + 9
  | .write _ => 2 * l.length + 8
  | .lockList _ => 2 * l.length + 7
  | .unlockList _ => 2 * l.length + 6
  | .lockRoot _ => 2 * l.length + 5
  | .lockRegion _ _ curReg => 2 * left l curReg + 4
  | .unlockPrev _ _ curReg => 2 * left l curReg + 3
  | .mmap _ _ => 3
  | .unlockLast _ _ _ => 2
  | .reset _ => 1
  | .idle | .dead _ => 0

def Welcome (s : Sc) (l : List Addr) (f : Fault) : Prop :=
  f.Sane ∧ ∃ a ∈ l, Serviceable (s.extent a) f

def Place.Good (pg : PageSize) (s : Sc) (l : List Addr) : Place → Prop
  | .check f | .write f | .lockList f | .unlockList f | .lockRoot f => Welcome s l f
  | .lockRegion f _ curReg | .unlockPrev f _ curReg => Welcome s l f ∧
      ∃ pre rest, l = pre ++ curReg :: rest ∧ ∀ b ∈ pre, ¬ holds (s.extent b) f.vaddr
  | .mmap _ curReg => fileRange pg true (s.extent curReg).vaddr (s.extent curReg).len
      (s.extent curReg).tmpfileOffset
  | .unlockLast _ _ found => found = true
  | .idle | .reset _ => True
  | .dead _ => False

theorem left_eq (hnodup : l.Nodup) (hl : l = pre ++ curReg :: rest) :
    left l curReg = rest.length + 1 := by
  subst hl
  have hpre : ∀ a ∈ pre, decide (a ≠ curReg) = true := by
    intro a ha
    rw [decide_eq_true_eq]
    rintro rfl
    exact (List.nodup_middle.mp hnodup).notMem (List.mem_append_left _ ha)
  unfold left
  rw [List.dropWhile_append_of_pos hpre, List.dropWhile_cons_of_neg (by simp), List.length_cons]

theorem Welcome.nonnull (h : Welcome s l f) : f.vaddr ≠ 0 := by
  obtain ⟨-, a, -, hserviceable⟩ := h
  exact hserviceable.nonnull

theorem Welcome.serves (h : Welcome s l f) (R : Regions pg s l) (hcur : curReg ∈ l)
    (hat : holds (s.extent curReg) f.vaddr) : ¬ Refused (s.extent curReg) f ∧
      fileRange pg true (s.extent curReg).vaddr (s.extent curReg).len
        (s.extent curReg).tmpfileOffset := by
  obtain ⟨hsane, a, ha, hserviceable⟩ := h
  obtain ⟨hat', hserves⟩ :=
    (serviceable_iff hsane hserviceable.nonnull (R.usual a ha)).mpr hserviceable
  obtain rfl := R.at_unique hcur ha hat hat'
  exact hserves

theorem walkOn_good (h : Welcome s l f) (R : Regions pg s l)
    (hseg : Seg (fun a => (s.mem a).next) cur rest none) (hl : l = pre ++ rest)
    (hpre : ∀ b ∈ pre, ¬ holds (s.extent b) f.vaddr) :
    (walkOn f prevLock cur).Good pg s l ∧ (walkOn f prevLock cur).inside = some f ∧
      (walkOn f prevLock cur).rank l ≤ 2 * rest.length + 4 := by
  cases rest with
  | nil =>
    obtain ⟨hsane, a, ha, hserviceable⟩ := h
    rw [List.append_nil] at hl
    subst hl
    have hat := (serviceable_iff hsane hserviceable.nonnull (R.usual a ha)).mpr hserviceable
    exact absurd hat.1 (hpre a ha)
  | cons c rest =>
    obtain ⟨rfl, -⟩ := hseg
    refine ⟨⟨h, pre, rest, hl, hpre⟩, rfl, ?_⟩
    show 2 * left l c + 4 ≤ _
    rw [left_eq R.active.nodup hl, List.length_cons]

theorem look_good (h : Welcome s l f) (R : Regions pg s l) (hl : l = pre ++ curReg :: rest)
    (hpre : ∀ b ∈ pre, ¬ holds (s.extent b) f.vaddr) :
    (look s f curReg).Good pg s l ∧ (look s f curReg).inside = some f ∧
      (look s f curReg).rank l < 2 * left l curReg + 3 := by
  unfold look
  by_cases hat : holds (s.extent curReg) f.vaddr
  · have hcur : curReg ∈ l := by
      rw [hl]
      exact List.mem_append_right _ (List.mem_cons_self ..)
    obtain ⟨hallowed, hrange⟩ := h.serves R hcur hat
    rw [if_pos hat, if_neg hallowed]
    refine ⟨hrange, rfl, ?_⟩
    show 3 < _
    rw [left_eq R.active.nodup hl]
    omega
  · rw [if_neg hat]
    have hseg : Seg (fun a => (s.mem a).next) (s.mem curReg).next rest none := by
      have hholds := R.active
      rw [hl] at hholds
      exact hholds.next_eq
    have hl' : l = (pre ++ [curReg]) ++ rest := by rw [hl, List.append_assoc]; rfl
    obtain ⟨hgood, hinside, hrank⟩ := @walkOn_good pg s l _ _ f (.region curReg) _ h R hseg hl' (by
      intro b hb
      rcases List.mem_append.mp hb with hb | hb
      · exact hpre b hb
      · exact List.mem_singleton.mp hb ▸ hat)
    refine ⟨hgood, hinside, Nat.lt_of_le_of_lt hrank ?_⟩
    rw [left_eq R.active.nodup hl]
    omega

def Place.Late : Place → Prop
  | .idle | .check _ => False
  | _ => True

inductive GuardMove (t u : Threads) (old new : Place) : Prop where
  | keep (hprev : u.prevVaddr = t.prevVaddr) (hinside : new.inside = old.inside) (hlate : new.Late)
  | write (f : Fault) (hold : old = .write f) (hprev : u.prevVaddr = f.vaddr)
    (hinside : new.inside = some f)
  | reset (hprev : u.prevVaddr = 0) (hinside : new.inside = none)

theorem walkOn_late : (walkOn f prevLock cur).Late := by
  cases cur with
  | none => trivial
  | some curReg => trivial

theorem look_late : (look s f curReg).Late := by
  unfold look
  split
  · split
    · trivial
    · trivial
  · exact walkOn_late

structure Advance (pg : PageSize) (s : Sc) (l : List Addr) (t u : Threads) (i : Tid)
    (old new : Place) : Prop where
  place : u.place = Function.update t.place i new
  busy : u.busy = t.busy
  good : new.Good pg s l
  rank : new.rank l < old.rank l
  guard : GuardMove t u old new

theorem Threads.acquire_some {m : Mode} {x : Lock} {new : Place}
    (h : t.acquire i m x new = some u) : u.place = Function.update t.place i new ∧
      u.busy = t.busy ∧ u.prevVaddr = t.prevVaddr := by
  unfold acquire at h
  by_cases hbusy : t.busy x = true
  · rw [if_pos hbusy] at h
    cases h
  · rw [if_neg hbusy] at h
    obtain rfl := Option.some.inj h
    exact ⟨rfl, rfl, rfl⟩

theorem Threads.run_advance (R : Regions pg s l) (hgood : (t.place i).Good pg s l)
    (hcheck : ∀ f, t.place i = .check f → f.vaddr ≠ t.prevVaddr) (h : t.run pg s i = some u) :
    ∃ new, Advance pg s l t u i (t.place i) new := by
  unfold run at h
  generalize t.place i = old at hgood hcheck h ⊢
  cases old with
  | idle => cases h
  | check f =>
    dsimp only at h
    rw [if_neg (hcheck f rfl)] at h
    obtain rfl := Option.some.inj h
    exact ⟨.write f, rfl, rfl, hgood, Nat.lt_succ_self _, .keep rfl rfl trivial⟩
  | write f =>
    obtain rfl := Option.some.inj h
    exact ⟨.lockList f, rfl, rfl, hgood, Nat.lt_succ_self _, .write f rfl rfl rfl⟩
  | lockList f =>
    obtain ⟨hplace, hbusy, hprev⟩ := acquire_some h
    exact ⟨.unlockList f, hplace, hbusy, hgood, Nat.lt_succ_self _, .keep hprev rfl trivial⟩
  | unlockList f =>
    obtain rfl := Option.some.inj h
    exact ⟨.lockRoot f, rfl, rfl, hgood, Nat.lt_succ_self _, .keep rfl rfl trivial⟩
  | lockRoot f =>
    obtain ⟨hplace, hbusy, hprev⟩ := acquire_some h
    have hpre : ∀ b ∈ ([] : List Addr), ¬ holds (s.extent b) f.vaddr :=
      fun b hb => absurd hb List.not_mem_nil
    obtain ⟨hwalk, hinside, hrank⟩ :=
      @walkOn_good pg s l [] l f .root s.activeRegions hgood R R.active rfl hpre
    exact ⟨_, hplace, hbusy, hwalk, Nat.lt_succ_of_le hrank, .keep hprev hinside walkOn_late⟩
  | lockRegion f prevLock curReg =>
    obtain ⟨hplace, hbusy, hprev⟩ := acquire_some h
    exact ⟨.unlockPrev f prevLock curReg, hplace, hbusy, hgood, Nat.lt_succ_self _,
      .keep hprev rfl trivial⟩
  | unlockPrev f prevLock curReg =>
    obtain rfl := Option.some.inj h
    obtain ⟨hwelcome, pre, rest, hl, hpre⟩ := hgood
    obtain ⟨hlook, hinside, hrank⟩ := look_good hwelcome R hl hpre
    exact ⟨_, rfl, rfl, hlook, hrank, .keep rfl hinside look_late⟩
  | mmap f curReg =>
    have hrange : fileRange pg true (s.extent curReg).vaddr (s.extent curReg).len
      (s.extent curReg).tmpfileOffset := hgood
    dsimp only at h
    rw [if_neg (not_not_intro hrange)] at h
    obtain rfl := Option.some.inj h
    exact ⟨.unlockLast f (.region curReg) true, rfl, rfl, rfl, Nat.lt_succ_self _, .keep rfl rfl trivial⟩
  | unlockLast f prevLock found =>
    obtain rfl : found = true := hgood
    obtain rfl := Option.some.inj h
    exact ⟨.reset f, rfl, rfl, trivial, Nat.lt_succ_self _, .keep rfl rfl trivial⟩
  | reset f =>
    obtain rfl := Option.some.inj h
    exact ⟨.idle, rfl, rfl, trivial, Nat.lt_succ_self _, .reset rfl rfl⟩
  | dead why => exact hgood.elim

theorem Threads.acquire_enabled {m : Mode} {x : Lock} {new : Place} (h : t.busy x = false) :
    ∃ u, t.acquire i m x new = some u := by
  unfold acquire
  rw [h]
  exact ⟨_, rfl⟩

theorem Threads.run_enabled (hgood : (t.place i).Good pg s l) (hopen : t.place i ≠ .idle)
    (hfree : ∀ x, (t.place i).waitsFor = some x → t.busy x = false) :
    ∃ u, t.run pg s i = some u := by
  unfold run
  generalize t.place i = old at hgood hopen hfree
  cases old with
  | idle => exact absurd rfl hopen
  | lockList f => exact acquire_enabled (hfree _ rfl)
  | lockRoot f => exact acquire_enabled (hfree _ rfl)
  | lockRegion f prevLock curReg => exact acquire_enabled (hfree _ rfl)
  | mmap f curReg =>
    have hrange : fileRange pg true (s.extent curReg).vaddr (s.extent curReg).len
      (s.extent curReg).tmpfileOffset := hgood
    dsimp only
    rw [if_neg (not_not_intro hrange)]
    exact ⟨_, rfl⟩
  | dead why => exact hgood.elim
  | _ => exact ⟨_, rfl⟩

theorem Threads.step_fault (h : t.step pg s (.fault i f) = some u) : t.place i = .idle ∧
    u = t.goto i (if f.Plausible then .check f else .dead (.exit (-1))) := by
  unfold step at h
  dsimp only at h
  by_cases hidle : t.place i = .idle
  · rw [if_pos hidle] at h
    exact ⟨hidle, (Option.some.inj h).symm⟩
  · rw [if_neg hidle] at h
    cases h

theorem Threads.step_take {x : Lock} (h : t.step pg s (.take x) = some u) :
    u.place = t.place ∧ u.prevVaddr = t.prevVaddr := by
  unfold step at h
  dsimp only at h
  split at h
  · obtain rfl := Option.some.inj h
    exact ⟨rfl, rfl⟩
  · cases h

theorem Threads.step_give {x : Lock} (h : t.step pg s (.give x) = some u) :
    u.place = t.place ∧ u.prevVaddr = t.prevVaddr := by
  obtain rfl := Option.some.inj h
  exact ⟨rfl, rfl⟩

theorem Threads.run_place (h : t.run pg s i = some u) :
    ∃ new, u.place = Function.update t.place i new := by
  unfold run at h
  generalize t.place i = old at h
  cases old with
  | idle => cases h
  | dead why => cases h
  | lockList f => exact ⟨_, (acquire_some h).1⟩
  | lockRoot f => exact ⟨_, (acquire_some h).1⟩
  | lockRegion f prevLock curReg => exact ⟨_, (acquire_some h).1⟩
  | mmap f curReg =>
    dsimp only at h
    split at h
    · obtain rfl := Option.some.inj h
      exact ⟨_, rfl⟩
    · obtain rfl := Option.some.inj h
      exact ⟨_, rfl⟩
  | _ =>
    obtain rfl := Option.some.inj h
    exact ⟨_, rfl⟩

theorem Threads.step_stays {e : Move} (h : t.step pg s e = some u) (hopen : t.place i ≠ .idle)
    (he : e ≠ .run i) : u.place i = t.place i := by
  cases e with
  | fault j f =>
    obtain ⟨hidle, rfl⟩ := step_fault h
    have hi : i ≠ j := by
      rintro rfl
      exact hopen hidle
    exact Function.update_of_ne hi _ _
  | run j =>
    have hi : i ≠ j := by
      rintro rfl
      exact he rfl
    obtain ⟨new, hplace⟩ := run_place h
    rw [hplace]
    exact Function.update_of_ne hi _ _
  | take x => rw [(step_take h).1]
  | give x => rw [(step_give h).1]

theorem Threads.step_dead {e : Move} {why : Halt} (h : t.step pg s e = some u)
    (hdead : t.place i = .dead why) : u.place i = .dead why := by
  have hopen : t.place i ≠ .idle := by
    rw [hdead]
    nofun
  have he : e ≠ .run i := by
    rintro rfl
    have hrun : t.run pg s i = some u := h
    unfold run at hrun
    rw [hdead] at hrun
    cases hrun
  exact (step_stays h hopen he).trans hdead

end Advance
end Subcontexts.Member
