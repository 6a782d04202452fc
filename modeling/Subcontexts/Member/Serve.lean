import Subcontexts.Member.Fault

/-! The accesses that the page-fault handler serves, over every run of faults of one process. -/

namespace Subcontexts.Member
open Region Holding

section Legal
variable {pg : PageSize} {f : Fault} {p : Process} {l : List Addr} {a b : Addr} {e : Extent}

/-- The error bits of the fault are those of an access by the program. -/
def Fault.Sane (f : Fault) : Prop :=
  f.siCode = .accErr ∧ f.neverSetBits = 0 ∧ f.isUser = true ∧
    ¬ (f.isWrite = true ∧ f.isInstr = true)

instance (f : Fault) : Decidable f.Sane := inferInstanceAs (Decidable (_ ∧ _))

def Permits (prot : Nat) (f : Fault) : Prop :=
  if f.isWrite then prot &&& protWrite ≠ 0
  else if f.isInstr then prot &&& protExec ≠ 0
  else prot &&& protRead ≠ 0

instance (prot : Nat) (f : Fault) : Decidable (Permits prot f) := by
  unfold Permits
  infer_instance

/-- A legal access to a region of the file. -/
structure Legal (e : Extent) (f : Fault) : Prop where
  file : FileBacked e
  lo : e.vaddr ≤ f.vaddr
  hi : f.vaddr < e.vaddr + e.len
  permits : Permits e.prot f

/-- A legal access, not through the null pointer, to a region that does not end at the last
address. -/
structure Serviceable (e : Extent) (f : Fault) : Prop extends Legal e f where
  nonnull : f.vaddr ≠ 0
  below : e.vaddr + e.len < 2 ^ 64

def Usual (pg : PageSize) (e : Extent) : Prop :=
  (e.prot = protRead ∨ e.prot = protRead ||| protWrite ∨ e.prot = protRead ||| protExec) ∧
      e.tmpfileOffset % pg.bytes = 0 ∨
    e.prot = protNone ∧ e.tmpfileOffset = noOffset

/-- The active list `l` has disjoint regions of the usual kinds. -/
structure Regions (pg : PageSize) (s : Sc) (l : List Addr) : Prop where
  active : (s.links s.activeRegions).Holds l
  apart : ∀ a ∈ l, ∀ b ∈ l, a ≠ b → Apart (s.extent a) (s.extent b)
  usual : ∀ a ∈ l, Usual pg (s.extent a)

theorem not_refused_iff (hsane : f.Sane)
    (hprot : e.prot = protRead ∨ e.prot = protRead ||| protWrite ∨ e.prot = protRead ||| protExec) :
    ¬ Refused e f ↔ Permits e.prot f := by
  unfold Refused Permits
  cases hw : f.isWrite with
  | true =>
    cases hi : f.isInstr with
    | true => exact absurd ⟨hw, hi⟩ hsane.2.2.2
    | false => rcases hprot with h | h | h <;> rw [h] <;> decide
  | false =>
    cases hi : f.isInstr with
    | true => rcases hprot with h | h | h <;> rw [h] <;> decide
    | false => rcases hprot with h | h | h <;> rw [h] <;> decide

theorem serviceable_iff (hsane : f.Sane) (hnull : f.vaddr ≠ 0) (husual : Usual pg e) :
    holds e f.vaddr ∧ ¬ Refused e f ∧ fileRange pg true e.vaddr e.len e.tmpfileOffset ↔
      Serviceable e f := by
  constructor
  · rintro ⟨⟨hlo, hhi⟩, hallowed, ⟨-, -, hbelow⟩, haligned⟩
    have hfile : FileBacked e := by
      intro hoff
      rw [hoff] at haligned
      exact noOffset_not_aligned pg haligned
    rw [u64_of_lt hbelow] at hhi
    rcases husual with ⟨hprot, -⟩ | ⟨-, hoff⟩
    · exact ⟨⟨hfile, hlo, hhi, (not_refused_iff hsane hprot).mp hallowed⟩, hnull, hbelow⟩
    · exact absurd hoff hfile
  · rintro ⟨⟨hfile, hlo, hhi, hpermits⟩, -, hbelow⟩
    rcases husual with ⟨hprot, haligned⟩ | ⟨-, hoff⟩
    · refine ⟨⟨hlo, ?_⟩, (not_refused_iff hsane hprot).mpr hpermits, ⟨rfl, ?_, hbelow⟩, haligned⟩
      · rw [u64_of_lt hbelow]
        exact hhi
      · apply Nat.pos_of_ne_zero
        intro hlen
        rw [hlen, Nat.add_zero] at hhi
        exact absurd hhi (Nat.not_lt_of_le hlo)
    · exact absurd hoff hfile

theorem served_iff (hsane : f.Sane) (hnull : f.vaddr ≠ 0)
    (husual : Usual pg (p.world.sc.extent a)) :
    p.At f a ∧ p.Grants pg true f a ↔ Serviceable (p.world.sc.extent a) f :=
  serviceable_iff hsane hnull husual

theorem Regions.at_unique {s : Sc} (R : Regions pg s l) (ha : a ∈ l) (hb : b ∈ l)
    (hat : holds (s.extent a) f.vaddr) (hbt : holds (s.extent b) f.vaddr) : a = b := by
  by_contra hne
  have ha' : f.vaddr < (s.extent a).vaddr + (s.extent a).len :=
    Nat.lt_of_lt_of_le hat.2 (Nat.mod_le _ _)
  have hb' : f.vaddr < (s.extent b).vaddr + (s.extent b).len :=
    Nat.lt_of_lt_of_le hbt.2 (Nat.mod_le _ _)
  rcases R.apart a ha b hb hne with h | h
  · exact absurd (Nat.lt_of_lt_of_le ha' (Nat.le_trans h hbt.1)) (Nat.lt_irrefl _)
  · exact absurd (Nat.lt_of_lt_of_le hb' (Nat.le_trans h hat.1)) (Nat.lt_irrefl _)

/-- A fault that ends well does what the handler does in the view of a single reader. -/
theorem scSignalHandlerSegv_forget {granted : Bool} {x : ScLocal} {fuel : Nat}
    {yields : List (Nat × Nat)} {u : Thread Process Lock} (R : Regions pg p.world.sc l)
    (hlocal : p.localList = [x]) (hlock : p.world.sc.lock = false) (hlooks : f.Plausible)
    (hprev : f.vaddr ≠ p.prevVaddr) (hfuel : l.length < fuel)
    (h : (scSignalHandlerSegv pg granted yields f fuel).exec ⟨p, []⟩ = (.ok (), u)) :
    segvHandler pg granted fuel p.world.sc p.world.space f.vaddr f.isWrite f.isInstr =
      .ok u.state.world.space := by
  have hend := @scSignalHandlerSegv_ends pg granted yields f fuel p x l hlocal hlooks hprev
    R.active
  rw [h] at hend
  cases hend with
  | served a ha hat hgrants =>
    obtain ⟨visited, found, hwalk, -, hfound, hnone⟩ := segvWalk_spec f.vaddr R.active hfuel
    have hwalk : segvWalk p.world.sc.mem f.vaddr fuel p.world.sc.activeRegions =
        .ok (visited, found) := hwalk
    obtain rfl : found = some a := by
      cases found with
      | none => exact absurd hat (hnone rfl a ha)
      | some b =>
        obtain ⟨hb, hbt⟩ := hfound b rfl
        rw [R.at_unique hb ha hbt hat]
    unfold segvHandler
    rw [haltIf_neg hlooks.1, ok_bind, haltIf_neg (by rw [hlock]; decide), ok_bind, hwalk,
      ok_bind]
    dsimp only
    obtain ⟨hallowed, hrange⟩ := hgrants
    unfold Refused at hallowed
    rw [check_pos hlooks.sane, ok_bind, haltIf_neg hallowed, ok_bind,
      haltIf_neg (not_not_intro hrange)]
    rfl

end Legal

section Runs
variable {pg : PageSize} {f : Fault} {p : Process} {x : ScLocal} {l : List Addr} {fuel : Nat}
  {yields : List (Nat × Nat)} {t u : Thread Process Lock}

structure Joined (t : Thread Process Lock) : Prop where
  held : t.held = []
  one : ∃ x, t.state.localList = [x]
  guard : t.state.prevVaddr = 0

/-- A fault after which the process goes on, or what this process and the others do between two
faults. -/
inductive RunEvent where
  | between
  | fault (f : Fault) (fuel : Nat) (yields : List (Nat × Nat))

def RunEvent.step (pg : PageSize) (t : Thread Process Lock) (e : RunEvent)
    (u : Thread Process Lock) : Prop :=
  match e with
  | .between => u.held = t.held ∧ u.state.localList = t.state.localList ∧
      u.state.prevVaddr = t.state.prevVaddr
  | .fault f fuel yields =>
    f.Sane ∧ (∃ l, Regions pg t.state.world.sc l ∧ l.length < fuel) ∧
      (scSignalHandlerSegv pg true yields f fuel).exec t = (.ok (), u)

inductive Answer (fuel : Nat) (yields : List (Nat × Nat)) (p : Process) (x : ScLocal)
    (l : List Addr) (f : Fault) : Except Halt Unit × Thread Process Lock → Prop where
  | served (a) (ha : a ∈ l) (hlegal : Serviceable (p.world.sc.extent a) f) :
    Answer fuel yields p x l f (.ok (), ⟨p.serve a, []⟩)
  | ended {locks e u} (hnone : ∀ a ∈ l, ¬ Serviceable (p.world.sc.extent a) f)
    (hended : Ended fuel yields p x locks e u) : Answer fuel yields p x l f (.error e, u)

theorem scSignalHandlerSegv_null (hlocal : p.localList = [x]) (hnull : f.vaddr = 0) :
    ∃ e u, (scSignalHandlerSegv pg true yields f fuel).exec ⟨p, []⟩ = (.error e, u) ∧
      Ended fuel yields p x [] e u := by
  unfold scSignalHandlerSegv
  rw [if_pos hnull]
  apply scKillLocalProc_ended hlocal
  · nofun
  · exact free_nil _ _

theorem scSignalHandlerSegv_answer (hlocal : p.localList = [x]) (hprev : p.prevVaddr = 0)
    (R : Regions pg p.world.sc l) (hsane : f.Sane) (hfuel : l.length < fuel) :
    Answer fuel yields p x l f ((scSignalHandlerSegv pg true yields f fuel).exec ⟨p, []⟩) := by
  by_cases hnull : f.vaddr = 0
  · obtain ⟨e, u, hrun, hended⟩ := @scSignalHandlerSegv_null pg f p x fuel yields hlocal hnull
    rw [hrun]
    exact .ended (fun a _ hlegal => hlegal.nonnull hnull) hended
  have hprev' : f.vaddr ≠ p.prevVaddr := by rwa [hprev]
  have hend := @scSignalHandlerSegv_ends pg true yields f fuel p x l hlocal ⟨hnull, hsane⟩ hprev'
    R.active
  generalize (scSignalHandlerSegv pg true yields f fuel).exec ⟨p, []⟩ = r at hend
  cases hend with
  | fuel hshort => exact absurd hfuel (Nat.not_lt_of_le hshort)
  | outside hmiss hended =>
    apply Answer.ended _ hended
    intro a ha hlegal
    exact hmiss a ha ((served_iff hsane hnull (R.usual a ha)).mpr hlegal).1
  | died a ha hat hdenied hended =>
    apply Answer.ended _ hended
    intro b hb hlegal
    obtain ⟨hbt, hgrants⟩ := (served_iff hsane hnull (R.usual b hb)).mpr hlegal
    obtain rfl := R.at_unique ha hb hat hbt
    exact hdenied hgrants
  | served a ha hat hgrants =>
    have hlegal := (served_iff hsane hnull (R.usual a ha)).mp ⟨hat, hgrants⟩
    have hserve : ({ p.serve a with prevVaddr := 0 } : Process) = p.serve a := by
      rw [← hprev]
      rfl
    rw [hserve]
    exact .served a ha hlegal

theorem Joined.step {e : RunEvent} (h : Joined t) (hstep : e.step pg t u) : Joined u := by
  cases e with
  | between =>
    obtain ⟨hheld, hlocal, hprev⟩ := hstep
    exact ⟨hheld.trans h.held, hlocal.symm ▸ h.one, hprev.trans h.guard⟩
  | fault f fuel yields =>
    obtain ⟨hsane, ⟨l, R, hfuel⟩, hrun⟩ := hstep
    obtain ⟨p, held⟩ := t
    obtain ⟨rfl, ⟨x, hlocal⟩, hprev⟩ := h
    have hanswer := @scSignalHandlerSegv_answer pg f p x l fuel yields hlocal hprev R hsane hfuel
    rw [hrun] at hanswer
    cases hanswer with
    | served a ha hlegal => exact ⟨rfl, ⟨x, hlocal⟩, hprev⟩

theorem joined_of_reach (h : Trans.Reach Joined (RunEvent.step pg) t) : Joined t :=
  h.inv (fun _ h => h) fun _ _ _ h hstep => h.step hstep

theorem handler_serves_legal (h : Trans.Reach Joined (RunEvent.step pg) t)
    (R : Regions pg t.state.world.sc l) (hsane : f.Sane) (hfuel : l.length < fuel) :
    ((∃ u, (scSignalHandlerSegv pg true yields f fuel).exec t = (.ok (), u)) ↔
      ∃ a ∈ l, Serviceable (t.state.world.sc.extent a) f) ∧
    (∀ u, (scSignalHandlerSegv pg true yields f fuel).exec t = (.ok (), u) →
      ∃ a ∈ l, Serviceable (t.state.world.sc.extent a) f ∧ u = ⟨t.state.serve a, t.held⟩) ∧
    ∀ e u, (scSignalHandlerSegv pg true yields f fuel).exec t = (.error e, u) →
      u.state.world.space = t.state.world.space ∧
        ∀ x ∈ t.state.localList, Mortal fuel yields t.state x → Dead e := by
  obtain ⟨hheld, ⟨x, hlocal⟩, hprev⟩ := joined_of_reach h
  obtain ⟨p, held⟩ := t
  obtain rfl : held = [] := hheld
  have hanswer := @scSignalHandlerSegv_answer pg f p x l fuel yields hlocal hprev R hsane hfuel
  generalize (scSignalHandlerSegv pg true yields f fuel).exec ⟨p, []⟩ = r at hanswer
  cases hanswer with
  | served a ha hlegal =>
    refine ⟨iff_of_true ⟨_, rfl⟩ ⟨a, ha, hlegal⟩, fun u hu => ?_, fun e u hu => ?_⟩
    · exact ⟨a, ha, hlegal, (Prod.mk.inj hu).2.symm⟩
    · cases (Prod.mk.inj hu).1
  | ended hnone hended =>
    refine ⟨iff_of_false ?_ ?_, fun u hu => ?_, fun e u hu => ?_⟩
    · rintro ⟨u, hu⟩
      cases (Prod.mk.inj hu).1
    · rintro ⟨a, ha, hlegal⟩
      exact hnone a ha hlegal
    · cases (Prod.mk.inj hu).1
    · obtain ⟨he, rfl⟩ := Prod.mk.inj hu
      obtain rfl := Except.error.inj he
      refine ⟨hended.space, fun y hy => ?_⟩
      rw [hlocal] at hy
      obtain rfl := List.mem_singleton.mp hy
      exact hended.dead

end Runs

section Run

theorem regions_single {pg : PageSize} {s : Sc} {a : Addr} (hl : (s.links s.activeRegions).Holds [a])
    (husual : Usual pg (s.extent a)) : Regions pg s [a] := by
  refine ⟨hl, fun b hb c hc hne => ?_, fun b hb => ?_⟩
  · obtain rfl := List.mem_singleton.mp hb
    exact absurd (List.mem_singleton.mp hc).symm hne
  · obtain rfl := List.mem_singleton.mp hb
    exact husual

theorem soleMember_extent : soleMember.world.sc.extent 0x10100 =
    ⟨0x10000, 0x1000, protRead ||| protWrite, 0⟩ := by
  have h : (initRoot firstPage4096 0x100000 emptyWorld.sc.mem).extent (firstPage4096.regions 0) =
      ⟨0x10000, 0x1000, protRead ||| protWrite, 0⟩ := extent_initRoot_first
  exact h

theorem handler_serves_legal_write : ∃ u : Thread Process Lock,
    (scSignalHandlerSegv page4096 true [] ⟨0x10008, .accErr, 6⟩ 5).exec ⟨soleMember, []⟩ =
      (.ok (), u) := by
  have husual : Usual page4096 (soleMember.world.sc.extent 0x10100) := by
    rw [soleMember_extent]
    exact .inl ⟨.inr (.inl rfl), rfl⟩
  have hlegal : Serviceable (soleMember.world.sc.extent 0x10100) ⟨0x10008, .accErr, 6⟩ := by
    rw [soleMember_extent]
    exact ⟨⟨(by decide : (0 : Nat) ≠ noOffset), by decide, by decide, by decide⟩, by decide,
      by decide⟩
  have hreach : Trans.Reach Joined (RunEvent.step page4096) ⟨soleMember, []⟩ :=
    .init ⟨rfl, ⟨_, rfl⟩, rfl⟩
  have h := @handler_serves_legal page4096 ⟨0x10008, .accErr, 6⟩ [0x10100] 5 [] _ hreach
    (regions_single soleMember_regions husual) (by decide) (by decide)
  exact h.1.mpr ⟨0x10100, List.mem_cons_self .., hlegal⟩

def soleMemberAt (e : Extent) : Process :=
  { soleMember with
    world := { soleMember.world with sc := soleMember.world.sc.setExtent 0x10100 e } }

/-- A read that the region permits, and that ends the process. -/
def Strays (e : Extent) (vaddr : Nat) : Prop :=
  Joined ⟨soleMemberAt e, []⟩ ∧ Regions page4096 (soleMemberAt e).world.sc [0x10100] ∧
    Legal ((soleMemberAt e).world.sc.extent 0x10100) ⟨vaddr, .accErr, 4⟩ ∧
    ∃ u, (scSignalHandlerSegv page4096 true [] ⟨vaddr, .accErr, 4⟩ 5).exec ⟨soleMemberAt e, []⟩ =
      (.error (.exit (-1)), u)

theorem soleMemberAt_regions {e : Extent} (h : Usual page4096 e) :
    Regions page4096 (soleMemberAt e).world.sc [0x10100] := by
  apply regions_single
  · exact ⟨rfl, rfl⟩
  · have hextent : (soleMemberAt e).world.sc.extent 0x10100 = e :=
      extent_setExtent_self _ _ _
    rwa [hextent]

/-- The null pointer, and the end of a region that is the end of the address space. -/
theorem handler_kills_legal :
    Strays ⟨0, 0x1000, protRead, 0⟩ 0 ∧
      Strays ⟨2 ^ 64 - 0x1000, 0x1000, protRead, 0⟩ (2 ^ 64 - 1) := by
  constructor
  · refine ⟨⟨rfl, ⟨_, rfl⟩, rfl⟩, soleMemberAt_regions (.inl ⟨.inl rfl, rfl⟩), ?_, _, rfl⟩
    exact ⟨(by decide : (0 : Nat) ≠ noOffset), by decide, by decide, by decide⟩
  · refine ⟨⟨rfl, ⟨_, rfl⟩, rfl⟩, soleMemberAt_regions (.inl ⟨.inl rfl, rfl⟩), ?_, _, rfl⟩
    exact ⟨(by decide : (0 : Nat) ≠ noOffset), by decide, by decide, by decide⟩

end Run
end Subcontexts.Member
