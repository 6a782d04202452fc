import Subcontexts.Join.Model

/-! What the joiner has mapped at each point of its walk, and the range that slips through when the
reserved list changes between the walks. -/

namespace Subcontexts.Join

open Region

def Phase.Walking : Phase → Prop
  | .mapActive _ _ | .nextActive _ _ | .mapReserved _ | .nextReserved _ | .registering => True
  | _ => False

/-- The condition on a step. Nothing is taken from the first reserved region between the end of the
walk over the active list and the map of that region; the joiner does not leave the active tail
while a taken range waits to be linked to it; no reservation completes during the walk. -/
def Unslipped (s : State) : Action → Prop
  | .mmap _ _ true => s.phase ≠ .mapReserved s.reserved.length
  | .next => ∀ i rest, s.phase = .nextActive i rest → i + 1 = s.active.length → s.linking = none
  | .complete => ¬ s.phase.Walking
  | _ => True

def activeDone (s : State) : Nat :=
  match s.phase with
  | .start => 1
  | .mapActive i _ => i
  | .nextActive i _ => i + 1
  | _ => s.active.length

def reservedDone (s : State) : Nat :=
  match s.phase with
  | .mapReserved rest => s.reserved.length - rest
  | .nextReserved rest => s.reserved.length - rest + 1
  | .registering | .registered | .returned => s.reserved.length
  | _ => 0

def Placed (s : State) : Prop :=
  match s.phase with
  | .start => 0 < s.active.length
  | .mapActive i rest | .nextActive i rest =>
    i < s.active.length ∧ 0 < rest ∧ rest = s.reserved.length
  | .mapReserved rest | .nextReserved rest => 0 < rest ∧ rest ≤ s.reserved.length
  | _ => True

def Phase.Beyond : Phase → Prop
  | .mapReserved _ | .nextReserved _ | .registering | .registered | .returned => True
  | _ => False

structure Inv (s : State) : Prop where
  reservable : ∀ r ∈ s.reserved, Reservable r
  pending : ∀ r, s.pending = some r → Reservable r
  owes : s.owes = true → s.phase.Registered ∧ s.ackCount < s.ackTarg
  placed : Placed s
  active : s.phase ≠ .failed → ∀ r ∈ s.active.take (activeDone s), Mapped s.space r
  reserved : ∀ r ∈ s.reserved.take (reservedDone s), Held s.space r
  linking : s.phase.Beyond → ∀ r, s.linking = some r → Mapped s.space r
  acked : s.phase.Registered → ∀ r, s.pending = some r → s.owes = true ∨ Held s.space r

theorem Inv.init {s : State} (h : s.init) : Inv s := by
  obtain ⟨hph, hlink, howes, ⟨first, others, hact, hmap⟩, hres, hpend⟩ := h
  refine ⟨hres, hpend, fun h => ?_, ?_, fun _ r hr => ?_, fun r hr => ?_, fun hb => ?_,
    fun hreg => ?_⟩
  · rw [howes] at h
    cases h
  · simp [Placed, hph, hact]
  · simp only [activeDone, hph, hact, List.take_succ_cons, List.take_zero,
      List.mem_singleton] at hr
    exact hr ▸ hmap
  · simp [reservedDone, hph] at hr
  · rw [hph] at hb
    exact hb.elim
  · rw [hph] at hreg
    exact hreg.elim

section Joiner
variable {s t : State} {pg : PageSize}

theorem Inv.fail (I : Inv s) (hreg : ¬ s.phase.Registered) : Inv { s with phase := .failed } := by
  refine ⟨I.reservable, I.pending, fun h => absurd (I.owes h).1 hreg, trivial,
    fun h => absurd rfl h, fun r hr => ?_, False.elim, False.elim⟩
  simp [reservedDone] at hr

theorem Inv.walk (I : Inv s) {ph : Phase} {space : Space} (hreg : ¬ s.phase.Registered)
    (hph : ¬ ph.Registered) (hspace : Extends s.space space)
    (placed : Placed { s with phase := ph, space := space })
    (active : ∀ r ∈ s.active.take (activeDone { s with phase := ph, space := space }),
      Mapped space r)
    (reserved : ∀ r ∈ s.reserved.take (reservedDone { s with phase := ph, space := space }),
      Held space r)
    (linking : ph.Beyond → s.phase.Beyond ∨ s.linking = none) :
    Inv { s with phase := ph, space := space } := by
  refine ⟨I.reservable, I.pending, fun h => absurd (I.owes h).1 hreg, placed, fun _ => active,
    reserved, fun hb r hr => ?_, fun h => absurd h hph⟩
  rcases linking hb with hb | hnone
  · exact hspace.mapped (I.linking hb r hr)
  · change s.linking = some r at hr
    rw [hnone] at hr
    cases hr

theorem Inv.snapshot (I : Inv s) {prealloc : Bool} (h : snapshot s prealloc = some t) : Inv t := by
  obtain ⟨⟨hph, -, hlen, hne⟩, h⟩ := Option.ite_none_right_eq_some.mp h
  have hreg : ¬ s.phase.Registered := by rw [hph]; exact id
  cases prealloc with
  | false =>
    obtain rfl := Option.some.inj h
    exact I.fail hreg
  | true =>
    obtain rfl := Option.some.inj h
    refine I.walk hreg id (Extends.refl _) ⟨hlen, List.length_pos_iff.mpr hne, rfl⟩
      (fun r hr => ?_) (fun r hr => ?_) False.elim
    · have hact := I.active (by rw [hph]; nofun) r
      simp only [activeDone, hph] at hact
      exact hact hr
    · simp [reservedDone] at hr

theorem mapped_spec {result : Except Halt (Option Space)} {ph : Phase}
    (h : s.mapped result ph = some t) : t = { s with phase := .failed } ∨
      ∃ space, result = .ok (some space) ∧ t = { s with space := space, phase := ph } := by
  unfold State.mapped at h
  split at h
  · exact .inr ⟨_, rfl, (Option.some.inj h).symm⟩
  · exact .inl (Option.some.inj h).symm
  · cases h

theorem Inv.map (I : Inv s) {granted : Bool} (h : map pg s granted = some t) : Inv t := by
  unfold Join.map at h
  split at h
  · rename_i i rest hph
    have hreg : ¬ s.phase.Registered := by rw [hph]; exact id
    have hplaced : i < s.active.length ∧ 0 < rest ∧ rest = s.reserved.length := by
      simpa only [Placed, hph] using I.placed
    have hdone : ∀ r ∈ s.active.take i, Mapped s.space r := by
      have hact := I.active (by rw [hph]; nofun)
      simpa only [activeDone, hph] using hact
    split at h
    · rename_i cur hcur
      rcases mapped_spec h with rfl | ⟨space, hok, rfl⟩
      · exact I.fail hreg
      · have hext : Extends s.space space := joinRegion_extends hok
        refine I.walk hreg id hext hplaced (fun r hr => ?_) (fun r hr => ?_) False.elim
        · change r ∈ s.active.take (i + 1) at hr
          rw [List.take_add_one, hcur, List.mem_append] at hr
          rcases hr with hr | hr
          · exact hext.mapped (hdone r hr)
          · obtain rfl := List.mem_singleton.mp hr
            exact joinRegion_mapped hok
        · simp [reservedDone] at hr
    · cases h
  · rename_i rest hph
    have hreg : ¬ s.phase.Registered := by rw [hph]; exact id
    have hplaced : 0 < rest ∧ rest ≤ s.reserved.length := by
      simpa only [Placed, hph] using I.placed
    have hdone : ∀ r ∈ s.reserved.take (s.reserved.length - rest), Held s.space r := by
      simpa only [reservedDone, hph] using I.reserved
    have hactive : ∀ r ∈ s.active, Mapped s.space r := by
      have hact := I.active (by rw [hph]; nofun)
      simpa only [activeDone, hph, List.take_length] using hact
    split at h
    · rename_i cur hcur
      rcases mapped_spec h with rfl | ⟨space, hok, rfl⟩
      · exact I.fail hreg
      · have hext : Extends s.space space := joinRegion_extends hok
        refine I.walk hreg id hext hplaced (fun r hr => ?_) (fun r hr => ?_) fun _ => .inl ?_
        · exact hext.mapped (hactive r (List.mem_of_mem_take hr))
        · change r ∈ s.reserved.take (s.reserved.length - rest + 1) at hr
          rw [List.take_add_one, hcur, List.mem_append] at hr
          rcases hr with hr | hr
          · exact hext.held (hdone r hr)
          · obtain rfl := List.mem_singleton.mp hr
            have hprot := (I.reservable r (List.mem_of_getElem? hcur)).1
            exact joinRegion_held hprot hok
        · rw [hph]
          trivial
    · cases h
  · cases h

theorem Inv.next (I : Inv s) (hok : Unslipped s .next) (h : next s = some t) : Inv t := by
  unfold Join.next at h
  split at h
  · rename_i i rest hph
    have hreg : ¬ s.phase.Registered := by rw [hph]; exact id
    have hplaced : i < s.active.length ∧ 0 < rest ∧ rest = s.reserved.length := by
      simpa only [Placed, hph] using I.placed
    have hdone : ∀ r ∈ s.active.take (i + 1), Mapped s.space r := by
      have hact := I.active (by rw [hph]; nofun)
      simpa only [activeDone, hph] using hact
    split at h
    · rename_i hlt
      obtain rfl := Option.some.inj h
      refine I.walk hreg id (Extends.refl _) ⟨hlt, hplaced.2⟩ hdone (fun r hr => ?_) False.elim
      simp [reservedDone] at hr
    · rename_i hlt
      obtain rfl := Option.some.inj h
      have hend : i + 1 = s.active.length := Nat.le_antisymm hplaced.1 (Nat.le_of_not_lt hlt)
      refine I.walk hreg id (Extends.refl _) ⟨hplaced.2.1, Nat.le_of_eq hplaced.2.2⟩ (fun r hr => ?_)
        (fun r hr => ?_) fun _ => .inr (hok i rest hph hend)
      · exact hdone r (hend ▸ hr)
      · simp [reservedDone, hplaced.2.2] at hr
  · rename_i rest hph
    have hreg : ¬ s.phase.Registered := by rw [hph]; exact id
    have hplaced : 0 < rest ∧ rest ≤ s.reserved.length := by
      simpa only [Placed, hph] using I.placed
    have hdone : ∀ r ∈ s.reserved.take (s.reserved.length - rest + 1), Held s.space r := by
      simpa only [reservedDone, hph] using I.reserved
    have hactive : ∀ r ∈ s.active.take s.active.length, Mapped s.space r := by
      have hact := I.active (by rw [hph]; nofun)
      simpa only [activeDone, hph] using hact
    have hbeyond : s.phase.Beyond := by rw [hph]; trivial
    split at h
    · rename_i hlt
      obtain rfl := Option.some.inj h
      have hrest : rest - 1 ≤ s.reserved.length := Nat.le_trans (Nat.sub_le _ _) hplaced.2
      refine I.walk hreg id (Extends.refl _) ⟨Nat.sub_pos_of_lt hlt, hrest⟩ hactive
        (fun r hr => hdone r ?_) fun _ => .inl hbeyond
      have hlen : s.reserved.length - (rest - 1) = s.reserved.length - rest + 1 := by omega
      simpa only [reservedDone, hlen] using hr
    · obtain rfl := Option.some.inj h
      refine I.walk hreg id (Extends.refl _) trivial hactive (fun r hr => hdone r ?_)
        fun _ => .inl hbeyond
      have hlen : s.reserved.length - rest + 1 = s.reserved.length := by omega
      simpa only [reservedDone, hlen] using hr
  · cases h

theorem Inv.register (I : Inv s) (hph : s.phase = .registering) (hpend : s.pending = none) :
    Inv { s with phase := .registered, procCount := s.procCount + 1 } := by
  have hact := I.active (by rw [hph]; nofun)
  have hres := I.reserved
  simp only [activeDone, reservedDone, hph] at hact hres
  refine ⟨I.reservable, I.pending, fun h => ⟨trivial, (I.owes h).2⟩, trivial, fun _ => hact, hres,
    fun _ => I.linking (by rw [hph]; trivial), fun _ r hr => ?_⟩
  change s.pending = some r at hr
  rw [hpend] at hr
  cases hr

theorem Inv.finish (I : Inv s) (hph : s.phase = .registered) :
    Inv { s with phase := .returned } := by
  have hact := I.active (by rw [hph]; nofun)
  have hres := I.reserved
  simp only [activeDone, reservedDone, hph] at hact hres
  exact ⟨I.reservable, I.pending, fun h => ⟨trivial, (I.owes h).2⟩, trivial, fun _ => hact, hres,
    fun _ => I.linking (by rw [hph]; trivial), fun _ => I.acked (by rw [hph]; trivial)⟩

end Joiner

section Members
variable {s t : State} {pg : PageSize}

theorem Inv.extend (I : Inv s) {space : Space} (h : Extends s.space space) :
    Inv { s with space := space } :=
  ⟨I.reservable, I.pending, I.owes, I.placed, fun hf r hr => h.mapped (I.active hf r hr),
    fun r hr => h.held (I.reserved r hr), fun hb r hr => h.mapped (I.linking hb r hr),
    fun hreg r hr => (I.acked hreg r hr).imp_right h.held⟩

theorem Inv.alloc (I : Inv s) {v : Vma Backing} (hfree : s.space.Free v.start v.len) :
    Inv { s with space := v :: s.space } :=
  I.extend fun _ _ hc => AddressSpace.Free.cell_cons hfree hc

theorem Inv.head_done (I : Inv s) (hb : s.phase.Beyond)
    (hok : s.phase ≠ .mapReserved s.reserved.length) (hne : s.reserved ≠ []) :
    0 < reservedDone s := by
  have hpos : 0 < s.reserved.length := List.length_pos_iff.mpr hne
  have hplaced := I.placed
  unfold reservedDone
  cases hph : s.phase with
  | mapReserved rest =>
    simp only [Placed, hph] at hplaced
    have hlt : rest ≠ s.reserved.length := fun h => hok (h ▸ hph)
    exact Nat.sub_pos_of_lt (Nat.lt_of_le_of_ne hplaced.2 hlt)
  | nextReserved rest => exact Nat.succ_pos _
  | registering => exact hpos
  | registered => exact hpos
  | returned => exact hpos
  | _ =>
    rw [hph] at hb
    exact hb.elim

theorem activeDone_of_beyond (hb : s.phase.Beyond) : activeDone s = s.active.length := by
  unfold activeDone
  cases hph : s.phase <;> rw [hph] at hb <;> first | rfl | exact hb.elim

theorem activeDone_le (hplaced : Placed s) : activeDone s ≤ s.active.length := by
  unfold activeDone
  unfold Placed at hplaced
  cases hph : s.phase <;> simp only [hph] at hplaced ⊢ <;> omega

theorem Inv.carve (I : Inv s) {head region : Extent} {tail : List Extent} {length size : Nat}
    (hres : s.reserved = head :: tail) (hlt : length < head.len) (hpend : s.pending = none)
    (hok : s.phase ≠ .mapReserved s.reserved.length) (hvaddr : region.vaddr = head.vaddr)
    (hlen : region.len = length) :
    Inv { s with
      tmpfileSize := size
      reserved := { head with vaddr := u64 (head.vaddr + length), len := head.len - length } :: tail
      linking := some region } := by
  have hhead : Reservable head := I.reservable head (by rw [hres]; exact List.mem_cons_self ..)
  have hend : u64 (head.vaddr + length) = head.vaddr + length :=
    u64_of_lt (by have := hhead.2; omega)
  have hsame : s.reserved.length = tail.length + 1 := by rw [hres]; rfl
  refine ⟨fun r hr => ?_, I.pending, I.owes, ?_, I.active, fun r hr => ?_, fun hb r hr => ?_,
    fun _ r hr => ?_⟩
  · rcases List.mem_cons.mp hr with rfl | hr
    · refine ⟨hhead.1, ?_⟩
      have hbound := hhead.2
      show u64 (head.vaddr + length) + (head.len - length) < 2 ^ 64
      rw [hend]
      omega
    · exact I.reservable r (by rw [hres]; exact List.mem_cons_of_mem _ hr)
  · have hplaced := I.placed
    unfold Placed at hplaced ⊢
    rw [hsame] at hplaced
    exact hplaced
  · have hdone := I.reserved
    rw [hres] at hdone
    have hcount : reservedDone { s with
        tmpfileSize := size
        reserved :=
          { head with vaddr := u64 (head.vaddr + length), len := head.len - length } :: tail
        linking := some region } = reservedDone s := by
      unfold reservedDone
      rw [hsame]
      rfl
    rw [hcount] at hr
    cases hn : reservedDone s with
    | zero => simp [hn] at hr
    | succ n =>
      rw [hn] at hr hdone
      rcases List.mem_cons.mp hr with rfl | hr
      · refine (hdone head (List.mem_cons_self ..)).part ?_ ?_
        · show head.vaddr ≤ u64 (head.vaddr + length)
          omega
        · show u64 (head.vaddr + length) + (head.len - length) ≤ head.vaddr + head.len
          omega
      · exact hdone r (List.mem_cons_of_mem _ hr)
  · obtain rfl := Option.some.inj hr
    have hpos := I.head_done hb hok (by rw [hres]; nofun)
    have hheld : Held s.space head := by
      refine I.reserved head ?_
      rw [hres]
      obtain ⟨n, hn⟩ := Nat.exists_eq_succ_of_ne_zero (Nat.ne_of_gt hpos)
      rw [hn]
      exact List.mem_cons_self ..
    exact (hheld.part (Nat.le_of_eq hvaddr.symm) (by omega)).mapped
  · change s.pending = some r at hr
    rw [hpend] at hr
    cases hr

theorem Inv.mmap (I : Inv s) {length prot : Nat} {truncated : Bool}
    (hok : Unslipped s (.mmap length prot truncated))
    (h : mmap pg s length prot truncated = some t) : Inv t := by
  obtain ⟨⟨-, hpend, -, -⟩, h⟩ := Option.ite_none_right_eq_some.mp h
  cases truncated with
  | false =>
    obtain rfl := Option.some.inj h
    exact ⟨I.reservable, I.pending, I.owes, I.placed, I.active, I.reserved, I.linking, I.acked⟩
  | true =>
    simp only [if_true] at h
    split at h
    · cases h
    · rename_i head tail hres
      obtain ⟨hlt, h⟩ := Option.ite_none_right_eq_some.mp h
      obtain rfl := Option.some.inj h
      exact I.carve hres hlt hpend hok rfl rfl

theorem Inv.link (I : Inv s) (h : link s = some t) : Inv t := by
  unfold Join.link at h
  split at h
  · rename_i region hlink
    split at h
    · cases h
    · obtain rfl := Option.some.inj h
      refine ⟨I.reservable, I.pending, I.owes, ?_, fun hf r hr => ?_, I.reserved, fun _ => nofun,
        I.acked⟩
      · have hplaced := I.placed
        unfold Placed at hplaced ⊢
        rw [List.length_append, List.length_singleton]
        cases hph : s.phase <;> simp only [hph] at hplaced ⊢ <;> omega
      · by_cases hb : s.phase.Beyond
        · rcases List.mem_append.mp (List.mem_of_mem_take hr) with hr | hr
          · refine I.active hf r ?_
            rwa [activeDone_of_beyond hb, List.take_length]
          · obtain rfl := List.mem_singleton.mp hr
            exact I.linking hb r hlink
        · have hcount : activeDone { s with active := s.active ++ [region], linking := none } =
              activeDone s := by
            unfold activeDone
            cases hph : s.phase <;> simp only [hph, ne_eq, reduceCtorEq, not_true_eq_false] at hf hb ⊢ <;>
              exact absurd trivial hb
          rw [hcount, List.take_append_of_le_length (activeDone_le I.placed)] at hr
          exact I.active hf r hr
  · cases h

theorem Inv.post (I : Inv s) {vaddr pages : Nat} (h : post pg s vaddr pages = some t) : Inv t := by
  obtain ⟨⟨-, -, -, hproc, hbound⟩, h⟩ := Option.ite_none_right_eq_some.mp h
  obtain rfl := Option.some.inj h
  refine ⟨I.reservable, fun r hr => ?_, fun h => ⟨of_decide_eq_true h, hproc⟩, I.placed, I.active,
    I.reserved, I.linking, fun hreg r _ => .inl (decide_eq_true hreg)⟩
  obtain rfl := Option.some.inj hr
  exact ⟨rfl, hbound⟩

theorem Inv.ackJoiner (I : Inv s) {granted : Bool} (h : ackJoiner s granted = some t) : Inv t := by
  unfold Join.ackJoiner at h
  split at h
  · rename_i r hpend
    obtain ⟨⟨howes, -⟩, h⟩ := Option.ite_none_right_eq_some.mp h
    have hheld : ∀ {space : Space}, Extends s.space space → Held space r →
        Inv { s with space := space, ackCount := s.ackCount + 1, owes := false } := by
      intro space hext hr
      have J := I.extend hext
      refine ⟨J.reservable, J.pending, nofun, J.placed, J.active, J.reserved, J.linking,
        fun _ q hq => .inr ?_⟩
      change s.pending = some q at hq
      rw [hpend] at hq
      exact Option.some.inj hq ▸ hr
    split at h
    · rename_i hlen
      obtain rfl := Option.some.inj h
      exact hheld (Extends.refl _) fun x hlo hhi => by omega
    · split at h
      · rename_i space hmap
        obtain rfl := Option.some.inj h
        exact hheld (mapHint_extends hmap) (mapHint_held hmap)
      · cases h
  · cases h

theorem Inv.complete (I : Inv s) (hok : Unslipped s .complete) (h : complete s = some t) :
    Inv t := by
  unfold Join.complete at h
  split at h
  · rename_i r hpend
    obtain ⟨⟨-, hacked, -⟩, h⟩ := Option.ite_none_right_eq_some.mp h
    obtain rfl := Option.some.inj h
    have hnot : ¬ s.phase.Walking := hok
    have howes : s.owes = true → False := fun h => by
      have := (I.owes h).2
      omega
    refine ⟨fun q hq => ?_, nofun, I.owes, ?_, I.active, fun q hq => ?_, I.linking, fun _ => nofun⟩
    · rcases List.mem_cons.mp hq with rfl | hq
      · exact I.pending q hpend
      · exact I.reservable q hq
    · have hplaced := I.placed
      unfold Placed at hplaced ⊢
      cases hph : s.phase <;> simp only [hph] at hplaced ⊢ <;>
        first | exact hplaced | exact absurd (by rw [hph]; trivial) hnot
    · by_cases hreg : s.phase.Registered
      · rcases List.mem_cons.mp (List.mem_of_mem_take hq) with rfl | hq
        · exact (I.acked hreg q hpend).resolve_left howes
        · refine I.reserved q ?_
          cases hph : s.phase <;> rw [hph] at hreg <;> first | exact hreg.elim | skip
          all_goals simpa only [reservedDone, hph, List.take_length] using hq
      · cases hph : s.phase with
        | start => simp [reservedDone, hph] at hq
        | failed => simp [reservedDone, hph] at hq
        | registered => exact absurd (by rw [hph]; trivial) hreg
        | returned => exact absurd (by rw [hph]; trivial) hreg
        | _ => exact absurd (by rw [hph]; trivial) hnot
  · cases h

end Members

theorem Inv.step {s t : State} {pg : PageSize} {a : Action} (I : Inv s) (hok : Unslipped s a)
    (h : step pg s a = some t) : Inv t := by
  cases a with
  | snapshot prealloc => exact I.snapshot h
  | map granted => exact I.map h
  | next => exact I.next hok h
  | register =>
    obtain ⟨⟨hph, -, hpend⟩, h⟩ := Option.ite_none_right_eq_some.mp h
    obtain rfl := Option.some.inj h
    exact I.register hph hpend
  | finish =>
    obtain ⟨hph, h⟩ := Option.ite_none_right_eq_some.mp h
    obtain rfl := Option.some.inj h
    exact I.finish hph
  | mmap length prot truncated => exact I.mmap hok h
  | link => exact I.link h
  | post vaddr pages => exact I.post h
  | ack =>
    obtain ⟨⟨-, hlt⟩, h⟩ := Option.ite_none_right_eq_some.mp h
    obtain rfl := Option.some.inj h
    refine ⟨I.reservable, I.pending, fun ho => ⟨(I.owes ho).1, ?_⟩, I.placed, I.active, I.reserved,
      I.linking, I.acked⟩
    have ho' : s.owes = true := ho
    rw [ho'] at hlt
    exact hlt
  | ackJoiner granted => exact I.ackJoiner h
  | complete => exact I.complete hok h
  | alloc start len prot bytes =>
    obtain ⟨hfree, h⟩ := Option.ite_none_right_eq_some.mp h
    obtain rfl := Option.some.inj h
    exact I.alloc hfree

def UnslippedRun (pg : PageSize) : State → Prop :=
  Trans.Reach State.init (Trans.Guarded Unslipped (Trans.ofFun (step pg)))

theorem joiner_covers (pg : PageSize) {s : State} (h : UnslippedRun pg s)
    (hret : s.phase = .returned) : Covered s := by
  have I : Inv s := Trans.Reach.inv (I := Inv) (fun _ h0 => Inv.init h0)
    (fun _ _ _ I hst => I.step hst.1 hst.2) h
  have hact := I.active (by rw [hret]; nofun)
  have hres := I.reserved
  simp only [activeDone, reservedDone, hret, List.take_length] at hact hres
  intro r hr
  rcases List.mem_append.mp hr with hr | hr
  · exact hact r hr
  · exact (hres r hr).mapped

def rootMapped : State where
  active := [⟨65536, 4096, 3, 0⟩, ⟨131072, 4096, 3, 4096⟩]
  reserved := [⟨135168, 1044480, protNone, noOffset⟩]
  linking := none
  tmpfileSize := 8192
  pending := none
  ackTarg := 0
  ackCount := 0
  owes := false
  procCount := 1
  phase := .start
  space := [⟨65536, 4096, .file 3 0⟩]

theorem rootMapped_init : rootMapped.init := by
  refine ⟨rfl, rfl, rfl, ⟨_, _, rfl, fun x hlo hhi => .inr ⟨3, 0, x - 65536, ?_, rfl⟩⟩,
    fun r hr => ?_, nofun⟩
  · exact AddressSpace.cell_cons_of_covers ⟨hlo, hhi⟩
  · obtain rfl := List.mem_singleton.mp hr
    exact ⟨rfl, by decide⟩

/-- An `sc_mmap` before the walk, one during it and one after the registration. -/
theorem joiner_covers_busy : ∃ s, UnslippedRun page4096 s ∧ s.phase = .returned ∧
    s.active.length = 5 ∧ Covered s := by
  have h0 : UnslippedRun page4096 rootMapped := .init rootMapped_init
  have h1 := h0.step (l := Action.mmap 4096 1 true) ⟨nofun, rfl⟩
  have h2 : UnslippedRun page4096 { rootMapped with
      active := rootMapped.active ++ [⟨135168, 4096, 1, 8192⟩]
      reserved := [⟨139264, 1040384, protNone, noOffset⟩]
      tmpfileSize := 12288 } := h1.step (l := Action.link) ⟨trivial, rfl⟩
  have h3 := h2.step (l := Action.snapshot true) ⟨trivial, rfl⟩
  have h4 := h3.step (l := Action.map true) ⟨trivial, rfl⟩
  have h5 := h4.step (l := Action.mmap 8192 3 true) ⟨nofun, rfl⟩
  have h6 : UnslippedRun page4096 { rootMapped with
      active := rootMapped.active ++ [⟨135168, 4096, 1, 8192⟩, ⟨139264, 8192, 3, 12288⟩]
      reserved := [⟨147456, 1032192, protNone, noOffset⟩]
      tmpfileSize := 20480
      phase := .nextActive 1 1
      space := ⟨131072, 4096, .file 3 4096⟩ :: rootMapped.space } :=
    h5.step (l := Action.link) ⟨trivial, rfl⟩
  have h7 := h6.step (l := Action.next) ⟨fun _ _ _ _ => rfl, rfl⟩
  have h8 := h7.step (l := Action.map true) ⟨trivial, rfl⟩
  have h9 := h8.step (l := Action.next) ⟨fun _ _ _ _ => rfl, rfl⟩
  have h10 := h9.step (l := Action.map true) ⟨trivial, rfl⟩
  have h11 := h10.step (l := Action.next) ⟨fun _ _ _ _ => rfl, rfl⟩
  have h12 := h11.step (l := Action.map true) ⟨trivial, rfl⟩
  have h13 := h12.step (l := Action.next) ⟨nofun, rfl⟩
  have h14 := h13.step (l := Action.register) ⟨trivial, rfl⟩
  have h15 := h14.step (l := Action.mmap 4096 3 true) ⟨nofun, rfl⟩
  have h16 := h15.step (l := Action.link) ⟨trivial, rfl⟩
  have h17 := h16.step (l := Action.finish) ⟨trivial, rfl⟩
  exact ⟨_, h17, rfl, rfl, joiner_covers page4096 h17 rfl⟩

/-- The joiner has passed the active tail when an `sc_mmap` moves a page from the reserved region
to the active list, and maps the reserved region afterwards. -/
theorem joiner_misses_page : ¬ ∀ s, Trans.Reach State.init (Trans.ofFun (step page4096)) s →
    s.phase = .returned → Covered s := by
  intro H
  have h0 : Trans.Reach State.init (Trans.ofFun (step page4096)) rootMapped :=
    .init rootMapped_init
  obtain ⟨t, ht, hret, hmem, hcell⟩ : ∃ t, Trans.exec (step page4096) [.snapshot true, .map true,
      .next, .mmap 4096 3 true, .link, .map true, .next, .register, .finish] rootMapped = some t ∧
      t.phase = .returned ∧ ⟨135168, 4096, 3, 8192⟩ ∈ t.active ∧ t.space.cell 135168 = none :=
    ⟨_, rfl, rfl, .tail _ (.tail _ (.head _)), rfl⟩
  have hcov := H t (h0.of_exec ht) hret _ (List.mem_append_left _ hmem) 135168
    (Nat.le_refl _) (by decide)
  rw [hcell] at hcov
  rcases hcov with ⟨k, hk⟩ | ⟨prot, offset, k, hk, -⟩
  · cases hk
  · cases hk

end Subcontexts.Join
