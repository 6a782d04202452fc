import Subcontexts.Region.Conserved

/-! What a new reservation does to the next `sc_mmap`. The cleanup puts the new region at the head
of the reserved list, `sc_mmap` looks at the head only and must leave some of it, and the reservation
has taken a region struct. -/

namespace Subcontexts.Region
variable {pg : PageSize} {fp : FirstPage pg} {answers : Answers} {w w' : World}
  {addr length prot : Nat} {fd offset : Int} {l f v : List Addr}

section Free
variable {s : Sc}

theorem holds_cons {head : Option Addr} {x : Addr} (hf : (s.links head).Holds f)
    (hx : head = some x) : ∃ f', f = x :: f' ∧ (s.links (s.mem x).next).Holds f' := by
  cases f with
  | nil => cases hx.symm.trans hf
  | cons b f' =>
    obtain ⟨hb, hrest⟩ := hf
    obtain rfl := Option.some.inj (hb.symm.trans hx)
    exact ⟨f', rfl, hrest⟩

theorem scGetFreeRegion_two {region : Option Addr} {t : Sc} (L : Lists fp s l f)
    (h : scGetFreeRegion s = .ok (region, t)) : 2 ≤ f.length := by
  unfold scGetFreeRegion at h
  obtain ⟨-, -, h⟩ := bind_eq_ok.mp h
  split at h
  · cases h
  rename_i reg hreg
  split at h
  · cases h
  rename_i next hnext
  obtain ⟨f', rfl, hf'⟩ := holds_cons L.free hreg
  cases f' with
  | nil => cases hnext.symm.trans hf'
  | cons b f' =>
    show 2 ≤ f'.length + 1 + 1
    omega

theorem scGetFreeRegion_some (L : Lists fp s l f) (hlock : s.lock = true) (htwo : 2 ≤ f.length) :
    ∃ reg t, scGetFreeRegion s = .ok (some reg, t) := by
  match f, htwo with
  | a :: b :: f', _ =>
    obtain ⟨ha, hb, -⟩ := L.free
    have ha : s.freeStructs = some a := ha
    have hb : (s.mem a).next = some b := hb
    unfold scGetFreeRegion
    rw [check_pos hlock, ha, ok_bind]
    dsimp only
    rw [hb]
    exact ⟨a, _, rfl⟩

end Free

section Mmap

structure Asks (fp : FirstPage pg) (answers : Answers) (w : World) (addr length : Nat)
    (fd offset : Int) : Prop where
  addr : addr = 0
  pos : 0 < length
  dvd : length % pg.bytes = 0
  fd : fd = -1
  offset : offset = 0
  lookup : answers.lookup = true
  unlocked : w.sc.lock = false
  noLog : w.sc.cleanupLog = false
  truncates : truncates answers (u64 (w.sc.tmpfileSize + length))
  root : (w.ftruncate (u64 (w.sc.tmpfileSize + length))).load pg fp.base ≠ none

theorem scMmap_asks {r : Option Nat} (L : Lists fp w.sc l f)
    (h : scMmap fp answers w addr length prot fd offset = .ok (r, w')) (hr : r ≠ none) :
    Asks fp answers w addr length fd offset ∧ 2 ≤ f.length := by
  obtain ⟨haddr, hpos, hdvd, hfd, hoffset, ⟨-, hnone, -⟩ | ⟨hlookup, hlock, hlog, size, rfl,
    ⟨-, hnone, -⟩ | ⟨htruncates, hroot, reg, sc, v, t, hfree, -⟩⟩⟩ := scMmap_cases h
  · exact absurd hnone hr
  · exact absurd hnone hr
  have L₀ : Lists fp { w.sc with lock := true, tmpfileSize := u64 (w.sc.tmpfileSize + length) } l f :=
    L.congr rfl rfl rfl rfl fun _ _ => rfl
  exact ⟨⟨haddr, hpos, hdvd, hfd, hoffset, hlookup, hlock, hlog, htruncates, hroot⟩,
    scGetFreeRegion_two L₀ hfree⟩

theorem mmapReserved_some {s₀ s : Sc} {reg rsv : Addr} (T : Taken fp s₀ s l f reg)
    (hrsv : s.reservedRegions = some rsv) (hlen : length < (s.mem rsv).len) :
    ∃ x t, mmapReserved s reg length prot = .ok (x, t) := by
  have hne : rsv ≠ reg := fun h => T.unreserved (T.reservedRegions ▸ h ▸ hrsv)
  obtain ⟨oldTail, htail⟩ : ∃ oldTail, s.activeRegionsTail = some oldTail := by
    have hmem : fp.regions 0 ∈ l := T.lists.first_mem
    rw [T.lists.tail]
    exact ⟨_, List.getLast?_eq_some_getLast (List.ne_nil_of_mem hmem)⟩
  unfold mmapReserved
  rw [hrsv]
  dsimp only
  rw [check_pos (Nat.le_of_lt hlen), ok_bind, haltIf_neg, ok_bind]
  · split
    · rename_i hnone
      cases htail.symm.trans hnone
    · exact ⟨_, _, rfl⟩
  · rw [extent_setExtent_self, mem_setRegion_of_ne _ hne]
    show ¬ (s.mem rsv).len - length = 0
    omega

theorem scMmap_some {rsv : Addr} (L : Lists fp w.sc l f)
    (A : Asks fp answers w addr length fd offset) (htwo : 2 ≤ f.length)
    (hrsv : w.sc.reservedRegions = some rsv) (hlen : length < (w.sc.mem rsv).len) :
    ∃ x w', scMmap fp answers w addr length prot fd offset = .ok (some x, w') := by
  have L₀ : Lists fp { w.sc with lock := true, tmpfileSize := u64 (w.sc.tmpfileSize + length) } l f :=
    L.congr rfl rfl rfl rfl fun _ _ => rfl
  obtain ⟨region, sc, hfree⟩ := scGetFreeRegion_some L₀ rfl htwo
  obtain ⟨reg, f', hreg, rfl, T⟩ := L₀.getFree hfree
  obtain rfl := Option.some.inj hreg
  obtain ⟨x, t, hmap⟩ : ∃ x t, mmapReserved sc region length prot = .ok (x, t) := by
    apply mmapReserved_some T (T.reservedRegions.trans hrsv)
    rw [T.extent]
    exact hlen
  have hlock : w.lockRoot = .ok { w with sc := { w.sc with lock := true } } :=
    if_neg (by rw [A.unlocked]; exact Bool.false_ne_true)
  have hlookup : (!answers.lookup) = false := by rw [A.lookup]; rfl
  unfold scMmap
  rw [check_pos A.addr, ok_bind, check_pos A.pos, ok_bind, check_pos A.dvd, ok_bind,
    check_pos A.fd, ok_bind, check_pos A.offset, ok_bind, hlookup, if_neg Bool.false_ne_true, hlock,
    ok_bind, haltIf_neg (by rw [A.noLog]; exact Bool.false_ne_true), ok_bind]
  dsimp only
  rw [if_neg (not_not_intro A.truncates)]
  have htouch : (World.ftruncate { w with sc := { w.sc with
      lock := true, tmpfileSize := u64 (w.sc.tmpfileSize + length) } }
        (u64 (w.sc.tmpfileSize + length))).touchRoot fp = .ok () := haltIf_neg A.root
  rw [htouch, ok_bind]
  show ∃ x w', (scGetFreeRegion { w.sc with
    lock := true, tmpfileSize := u64 (w.sc.tmpfileSize + length) } >>= _) = _
  rw [hfree, ok_bind]
  dsimp only
  rw [hmap, ok_bind]
  exact ⟨_, _, rfl⟩

theorem scMmap_succeeds_iff {rsv : Addr} (L : Lists fp w.sc l f)
    (hrsv : w.sc.reservedRegions = some rsv) :
    (∃ x w', scMmap fp answers w addr length prot fd offset = .ok (some x, w')) ↔
      Asks fp answers w addr length fd offset ∧ 2 ≤ f.length ∧ length < (w.sc.mem rsv).len := by
  constructor
  · rintro ⟨x, w', h⟩
    obtain ⟨A, htwo⟩ := scMmap_asks L h (Option.some_ne_none x)
    refine ⟨A, htwo, ?_⟩
    rcases scMmap_spec L h with ⟨hx, -⟩ | ⟨-, -, reg, rsv', f', -, -, M, -⟩
    · cases hx
    · obtain rfl := Option.some.inj (hrsv.symm.trans M.carved.reserved)
      exact M.carved.fits
  · rintro ⟨A, htwo, hlen⟩
    exact scMmap_some L A htwo hrsv hlen

end Mmap

section Reservation
variable {r r₁ r₂ t : Root} {postAnswers : PostAnswers} {pages : Nat}

structure Alike (w w' : World) : Prop where
  size : w'.sc.tmpfileSize = w.sc.tmpfileSize
  file : w'.file = w.file
  fileSize : w'.fileSize = w.fileSize
  space : w'.space = w.space

theorem Asks.alike (A : Asks fp answers w addr length fd offset) (h : Alike w w')
    (hlock : w'.sc.lock = false) (hlog : w'.sc.cleanupLog = false) :
    Asks fp answers w' addr length fd offset := by
  have htruncates := A.truncates
  have hroot := A.root
  rw [World.load, World.ftruncate, ← h.size, ← h.file, ← h.fileSize, ← h.space] at hroot
  rw [← h.size] at htruncates
  exact ⟨A.addr, A.pos, A.dvd, A.fd, A.offset, A.lookup, hlock, hlog, htruncates, hroot⟩

theorem scPostNewReservation_logged {rc : Int} (T : Table fp r.world.sc l f v)
    (h : scPostNewReservation pg postAnswers r pages = .ok (rc, t)) (hlogged : t.log ≠ r.log) :
    ∃ reg range, t.pendingReservation = some reg ∧
      t.log = r.log ++ [⟨range, u64 (pages * pg.bytes)⟩] ∧
      (t.world.sc.mem reg).len = u64 (pages * pg.bytes) ∧ Alike r.world t.world := by
  unfold scPostNewReservation at h
  obtain ⟨-, -, h⟩ := bind_eq_ok.mp h
  obtain ⟨-, -, h⟩ := bind_eq_ok.mp h
  obtain ⟨-, -, h⟩ := bind_eq_ok.mp h
  obtain ⟨-, -, h⟩ := bind_eq_ok.mp h
  obtain ⟨-, -, h⟩ := bind_eq_ok.mp h
  obtain ⟨⟨newReg, sc⟩, hfree, h⟩ := bind_eq_ok.mp h
  obtain ⟨reg, f', rfl, rfl, taken, -⟩ := T.getFree hfree
  dsimp only at h
  split at h
  · obtain ⟨-, rfl⟩ := Prod.mk.inj (Except.ok.inj h)
    exact absurd rfl hlogged
  split at h
  · cases h
  rename_i range _
  obtain ⟨-, rfl⟩ := Prod.mk.inj (Except.ok.inj h)
  refine ⟨reg, range, rfl, rfl, ?_, taken.tmpfileSize, rfl, rfl, rfl⟩
  exact congrArg (fun x => x.toExtent.len) (mem_setRegion_self sc reg _)

theorem cleanup_logged (h : cleanup r = .ok t) : ∃ first next, r.log = first :: next ∧
    t.world.sc.cleanupLog = !next.isEmpty ∧ Alike r.world t.world := by
  unfold cleanup at h
  split at h
  · cases h
  rename_i first next hlog
  split at h
  · cases h
  obtain ⟨-, -, h⟩ := bind_eq_ok.mp h
  obtain ⟨-, -, h⟩ := bind_eq_ok.mp h
  obtain ⟨-, -, h⟩ := bind_eq_ok.mp h
  obtain rfl := Except.ok.inj h
  exact ⟨first, next, hlog, rfl, rfl, rfl, rfl, rfl⟩

theorem Homed.reserved (K : Homed fp r l f v) (hlog : r.log = [])
    (hpost : (RootEvent.post postAnswers pages).step fp r r₁)
    (hcomplete : RootEvent.complete.step fp r₁ r₂) :
    ∃ reg f', f = reg :: f' ∧ Table fp r₂.world.sc l f' (reg :: v) ∧
      (r₂.world.sc.mem reg).len = u64 (pages * pg.bytes) ∧ Alike r.world r₂.world ∧
      r₂.world.sc.lock = false ∧ r₂.world.sc.cleanupLog = false := by
  obtain ⟨w, rc, u, hlock, hpost, rfl⟩ := hpost
  have K₀ := K.lock hlock
  obtain ⟨-, rfl⟩ := lockRoot_spec hlock
  obtain ⟨w', u', hlock', hcleanup, rfl⟩ := hcomplete
  have hrelocked := (lockRoot_spec hlock').2
  obtain ⟨first, next, hfirst, hcleanupLog, halike'⟩ := cleanup_logged hcleanup
  have hfirst : u.log = first :: next := hfirst
  have hlogged : u.log ≠ r.log := by
    rw [hfirst, hlog]
    exact List.cons_ne_nil _ _
  obtain ⟨reg, f', rfl, Q, hend⟩ := scPostNewReservation_spec K₀.table hpost
  obtain ⟨reg', range, hpending, hentry, hlen, halike⟩ :=
    scPostNewReservation_logged K₀.table hpost hlogged
  have hreg : u.pendingReservation = some reg := by
    rcases hend with ⟨-, -, hnone⟩ | ⟨-, -, hsome, -⟩
    · cases hpending.symm.trans hnone
    · exact hsome
  obtain rfl := Option.some.inj (hpending.symm.trans hreg)
  have K₁ := K₀.took Q (.inr hreg)
  have K₂ : Homed fp u.unlock l f' v := ⟨K₁.table.relock false, K₁.two, K₁.pending⟩
  obtain ⟨a, ha, -, T, -, hext⟩ := cleanup_spec (K₂.lock hlock') hcleanup
  have ha : u.pendingReservation = some a := ha
  obtain rfl := Option.some.inj (hpending.symm.trans ha)
  have hnext : next = [] := by
    rw [hlog, hfirst] at hentry
    exact (List.cons.inj hentry).2
  refine ⟨reg', f', rfl, T.relock false, ?_, ?_, rfl, ?_⟩
  · rw [← hlen]
    show (u'.world.sc.extent reg').len = (u.world.sc.extent reg').len
    rw [hext, hrelocked]
    rfl
  · subst w'
    exact ⟨halike'.size.trans halike.size, halike'.file.trans halike.file,
      halike'.fileSize.trans halike.fileSize, halike'.space.trans halike.space⟩
  · show u'.world.sc.cleanupLog = false
    rw [hcleanupLog, hnext]
    rfl

theorem reach_homed_any (h : Trans.Reach (Root.init fp) (RootEvent.step fp) r) :
    ∃ l f v, Homed fp r l f v := by
  apply h.inv
  · intro r hr
    obtain ⟨l, f, v, K, -⟩ := hr.homed
    exact ⟨l, f, v, K⟩
  · rintro r e t ⟨l, f, v, K⟩ hst
    rcases RootEvent.step_cases K hst with ⟨c, w, rfl, hret, rfl⟩ |
      ⟨answers, pages, reg, f', rfl, rfl, Q, hend⟩ | ⟨a, rfl, -, hnone, T, -⟩ | ⟨n, rfl, rfl⟩
    · obtain ⟨l', f', K', -⟩ := K.call hret
      exact ⟨l', f', v, K'⟩
    · exact ⟨l, f', v, K.took Q (hend.imp (fun h => h.2) fun h => h.2.1)⟩
    · exact ⟨l, f, a :: v, K.complete T hnone⟩
    · exact ⟨l, f, v, K.count n⟩

theorem allocation_kept_iff {x : Nat}
    (h : Trans.Reach (Root.init fp) (RootEvent.step fp) r) (hlog : r.log = [])
    (hpost : (RootEvent.post postAnswers pages).step fp r r₁)
    (hcomplete : RootEvent.complete.step fp r₁ r₂)
    (hnow : scMmap fp answers r.world addr length prot fd offset = .ok (some x, w)) :
    (∃ x' w', scMmap fp answers r₂.world addr length prot fd offset = .ok (some x', w')) ↔
      length < u64 (pages * pg.bytes) ∧
        ∃ f, (r.world.sc.links r.world.sc.freeStructs).Holds f ∧ 3 ≤ f.length := by
  obtain ⟨l, f, v, K⟩ := reach_homed_any h
  obtain ⟨A, -⟩ := scMmap_asks K.table.lists hnow (Option.some_ne_none x)
  obtain ⟨reg, f', rfl, T, hlen, halike, hlock, hnoLog⟩ := K.reserved hlog hpost hcomplete
  rw [scMmap_succeeds_iff T.lists T.reserved.1, hlen]
  have hfree := K.table.lists.free
  constructor
  · rintro ⟨-, htwo, hlt⟩
    exact ⟨hlt, _, hfree, Nat.succ_le_succ htwo⟩
  · rintro ⟨hlt, f₀, hf₀, hthree⟩
    obtain rfl := hf₀.unique hfree
    exact ⟨A.alike halike hlock hnoLog, Nat.le_of_succ_le_succ hthree, hlt⟩

end Reservation

section Run

theorem reserved_run {pages : Nat} {w₀ w₁ : World} {r₁ r₂ : Root}
    (hinit : scInit firstPage4096 initAnswers 10 emptyWorld = .ok (some w₀))
    (hlock : w₀.sc.lock = false)
    (hcount : w₁ = { w₀ with sc := { w₀.sc with procCount := 2 } })
    (hpost : scPostNewReservation page4096 ⟨true, true, some 0x500000⟩
      ⟨{ w₁ with sc := { w₁.sc with lock := true } }, none, []⟩ pages = .ok (0, r₁))
    (hcleanup : cleanup { r₁ with world := { r₁.world with sc := { r₁.world.sc with lock := true } } } =
      .ok r₂) :
    Trans.Reach (Root.init firstPage4096) (RootEvent.step firstPage4096) ⟨w₁, none, []⟩ ∧
      (RootEvent.post ⟨true, true, some 0x500000⟩ pages).step firstPage4096 ⟨w₁, none, []⟩
        r₁.unlock ∧ RootEvent.complete.step firstPage4096 r₁.unlock r₂.unlock := by
  subst w₁
  have h₀ : Trans.Reach (Root.init firstPage4096) (RootEvent.step firstPage4096) ⟨w₀, none, []⟩ :=
    .init ⟨⟨initAnswers, 10, emptyWorld, initAnswers_promise, hinit⟩, rfl, rfl⟩
  refine ⟨h₀.step (l := RootEvent.count 2) ⟨hlock, rfl⟩, ⟨_, _, _, ?_, hpost, rfl⟩,
    _, _, rfl, hcleanup, rfl⟩
  apply if_neg
  rw [hlock]
  exact Bool.false_ne_true

theorem allocation_kept_two_mebibytes : ∃ r₁ r₂ : Root, ∃ w₁ : World,
    (RootEvent.post ⟨true, true, some 0x500000⟩ 512).step firstPage4096 ⟨w₁, none, []⟩ r₁ ∧
      RootEvent.complete.step firstPage4096 r₁ r₂ ∧
      ∃ x' w', scMmap firstPage4096 granted r₂.world 0 0x2000 3 (-1) 0 = .ok (some x', w') := by
  obtain ⟨w₀, hinit, hlock, w₁, hcount, r₁, hpost, r₂, hcleanup, w, hnow, ha, hb, hc⟩ :
      ∃ w₀, scInit firstPage4096 initAnswers 10 emptyWorld = .ok (some w₀) ∧
        w₀.sc.lock = false ∧ ∃ w₁, w₁ = { w₀ with sc := { w₀.sc with procCount := 2 } } ∧
        ∃ r₁, scPostNewReservation page4096 ⟨true, true, some 0x500000⟩
          ⟨{ w₁ with sc := { w₁.sc with lock := true } }, none, []⟩ 512 = .ok (0, r₁) ∧
        ∃ r₂, cleanup { r₁ with world := { r₁.world with sc := { r₁.world.sc with lock := true } } } =
          .ok r₂ ∧
        ∃ w, scMmap firstPage4096 granted w₁ 0 0x2000 3 (-1) 0 = .ok (some 0x101000, w) ∧
        w₁.sc.freeStructs = some (firstPage4096.regions 3) ∧
        (w₁.sc.mem (firstPage4096.regions 3)).next = some (firstPage4096.regions 4) ∧
        (w₁.sc.mem (firstPage4096.regions 4)).next = some (firstPage4096.regions 5) :=
    ⟨_, rfl, rfl, _, rfl, _, rfl, _, rfl, _, rfl, rfl, rfl, rfl⟩
  obtain ⟨hreach, hstep, hcomplete⟩ := reserved_run hinit hlock hcount hpost hcleanup
  obtain ⟨l, f, v, K⟩ := reach_homed_any hreach
  have hfree : (w₁.sc.links w₁.sc.freeStructs).Holds f := K.table.lists.free
  have hthree : 3 ≤ f.length := by
    obtain ⟨f₁, rfl, h₁⟩ := holds_cons hfree ha
    obtain ⟨f₂, rfl, h₂⟩ := holds_cons h₁ hb
    obtain ⟨f₃, rfl, -⟩ := holds_cons h₂ hc
    show 3 ≤ f₃.length + 1 + 1 + 1
    omega
  exact ⟨_, _, w₁, hstep, hcomplete,
    (allocation_kept_iff hreach rfl hstep hcomplete hnow).mpr ⟨by decide, f, hfree, hthree⟩⟩

/-- One page is reserved, and now the head of the reserved list is too small for two. -/
theorem allocation_lost_one_page : ∃ r r₁ r₂ : Root,
    Trans.Reach (Root.init firstPage4096) (RootEvent.step firstPage4096) r ∧ r.log = [] ∧
      (RootEvent.post ⟨true, true, some 0x500000⟩ 1).step firstPage4096 r r₁ ∧
      RootEvent.complete.step firstPage4096 r₁ r₂ ∧
      (∃ w, scMmap firstPage4096 granted r.world 0 0x2000 3 (-1) 0 = .ok (some 0x101000, w)) ∧
      scMmap firstPage4096 granted r₂.world 0 0x2000 3 (-1) 0 = .error .assertion := by
  obtain ⟨w₀, hinit, hlock, w₁, hcount, r₁, hpost, r₂, hcleanup, hnow, hlater⟩ :
      ∃ w₀, scInit firstPage4096 initAnswers 10 emptyWorld = .ok (some w₀) ∧
        w₀.sc.lock = false ∧ ∃ w₁, w₁ = { w₀ with sc := { w₀.sc with procCount := 2 } } ∧
        ∃ r₁, scPostNewReservation page4096 ⟨true, true, some 0x500000⟩
          ⟨{ w₁ with sc := { w₁.sc with lock := true } }, none, []⟩ 1 = .ok (0, r₁) ∧
        ∃ r₂, cleanup { r₁ with world := { r₁.world with sc := { r₁.world.sc with lock := true } } } =
          .ok r₂ ∧
        (∃ w, scMmap firstPage4096 granted w₁ 0 0x2000 3 (-1) 0 = .ok (some 0x101000, w)) ∧
        scMmap firstPage4096 granted r₂.unlock.world 0 0x2000 3 (-1) 0 = .error .assertion :=
    ⟨_, rfl, rfl, _, rfl, _, rfl, _, rfl, ⟨_, rfl⟩, rfl⟩
  obtain ⟨hreach, hstep, hcomplete⟩ := reserved_run hinit hlock hcount hpost hcleanup
  exact ⟨⟨w₁, none, []⟩, r₁.unlock, r₂.unlock, hreach, rfl, hstep, hcomplete, hnow, hlater⟩

end Run
end Subcontexts.Region
