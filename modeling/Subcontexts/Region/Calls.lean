import Subcontexts.Region.Lists

/-! One spec lemma for each of the three calls: how it may end, and what it has then changed. -/

namespace Subcontexts.Region
variable {pg : PageSize} {fp : FirstPage pg} {answers : Answers} {w w' : World} {l f : List Addr}

theorem lockRoot_spec (h : w.lockRoot = .ok w') :
    w.sc.lock = false ∧ w' = { w with sc := { w.sc with lock := true } } := by
  unfold World.lockRoot at h
  split at h
  · cases h
  · exact ⟨Bool.eq_false_iff.mpr ‹_›, (Except.ok.inj h).symm⟩

def Untouched (w w' : World) : Prop :=
  ∃ size lock, w' = { w with sc := { w.sc with tmpfileSize := size, lock := lock } }

theorem Untouched.lists (h : Untouched w w') (L : Lists fp w.sc l f) : Lists fp w'.sc l f := by
  obtain ⟨size, lock, rfl⟩ := h
  exact L.congr rfl rfl rfl rfl fun _ _ => rfl

structure Resized (fp : FirstPage pg) (w w' : World) (size : Nat) : Prop where
  fileSize : w'.fileSize = size
  root : (w.ftruncate size).load pg fp.base ≠ none

theorem touchRoot_spec {u : Unit} (h : w.touchRoot fp = .ok u) : w.load pg fp.base ≠ none :=
  haltIf_eq_ok.mp h

section Mmap
variable {addr length prot : Nat} {fd offset : Int} {r : Option Nat}

structure Carved (s t : Sc) (reg rsv : Addr) (length prot : Nat) : Prop where
  reserved : s.reservedRegions = some rsv
  reserved' : t.reservedRegions = some rsv
  fits : length < (s.mem rsv).len
  region : (t.mem reg).toExtent =
    ⟨(s.mem rsv).vaddr, length, prot % 256, sub64 t.tmpfileSize length⟩
  rest : (t.mem rsv).toExtent = { (s.mem rsv).toExtent with
    vaddr := u64 ((s.mem rsv).vaddr + length), len := (s.mem rsv).len - length }
  others : ∀ a, a ≠ reg → a ≠ rsv → (t.mem a).toExtent = (s.mem a).toExtent
  procCount : t.procCount = s.procCount

theorem Taken.mmapReserved {s₀ s t : Sc} {reg : Addr} {v : Nat} (T : Taken fp s₀ s l f reg)
    (h : mmapReserved s reg length prot = .ok (v, t)) :
    ∃ rsv, v = (s.mem rsv).vaddr ∧ t.tmpfileSize = s.tmpfileSize ∧ Carved s t reg rsv length prot ∧
      Lists fp t (l ++ [reg]) f := by
  unfold Region.mmapReserved at h
  split at h
  · cases h
  · rename_i rsv hrsv
    obtain ⟨_, hfits, h⟩ := bind_eq_ok.mp h
    obtain ⟨_, hleft, h⟩ := bind_eq_ok.mp h
    have hne : rsv ≠ reg := fun h => T.unreserved (T.reservedRegions ▸ h ▸ hrsv)
    have hfits := check_eq_ok.mp hfits
    have hleft := haltIf_eq_ok.mp hleft
    split at h
    · cases h
    · rename_i oldTail htail
      obtain ⟨rfl, rfl⟩ := Prod.mk.inj (Except.ok.inj h)
      have L₁ := T.lists.setRegion_off ⟨⟨(s.mem rsv).vaddr, length, prot % 256,
        sub64 s.tmpfileSize length⟩, none, false⟩ T.off.1 T.off.2
      rw [extent_setExtent_self, mem_setRegion_of_ne _ hne] at hleft
      refine ⟨rsv, rfl, rfl, ⟨hrsv, hrsv, ?_, ?_, ?_, fun a ha ha' => ?_, rfl⟩,
        (L₁.setExtent _).append htail T.off.1 T.off.2 T.struct ?_ fun hr => hne ?_⟩
      · exact Nat.lt_of_le_of_ne hfits fun h => hleft (by rw [h]; exact Nat.sub_self _)
      · rw [extent_append, mem_setExtent_of_ne _ hne.symm, mem_setRegion_self]
        rfl
      · rw [extent_append, extent_setExtent_self, mem_setRegion_of_ne _ hne]
      · rw [extent_append, mem_setExtent_of_ne _ ha', mem_setRegion_of_ne _ ha]
      · rw [mem_setExtent_of_ne _ hne.symm, mem_setRegion_self]
      · exact Option.some.inj (hrsv.symm.trans hr)

structure Mmapped (fp : FirstPage pg) (w w' : World) (reg rsv : Addr) (length prot : Nat) : Prop where
  carved : Carved w.sc w'.sc reg rsv length prot
  size : w'.sc.tmpfileSize = u64 (w.sc.tmpfileSize + length)
  file : w'.file = (w.ftruncate w'.sc.tmpfileSize).file
  resized : Resized fp w w' w'.sc.tmpfileSize
  space : w'.space = w.space
  unlocked : w'.sc.lock = false

theorem scGetFreeRegion_ne_none {s t : Sc} : scGetFreeRegion s ≠ .ok (none, t) := by
  intro h
  unfold scGetFreeRegion at h
  obtain ⟨-, -, h⟩ := bind_eq_ok.mp h
  split at h
  · cases h
  split at h
  · cases h
  cases (Prod.mk.inj (Except.ok.inj h)).1

theorem scMmap_cases (h : scMmap fp answers w addr length prot fd offset = .ok (r, w')) :
    addr = 0 ∧ 0 < length ∧ length % pg.bytes = 0 ∧ fd = -1 ∧ offset = 0 ∧
      (answers.lookup = false ∧ r = none ∧ w' = w ∨
        answers.lookup = true ∧ w.sc.lock = false ∧ w.sc.cleanupLog = false ∧ ∃ size,
          size = u64 (w.sc.tmpfileSize + length) ∧
          (¬ truncates answers size ∧ r = none ∧
              w' = { w with sc := { w.sc with tmpfileSize := size } } ∨
            truncates answers size ∧ (w.ftruncate size).load pg fp.base ≠ none ∧
              ∃ reg sc v t,
                scGetFreeRegion { w.sc with lock := true, tmpfileSize := size } = .ok (some reg, sc) ∧
                mmapReserved sc reg length prot = .ok (v, t) ∧ r = some v ∧
                w' = { w.ftruncate size with sc := t.unlock })) := by
  unfold scMmap at h
  obtain ⟨_, haddr, h⟩ := bind_eq_ok.mp h
  obtain ⟨_, hpos, h⟩ := bind_eq_ok.mp h
  obtain ⟨_, hdvd, h⟩ := bind_eq_ok.mp h
  obtain ⟨_, hfd, h⟩ := bind_eq_ok.mp h
  obtain ⟨_, hoffset, h⟩ := bind_eq_ok.mp h
  refine ⟨check_eq_ok.mp haddr, check_eq_ok.mp hpos, check_eq_ok.mp hdvd, check_eq_ok.mp hfd,
    check_eq_ok.mp hoffset, ?_⟩
  split at h
  · rename_i hlookup
    obtain ⟨rfl, rfl⟩ := Prod.mk.inj (Except.ok.inj h)
    exact .inl ⟨by simpa using hlookup, rfl, rfl⟩
  rename_i hlookup
  obtain ⟨u, hu, h⟩ := bind_eq_ok.mp h
  obtain ⟨hlock, rfl⟩ := lockRoot_spec hu
  obtain ⟨_, hlog, h⟩ := bind_eq_ok.mp h
  refine .inr ⟨by simpa using hlookup, hlock, by simpa using haltIf_eq_ok.mp hlog, _, rfl, ?_⟩
  dsimp only at h
  split at h
  · rename_i htruncates
    obtain ⟨rfl, rfl⟩ := Prod.mk.inj (Except.ok.inj h)
    refine .inl ⟨htruncates, rfl, ?_⟩
    rw [World.unlock, Sc.unlock, ← hlock]
  rename_i htruncates
  obtain ⟨_, hroot, h⟩ := bind_eq_ok.mp h
  obtain ⟨⟨region, sc⟩, hfree, h⟩ := bind_eq_ok.mp h
  cases region with
  | none => exact absurd hfree scGetFreeRegion_ne_none
  | some reg =>
    obtain ⟨⟨v, t⟩, hmap, h⟩ := bind_eq_ok.mp h
    obtain ⟨rfl, rfl⟩ := Prod.mk.inj (Except.ok.inj h)
    exact .inr ⟨Decidable.of_not_not htruncates, touchRoot_spec hroot, reg, sc, v, t, hfree, hmap,
      rfl, rfl⟩

theorem scMmap_ends (h : scMmap fp answers w addr length prot fd offset = .ok (r, w')) :
    (answers.lookup = false ∧ r = none ∧ w' = w) ∨
      (answers.lookup = true ∧ ¬ truncates answers (u64 (w.sc.tmpfileSize + length)) ∧
        0 < length ∧ length % pg.bytes = 0 ∧ r = none ∧
        w' = { w with sc := { w.sc with tmpfileSize := u64 (w.sc.tmpfileSize + length) } }) ∨
      (answers.lookup = true ∧ truncates answers (u64 (w.sc.tmpfileSize + length)) ∧
        r ≠ none) := by
  obtain ⟨-, hpos, hdvd, -, -, hfailed | ⟨hlookup, -, -, size, rfl, hends⟩⟩ := scMmap_cases h
  · exact .inl hfailed
  rcases hends with ⟨htruncates, hr, hw'⟩ | ⟨htruncates, -, reg, sc, v, t, -, -, rfl, -⟩
  · exact .inr (.inl ⟨hlookup, htruncates, hpos, hdvd, hr, hw'⟩)
  · exact .inr (.inr ⟨hlookup, htruncates, Option.some_ne_none v⟩)

theorem scMmap_spec (L : Lists fp w.sc l f)
    (h : scMmap fp answers w addr length prot fd offset = .ok (r, w')) :
    (r = none ∧ Untouched w w') ∨ (0 < length ∧ length % pg.bytes = 0 ∧
      ∃ reg rsv f', r = some (w.sc.mem rsv).vaddr ∧ f = reg :: f' ∧
        Mmapped fp w w' reg rsv length prot ∧ Lists fp w'.sc (l ++ [reg]) f') := by
  obtain ⟨-, hpos, hdvd, -, -, ⟨-, rfl, rfl⟩ | ⟨-, -, -, size, rfl, ⟨-, rfl, rfl⟩ |
    ⟨-, hroot, reg, sc, v, t, hfree, hm, rfl, rfl⟩⟩⟩ := scMmap_cases h
  · exact .inl ⟨rfl, w'.sc.tmpfileSize, w'.sc.lock, rfl⟩
  · exact .inl ⟨rfl, _, w.sc.lock, rfl⟩
  have L₀ : Lists fp { w.sc with lock := true, tmpfileSize := u64 (w.sc.tmpfileSize + length) } l f :=
    L.congr rfl rfl rfl rfl fun _ _ => rfl
  obtain ⟨reg', f', hreg, rfl, T⟩ := L₀.getFree hfree
  obtain rfl := Option.some.inj hreg
  obtain ⟨rsv, hv, hsize, C, L'⟩ := T.mmapReserved hm
  have hext : ∀ a, (sc.mem a).toExtent = (w.sc.mem a).toExtent := T.extent
  have hvaddr : (sc.mem rsv).vaddr = (w.sc.mem rsv).vaddr := congrArg Extent.vaddr (hext rsv)
  have hlen : (sc.mem rsv).len = (w.sc.mem rsv).len := congrArg Extent.len (hext rsv)
  have hsize' : t.tmpfileSize = u64 (w.sc.tmpfileSize + length) := hsize.trans T.tmpfileSize
  refine .inr ⟨hpos, hdvd, reg, rsv, f', ?_, rfl,
    ⟨⟨?_, C.reserved', ?_, ?_, ?_, fun a ha ha' => (C.others a ha ha').trans (hext a),
      C.procCount.trans T.procCount⟩, hsize', ?_,
      ⟨hsize'.symm, ?_⟩, rfl, rfl⟩, L'.congr rfl rfl rfl rfl fun _ _ => rfl⟩
  · rw [hv, hvaddr]
  · exact T.reservedRegions.symm.trans C.reserved
  · exact hlen ▸ C.fits
  · exact hvaddr ▸ C.region
  · show (t.mem rsv).toExtent = _
    rw [C.rest, hext]
  · show (w.ftruncate _).file = (w.ftruncate t.tmpfileSize).file
    rw [hsize']
  · show (w.ftruncate t.tmpfileSize).load pg fp.base ≠ none
    rw [hsize']
    exact hroot

end Mmap

section Import
variable {addr len prot offset fuel : Nat} {r : Int}

theorem findDuplicate_false {mem : Addr → ScRegion} {cur : Option Addr}
    (hl : Seg (fun a => (mem a).next) cur l none)
    (h : findDuplicate mem addr len fuel cur = .ok false) :
    ∀ a ∈ l, ¬ overlaps (mem a).toExtent addr len := by
  induction l generalizing cur fuel with
  | nil => nofun
  | cons b rest ih =>
    obtain ⟨rfl, hrest⟩ := hl
    cases fuel with
    | zero => cases h
    | succ fuel =>
      rw [findDuplicate] at h
      split at h
      · cases h
      · rename_i hb
        intro a ha
        rcases List.mem_cons.mp ha with rfl | ha
        · exact hb
        · exact ih hrest h a ha

structure Copied (fp : FirstPage pg) (w w' : World) (addr len prot offset size : Nat) : Prop where
  pos : 0 < len
  addresses : addr + len < 2 ^ 64
  aligned : offset % pg.bytes = 0
  readable : ∀ i < len, (w.ftruncate size).load pg (addr + i) ≠ none
  file : w'.file = fun o => if offset ≤ o ∧ o < offset + len then
    ((w.ftruncate size).load pg (addr + (o - offset))).getD 0 else (w.ftruncate size).file o
  resized : Resized fp w w' size
  space : w'.space = ⟨addr, len, .file prot offset⟩ :: w.space
  unlocked : w'.sc.lock = false

structure Unmapped (fp : FirstPage pg) (w w' : World) (size : Nat) : Prop where
  fileSize : w'.fileSize = w.fileSize ∨ Resized fp w w' size
  space : w'.space = w.space

theorem importBytes_spec (h : importBytes fp answers w addr len prot offset = .ok (r, w')) :
    (∃ lock, w'.sc = { w.sc with lock := lock }) ∧
      (r ≠ 0 ∧ Unmapped fp w w' w.sc.tmpfileSize ∨
        r = 0 ∧ Copied fp w w' addr len prot offset w.sc.tmpfileSize) := by
  unfold importBytes at h
  split at h
  · obtain ⟨rfl, rfl⟩ := Prod.mk.inj (Except.ok.inj h)
    exact ⟨⟨_, rfl⟩, .inl ⟨by decide, .inl rfl, rfl⟩⟩
  split at h
  · obtain ⟨rfl, rfl⟩ := Prod.mk.inj (Except.ok.inj h)
    exact ⟨⟨_, rfl⟩, .inl ⟨by decide, .inl rfl, rfl⟩⟩
  dsimp only at h
  obtain ⟨_, hroot, h⟩ := bind_eq_ok.mp h
  have hroot := touchRoot_spec hroot
  split at h
  · obtain ⟨rfl, rfl⟩ := Prod.mk.inj (Except.ok.inj h)
    exact ⟨⟨_, rfl⟩, .inl ⟨by decide, .inr ⟨rfl, hroot⟩, rfl⟩⟩
  rename_i hbuf
  obtain ⟨u, hu, h⟩ := bind_eq_ok.mp h
  unfold World.copyIn at hu
  split at hu
  · rename_i hread
    obtain rfl := Except.ok.inj hu
    split at h
    · obtain ⟨rfl, rfl⟩ := Prod.mk.inj (Except.ok.inj h)
      exact ⟨⟨_, rfl⟩, .inl ⟨by decide, .inr ⟨rfl, hroot⟩, rfl⟩⟩
    · rename_i hreplaced
      obtain ⟨-, -, h⟩ := bind_eq_ok.mp h
      obtain ⟨rfl, rfl⟩ := Prod.mk.inj (Except.ok.inj h)
      obtain ⟨⟨-, hpos, hlt⟩, haligned⟩ := Decidable.of_not_not hreplaced
      exact ⟨⟨_, rfl⟩, .inr ⟨rfl, hpos, hlt, haligned, hread, rfl, ⟨rfl, hroot⟩, rfl, rfl⟩⟩
  · cases hu

structure Imported (s t : Sc) (reg : Addr) (addr len prot : Nat) : Prop where
  alone : s.procCount = 1
  procCount : t.procCount = s.procCount
  reserved : t.reservedRegions = s.reservedRegions
  size : t.tmpfileSize = u64 (s.tmpfileSize + len)
  region : (t.mem reg).toExtent = ⟨addr, len, prot, s.tmpfileSize⟩
  others : ∀ a, a ≠ reg → (t.mem a).toExtent = (s.mem a).toExtent

theorem scImport_cases (h : scImport fp answers fuel w addr len prot = .ok (r, w')) :
    addr % pg.bytes = 0 ∧ len % pg.bytes = 0 ∧ prot &&& protRead ≠ 0 ∧
      (w.sc.procCount ≠ 1 ∧ r = 1 ∧
          w' = World.unlock { w with sc := { w.sc with lock := true } } ∨
        w.sc.procCount = 1 ∧ ∃ duplicate,
          findDuplicate w.sc.mem addr len fuel w.sc.activeRegions = .ok duplicate ∧
          (duplicate = true ∧ r = 1 ∧ w' = { w with sc := { w.sc with lock := true } } ∨
            duplicate = false ∧ ∃ reg sc tail,
              scGetFreeRegion { w.sc with lock := true } = .ok (some reg, sc) ∧
              sc.activeRegionsTail = some tail ∧
              importBytes fp answers { w with sc := { ((sc.append tail reg).setNext reg none).setRegion
                reg { ((sc.append tail reg).setNext reg none).mem reg with
                  toExtent := ⟨addr, len, prot, sc.tmpfileSize⟩, permaPin := false } with
                tmpfileSize := u64 (sc.tmpfileSize + len) } } addr len prot sc.tmpfileSize =
                .ok (r, w'))) := by
  unfold scImport at h
  obtain ⟨_, haddr, h⟩ := bind_eq_ok.mp h
  obtain ⟨_, hlen, h⟩ := bind_eq_ok.mp h
  obtain ⟨_, hprot, h⟩ := bind_eq_ok.mp h
  have hprot' : prot &&& protRead ≠ 0 := by
    rcases check_eq_ok.mp hprot with rfl | rfl | rfl <;> decide
  refine ⟨check_eq_ok.mp haddr, check_eq_ok.mp hlen, hprot', ?_⟩
  obtain ⟨u, hu, h⟩ := bind_eq_ok.mp h
  obtain ⟨-, rfl⟩ := lockRoot_spec hu
  dsimp only at h
  split at h
  · rename_i hcount
    obtain ⟨rfl, rfl⟩ := Prod.mk.inj (Except.ok.inj h)
    exact .inl ⟨hcount, rfl, rfl⟩
  rename_i hcount
  obtain ⟨-, -, h⟩ := bind_eq_ok.mp h
  obtain ⟨duplicate, hdup, h⟩ := bind_eq_ok.mp h
  refine .inr ⟨Decidable.of_not_not hcount, duplicate, hdup, ?_⟩
  split at h
  · rename_i hduplicate
    obtain ⟨rfl, rfl⟩ := Prod.mk.inj (Except.ok.inj h)
    exact .inl ⟨hduplicate, rfl, rfl⟩
  rename_i hduplicate
  obtain ⟨⟨region, sc⟩, hfree, h⟩ := bind_eq_ok.mp h
  cases region with
  | none => exact absurd hfree scGetFreeRegion_ne_none
  | some reg =>
    dsimp only at h
    split at h
    · cases h
    · rename_i tail htail
      exact .inr ⟨Bool.eq_false_iff.mpr hduplicate, reg, sc, tail, hfree, htail, h⟩

theorem scImport_spec (L : Lists fp w.sc l f)
    (h : scImport fp answers fuel w addr len prot = .ok (r, w')) :
    (r ≠ 0 ∧ Untouched w w' ∧ w'.sc.tmpfileSize = w.sc.tmpfileSize) ∨
      ∃ reg f', f = reg :: f' ∧ Imported w.sc w'.sc reg addr len prot ∧
        Lists fp w'.sc (l ++ [reg]) f' ∧ addr % pg.bytes = 0 ∧ len % pg.bytes = 0 ∧
        prot &&& protRead ≠ 0 ∧ (∀ a ∈ l, ¬ overlaps (w.sc.mem a).toExtent addr len) ∧
        (r ≠ 0 ∧ Unmapped fp w w' w'.sc.tmpfileSize ∨
          r = 0 ∧ Copied fp w w' addr len prot w.sc.tmpfileSize w'.sc.tmpfileSize) := by
  obtain ⟨haddr, hlen, hprot, ⟨-, rfl, rfl⟩ | ⟨hcount, duplicate, hdup, ⟨-, rfl, rfl⟩ |
    ⟨rfl, reg, sc, tail, hfree, htail, h⟩⟩⟩ := scImport_cases h
  · exact .inl ⟨by decide, ⟨_, _, rfl⟩, rfl⟩
  · exact .inl ⟨by decide, ⟨_, _, rfl⟩, rfl⟩
  have L₀ : Lists fp { w.sc with lock := true } l f := L.congr rfl rfl rfl rfl fun _ _ => rfl
  obtain ⟨reg', f', hreg, rfl, T⟩ := L₀.getFree hfree
  obtain rfl := Option.some.inj hreg
  obtain ⟨⟨lock, hsc⟩, hcopied⟩ := importBytes_spec h
  have hne : tail ≠ reg := by
    rintro rfl
    have hlast : l.getLast? = some tail := T.lists.tail.symm.trans htail
    exact T.off.1 (List.mem_of_getLast? hlast)
  have hsize : sc.tmpfileSize = w.sc.tmpfileSize := T.tmpfileSize
  have hres : sc.reservedRegions ≠ some reg := T.reservedRegions ▸ T.unreserved
  have hnext : ((sc.append tail reg).mem reg).next = none := by
    rw [← T.next]
    exact congrArg ScRegion.next (mem_setNext_of_ne sc hne.symm _)
  have L₁ := T.lists.append htail T.off.1 T.off.2 T.struct T.next hres
  have L₂ : Lists fp ((sc.append tail reg).setNext reg none) (l ++ [reg]) f' :=
    L₁.setRegion hnext.symm
  have L₃ := L₂.setRegion (a := reg) (r := { ((sc.append tail reg).setNext reg none).mem reg with
    toExtent := ⟨addr, len, prot, sc.tmpfileSize⟩, permaPin := false }) rfl
  refine .inr ⟨reg, f', rfl, ⟨hcount, ?_, ?_, ?_, ?_, fun a ha => ?_⟩, ?_, haddr, hlen, hprot,
    findDuplicate_false L.active hdup, ?_⟩
  · rw [hsc]
    exact T.procCount
  · rw [hsc]
    exact T.reservedRegions
  · rw [hsc, ← hsize]
  · rw [hsc, ← hsize]
    exact congrArg ScRegion.toExtent (mem_setRegion_self _ reg _)
  · rw [hsc]
    refine (congrArg ScRegion.toExtent (mem_setRegion_of_ne _ ha _)).trans ?_
    rw [extent_setNext, extent_append]
    exact T.extent a
  · rw [hsc]
    exact L₃.congr rfl rfl rfl rfl fun _ _ => rfl
  · rw [hsc, ← hsize]
    rcases hcopied with ⟨hr, U⟩ | ⟨hr, C⟩
    · refine .inl ⟨hr, U.fileSize.imp id fun R => ⟨R.fileSize, R.root⟩, U.space⟩
    · exact .inr ⟨hr, C.pos, C.addresses, C.aligned, C.readable, C.file,
        ⟨C.resized.fileSize, C.resized.root⟩, C.space, C.unlocked⟩

structure Hidden (fp : FirstPage pg) (w w' : World) (r : Int) (reg : Addr) (addr len : Nat) : Prop where
  procCount : w'.sc.procCount = w.sc.procCount
  reserved : w'.sc.reservedRegions = w.sc.reservedRegions
  size : w'.sc.tmpfileSize = w.sc.tmpfileSize
  region : (w'.sc.mem reg).toExtent = ⟨addr, len, protNone, noOffset⟩
  others : ∀ a, a ≠ reg → (w'.sc.mem a).toExtent = (w.sc.mem a).toExtent
  file : w'.file = w.file
  fileSize : w'.fileSize = w.fileSize
  space : r ≠ 0 ∧ w'.space = w.space ∨ r = 0 ∧ addr + len < 2 ^ 64 ∧ w'.sc.lock = false ∧
    w'.space = ⟨addr, len, .noAccess⟩ :: w.space ∧ w'.load pg fp.base ≠ none

theorem scImportProtNone_cases (h : scImportProtNone fp answers w addr len = .ok (r, w')) :
    addr % pg.bytes = 0 ∧ len % pg.bytes = 0 ∧
      (w.sc.procCount ≠ 1 ∧ r = 1 ∧
          w' = World.unlock { w with sc := { w.sc with lock := true } } ∨
        w.sc.procCount = 1 ∧ ∃ reg sc first v,
          scGetFreeRegion { w.sc with lock := true } = .ok (some reg, sc) ∧
          sc.activeRegions = some first ∧
          v = { w with
            sc := ((sc.setNext reg (sc.mem first).next).setNext first (some reg)).setRegion reg
              { ((sc.setNext reg (sc.mem first).next).setNext first (some reg)).mem reg with
                toExtent := ⟨addr, len, protNone, noOffset⟩, permaPin := false } } ∧
          (¬ range answers.replaced addr len ∧ r = 5 ∧ w' = v ∨
            range answers.replaced addr len ∧ r = 0 ∧
              (v.mapFixed addr len .noAccess).load pg fp.base ≠ none ∧
              w' = (v.mapFixed addr len .noAccess).unlock)) := by
  unfold scImportProtNone at h
  obtain ⟨_, haddr, h⟩ := bind_eq_ok.mp h
  obtain ⟨_, hlen, h⟩ := bind_eq_ok.mp h
  refine ⟨check_eq_ok.mp haddr, check_eq_ok.mp hlen, ?_⟩
  obtain ⟨u, hu, h⟩ := bind_eq_ok.mp h
  obtain ⟨-, rfl⟩ := lockRoot_spec hu
  dsimp only at h
  split at h
  · rename_i hcount
    obtain ⟨rfl, rfl⟩ := Prod.mk.inj (Except.ok.inj h)
    exact .inl ⟨hcount, rfl, rfl⟩
  rename_i hcount
  obtain ⟨⟨region, sc⟩, hfree, h⟩ := bind_eq_ok.mp h
  cases region with
  | none => exact absurd hfree scGetFreeRegion_ne_none
  | some reg =>
    dsimp only at h
    split at h
    · cases h
    rename_i first hfirst
    refine .inr ⟨Decidable.of_not_not hcount, reg, sc, first, _, hfree, hfirst, rfl, ?_⟩
    split at h
    · rename_i hrefused
      obtain ⟨rfl, rfl⟩ := Prod.mk.inj (Except.ok.inj h)
      exact .inl ⟨hrefused, rfl, rfl⟩
    · rename_i hgranted
      obtain ⟨_, hroot, h⟩ := bind_eq_ok.mp h
      obtain ⟨rfl, rfl⟩ := Prod.mk.inj (Except.ok.inj h)
      exact .inr ⟨Decidable.of_not_not hgranted, rfl, touchRoot_spec hroot, rfl⟩

theorem scImportProtNone_spec (L : Lists fp w.sc l f) (hlen : 2 ≤ l.length)
    (h : scImportProtNone fp answers w addr len = .ok (r, w')) :
    (r ≠ 0 ∧ Untouched w w' ∧ w'.sc.tmpfileSize = w.sc.tmpfileSize) ∨
      ∃ first reg rest f', l = first :: rest ∧ f = reg :: f' ∧ addr % pg.bytes = 0 ∧
        len % pg.bytes = 0 ∧ Hidden fp w w' r reg addr len ∧
        Lists fp w'.sc (first :: reg :: rest) f' := by
  obtain ⟨haddr, hmod, ⟨-, rfl, rfl⟩ | ⟨-, reg, sc, first, v, hfree, hfirst, rfl, hends⟩⟩ :=
    scImportProtNone_cases h
  · exact .inl ⟨by decide, ⟨_, _, rfl⟩, rfl⟩
  have L₀ : Lists fp { w.sc with lock := true } l f := L.congr rfl rfl rfl rfl fun _ _ => rfl
  obtain ⟨reg', f', hreg, rfl, T⟩ := L₀.getFree hfree
  obtain rfl := Option.some.inj hreg
  have hres : sc.reservedRegions ≠ some reg := T.reservedRegions ▸ T.unreserved
  obtain ⟨rest, rfl, L₁⟩ :=
    T.lists.insertSecond hfirst hlen T.off.1 T.off.2 T.struct hres
  have L₂ := L₁.setRegion (a := reg) (r := { (((sc.setNext reg (sc.mem first).next).setNext first
    (some reg)).mem reg) with toExtent := ⟨addr, len, protNone, noOffset⟩, permaPin := false }) rfl
  have hregion : ∀ s : Sc, ∀ n p, ((s.setRegion reg
      ⟨⟨addr, len, protNone, noOffset⟩, n, p⟩).mem reg).toExtent =
        ⟨addr, len, protNone, noOffset⟩ := fun s n p =>
    congrArg ScRegion.toExtent (mem_setRegion_self s reg _)
  have hothers : ∀ r : ScRegion, ∀ a, a ≠ reg →
      ((((sc.setNext reg (sc.mem first).next).setNext first (some reg)).setRegion reg r).mem
        a).toExtent = (w.sc.mem a).toExtent := by
    intro r a ha
    rw [mem_setRegion_of_ne _ ha, extent_setNext, extent_setNext]
    exact T.extent a
  rcases hends with ⟨-, rfl, rfl⟩ | ⟨⟨-, -, hlt⟩, rfl, hroot, rfl⟩
  · exact .inr ⟨first, reg, rest, f', rfl, rfl, haddr, hmod,
      ⟨T.procCount, T.reservedRegions, T.tmpfileSize, hregion _ _ _, hothers _, rfl, rfl,
        .inl ⟨by decide, rfl⟩⟩, L₂.congr rfl rfl rfl rfl fun _ _ => rfl⟩
  · exact .inr ⟨first, reg, rest, f', rfl, rfl, haddr, hmod,
      ⟨T.procCount, T.reservedRegions, T.tmpfileSize, hregion _ _ _, hothers _, rfl, rfl,
        .inr ⟨rfl, hlt, rfl, rfl, hroot⟩⟩, L₂.congr rfl rfl rfl rfl fun _ _ => rfl⟩

end Import
end Subcontexts.Region
