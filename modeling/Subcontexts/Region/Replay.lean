import Subcontexts.Region.Reserve

/-! Whether `sc_join` can replay the region table: its assertions hold on every region as long as
nobody asks `sc_mmap` for memory without access and `tmpfile_size` does not wrap. -/

namespace Subcontexts.Region
variable {pg : PageSize} {fp : FirstPage pg}

structure Replayable (pg : PageSize) (size : Nat) (e : Extent) : Prop where
  aligned : e.prot ≠ protNone → e.tmpfileOffset % pg.bytes = 0
  inside : e.prot ≠ protNone → e.tmpfileOffset + e.len ≤ size
  hidden : e.prot = protNone → e.tmpfileOffset = noOffset

structure Replays (pg : PageSize) (r : Root) (l v : List Addr) : Prop where
  whole : pg.bytes ∣ r.world.sc.tmpfileSize
  bound : r.world.sc.tmpfileSize < 2 ^ 64
  active : ∀ a ∈ l, Replayable pg r.world.sc.tmpfileSize (r.world.sc.extent a)
  reserved : ∀ a ∈ v, (r.world.sc.extent a).tmpfileOffset = noOffset
  pending : ∀ a, r.pendingReservation = some a →
    (r.world.sc.extent a).tmpfileOffset = noOffset
  nonempty : v ≠ []

/-- The condition on a call: an `sc_mmap` that gets its memory asks for some access, and
`tmpfile_size` has room for the length where it is added. -/
def Call.Lasting (s : Sc) : Call → Prop
  | .mmap answers _ length prot _ _ => answers.lookup = true →
    s.tmpfileSize + length < 2 ^ 64 ∧
      (truncates answers (s.tmpfileSize + length) → prot % 256 ≠ protNone)
  | .importFile _ _ addr len _ => s.procCount = 1 →
    (∀ l, (s.links s.activeRegions).Holds l → ∀ a ∈ l, ¬ overlaps (s.extent a) addr len) →
      s.tmpfileSize + len < 2 ^ 64
  | .importProtNone .. => True

def RootEvent.Lasting (r : Root) : RootEvent → Prop
  | .call c => c.Lasting r.world.sc
  | .post .. | .complete | .count _ => True

section Walk
variable {s : Sc} {l : List Addr} {granted : Addr → Bool} {fuel : Nat} {cur : Option Addr}
  {space : Space} {e : Halt}

theorem joinRegion_ok {active answer : Bool} {x : Extent}
    (h : active = true → Replayable pg s.tmpfileSize x)
    (hoff : active = false → x.tmpfileOffset = noOffset) (hbound : s.tmpfileSize < 2 ^ 64) :
    ∃ map, joinRegion pg s.tmpfileSize active x answer space = .ok map := by
  unfold joinRegion
  split
  · rename_i hactive
    obtain ⟨rfl, hprot⟩ := hactive
    have hx := h rfl
    have hin := hx.inside hprot
    have hcheck : u64 (x.tmpfileOffset + x.len) ≤ s.tmpfileSize := by
      rw [u64_of_lt (by omega)]
      exact hin
    rw [check_pos hcheck, check_pos (hx.aligned hprot)]
    exact ⟨_, rfl⟩
  · rename_i hactive
    have hx : x.tmpfileOffset = noOffset := by
      cases active with
      | false => exact hoff rfl
      | true => exact (h rfl).hidden (by_contra fun hprot => hactive ⟨rfl, hprot⟩)
    rw [check_pos hx]
    exact ⟨_, rfl⟩

theorem joinList_error {active : Bool} (hl : Seg (fun a => (s.mem a).next) cur l none)
    (h : ∀ a ∈ l, active = true → Replayable pg s.tmpfileSize (s.extent a))
    (hoff : ∀ a ∈ l, active = false → (s.extent a).tmpfileOffset = noOffset)
    (hbound : s.tmpfileSize < 2 ^ 64)
    (herr : joinList pg s active granted fuel cur space = .error e) : e = .fuel := by
  induction l generalizing cur fuel space with
  | nil =>
    obtain rfl := hl
    cases fuel with
    | zero => exact (Except.error.inj herr).symm
    | succ fuel => cases herr
  | cons a rest ih =>
    obtain ⟨rfl, hrest⟩ := hl
    cases fuel with
    | zero => exact (Except.error.inj herr).symm
    | succ fuel =>
      rw [joinList] at herr
      obtain ⟨map, hmap⟩ : ∃ map, joinRegion pg s.tmpfileSize active (s.mem a).toExtent
          (granted a) space = .ok map :=
        joinRegion_ok (h a (List.mem_cons_self ..)) (hoff a (List.mem_cons_self ..)) hbound
      rw [hmap, ok_bind] at herr
      cases map with
      | none => cases herr
      | some space' =>
        exact ih hrest (fun b hb => h b (List.mem_cons_of_mem _ hb))
          (fun b hb => hoff b (List.mem_cons_of_mem _ hb)) herr

theorem Replays.join_error {r : Root} {l f v : List Addr} (P : Replays pg r l v)
    (K : Homed fp r l f v) {answers : JoinAnswers}
    (herr : scJoin pg answers fuel r.world.sc space = .error e) : e = .blocked ∨ e = .fuel := by
  have hact := K.table.lists.active
  obtain ⟨first, second, rest, rfl⟩ : ∃ first second rest, l = first :: second :: rest := by
    have htwo := K.two
    match l with
    | [] => exact absurd htwo (by decide)
    | [_] => exact absurd htwo (Nat.not_succ_le_self 1)
    | first :: second :: rest => exact ⟨first, second, rest, rfl⟩
  have hhead : r.world.sc.activeRegions = some first := hact.1
  have htail : Seg (fun a => (r.world.sc.mem a).next) (r.world.sc.mem first).next (second :: rest)
    none := hact.2
  have hnext : (r.world.sc.mem first).next ≠ none := by
    rw [htail.1]
    nofun
  have hreserved : r.world.sc.reservedRegions ≠ none := fun h => by
    have hv : v.head? = none := K.table.reserved.head?_eq.trans h
    exact P.nonempty (List.head?_eq_none_iff.mp hv)
  unfold scJoin at herr
  rcases bind_eq_error.mp herr with hlock | ⟨_, -, herr⟩
  · unfold haltIf at hlock
    split at hlock
    · exact .inl (Except.error.inj hlock).symm
    · cases hlock
  rw [hhead] at herr
  dsimp only at herr
  split at herr
  · cases herr
  split at herr
  · cases herr
  rw [haltIf_neg hnext, haltIf_neg hreserved, ok_bind, ok_bind] at herr
  -- the first region is mapped already, so the first walk starts at the second
  rcases bind_eq_error.mp herr with hwalk | ⟨map, -, herr⟩
  · exact .inr (joinList_error htail (fun a ha _ => P.active a (List.mem_cons_of_mem _ ha))
      (fun _ _ h => by cases h) P.bound hwalk)
  · cases map with
    | none => cases herr
    | some space' =>
      have hwalk : joinList pg r.world.sc false answers.region fuel r.world.sc.reservedRegions
        space' = .error e := herr
      exact .inr (joinList_error K.table.reserved (fun _ _ h => by cases h)
        (fun a ha _ => P.reserved a ha) P.bound hwalk)

end Walk

section Steps
variable {r t : Root} {w : World} {l l' f f' v : List Addr} {reg rsv : Addr}

theorem Replayable.mono {size size' : Nat} {e : Extent} (h : Replayable pg size e)
    (hle : size ≤ size') : Replayable pg size' e :=
  ⟨h.aligned, fun hprot => Nat.le_trans (h.inside hprot) hle, h.hidden⟩

theorem Replays.grow (P : Replays pg r l v)
    (hsize : r.world.sc.tmpfileSize ≤ t.world.sc.tmpfileSize)
    (hwhole : pg.bytes ∣ t.world.sc.tmpfileSize) (hbound : t.world.sc.tmpfileSize < 2 ^ 64)
    (hext : ∀ a ∈ l, t.world.sc.extent a = r.world.sc.extent a)
    (hpending : t.pendingReservation = r.pendingReservation)
    (hoff : ∀ a, a ∈ v ∨ r.pendingReservation = some a →
      (t.world.sc.extent a).tmpfileOffset = (r.world.sc.extent a).tmpfileOffset) :
    Replays pg t l v :=
  ⟨hwhole, hbound, fun a ha => hext a ha ▸ (P.active a ha).mono hsize,
    fun a ha => (hoff a (.inl ha)).trans (P.reserved a ha),
    fun a ha => (hoff a (.inr (hpending ▸ ha))).trans (P.pending a (hpending ▸ ha)), P.nonempty⟩

theorem Replays.lengthen {len : Nat} (P : Replays pg r l v)
    (hsize : t.world.sc.tmpfileSize = r.world.sc.tmpfileSize + len) (hdvd : len % pg.bytes = 0)
    (hbound : r.world.sc.tmpfileSize + len < 2 ^ 64)
    (hext : ∀ a ∈ l, t.world.sc.extent a = r.world.sc.extent a)
    (hpending : t.pendingReservation = r.pendingReservation)
    (hoff : ∀ a, a ∈ v ∨ r.pendingReservation = some a →
      (t.world.sc.extent a).tmpfileOffset = (r.world.sc.extent a).tmpfileOffset) :
    Replays pg t l v := by
  have hwhole : pg.bytes ∣ r.world.sc.tmpfileSize + len :=
    Nat.dvd_add P.whole (Nat.dvd_of_mod_eq_zero hdvd)
  exact P.grow (hsize ▸ Nat.le_add_right _ _) (hsize ▸ hwhole) (hsize ▸ hbound) hext hpending hoff

theorem Replays.add (P : Replays pg t l v)
    (hreg : Replayable pg t.world.sc.tmpfileSize (t.world.sc.extent reg))
    (hmem : ∀ a ∈ l', a = reg ∨ a ∈ l) : Replays pg t l' v := by
  refine ⟨P.whole, P.bound, fun a ha => ?_, P.reserved, P.pending, P.nonempty⟩
  rcases hmem a ha with rfl | ha
  · exact hreg
  · exact P.active a ha

theorem Replays.congr (P : Replays pg r l v) (hsize : t.world.sc.tmpfileSize = r.world.sc.tmpfileSize)
    (hext : ∀ a, t.world.sc.extent a = r.world.sc.extent a)
    (hpending : t.pendingReservation = r.pendingReservation) : Replays pg t l v :=
  P.grow (Nat.le_of_eq hsize.symm) (hsize ▸ P.whole) (hsize ▸ P.bound) (fun a _ => hext a) hpending
    fun a _ => by rw [hext a]

theorem Carved.offset {s s' : Sc} {length prot : Nat} (C : Carved s s' reg rsv length prot)
    {a : Addr} (ha : a ≠ reg) : (s'.extent a).tmpfileOffset = (s.extent a).tmpfileOffset := by
  by_cases hrsv : a = rsv
  · have hrest : s'.extent rsv = _ := C.rest
    rw [hrsv, hrest]
    rfl
  · exact congrArg Extent.tmpfileOffset (C.others a ha hrsv)

theorem Table.ne_free {s : Sc} {pending : Option Addr} (T : Table fp s l (reg :: f) v)
    (hpending : ∀ a, pending = some a → a ∉ reg :: f) {a : Addr}
    (ha : a ∈ l ∨ a ∈ v ∨ pending = some a) : a ≠ reg := by
  rintro rfl
  have hfree : a ∈ a :: f := List.mem_cons_self ..
  rcases ha with ha | ha | ha
  · exact T.lists.apart a ha hfree
  · exact (T.apart a ha).2 hfree
  · exact hpending a ha hfree

theorem Homed.ne_free (K : Homed fp r l (reg :: f) v) {a : Addr}
    (ha : a ∈ l ∨ a ∈ v ∨ r.pendingReservation = some a) : a ≠ reg :=
  K.table.ne_free (fun a h => (K.pending a h).2.1) ha

theorem Homed.of_table {c : Call} (K : Homed fp r l f v) (h : Returns fp r.world c w)
    (T : Table fp w.sc l' f' v) : Homed fp { r with world := w } l' f' v := by
  obtain ⟨l₁, f₁, K₁, -⟩ := K.call h
  obtain rfl := K₁.table.lists.active.unique T.lists.active
  obtain rfl := K₁.table.lists.free.unique T.lists.free
  exact K₁

theorem Replays.mmap {answers : Answers} {addr length prot : Nat} {fd offset : Int} {x : Option Nat}
    (P : Replays pg r l v) (T : Table fp r.world.sc l f v)
    (hpending : ∀ a, r.pendingReservation = some a → a ∉ f)
    (hlasting : (Call.mmap answers addr length prot fd offset).Lasting r.world.sc)
    (h : scMmap fp answers r.world addr length prot fd offset = .ok (x, w)) :
    ∃ l' f', Table fp w.sc l' f' v ∧ Replays pg { r with world := w } l' v := by
  have hwhole := P.whole
  rcases scMmap_ends h with ⟨-, -, rfl⟩ | ⟨hlookup, -, -, hdvd, -, rfl⟩ | ⟨hlookup, htruncates, hx⟩
  · exact ⟨l, f, T, P.congr rfl (fun _ => rfl) rfl⟩
  · obtain ⟨hbound, -⟩ := hlasting hlookup
    -- the file has grown, but there is no region for what it got
    exact ⟨l, f, T.same rfl rfl rfl rfl rfl,
      P.lengthen (u64_of_lt hbound) hdvd hbound (fun _ _ => rfl) rfl fun _ _ => rfl⟩
  · obtain ⟨hbound, hprot⟩ := hlasting hlookup
    have hnat := u64_of_lt hbound
    rw [hnat] at htruncates
    rcases T.mmap h with ⟨hnone, -⟩ | ⟨hdvd, reg, rsv, f', v', rfl, rfl, M, T'⟩
    · exact absurd hnone hx
    have hsize : w.sc.tmpfileSize = r.world.sc.tmpfileSize + length := M.size.trans hnat
    have hnew : w.sc.extent reg =
        ⟨(r.world.sc.mem rsv).vaddr, length, prot % 256, r.world.sc.tmpfileSize⟩ := by
      have hregion : w.sc.extent reg = _ := M.carved.region
      rw [hregion, hsize, sub64_of_le (by omega) hbound, Nat.add_sub_cancel]
    have hreg : Replayable pg w.sc.tmpfileSize (w.sc.extent reg) := by
      rw [hnew, hsize]
      exact ⟨fun _ => Nat.mod_eq_zero_of_dvd hwhole, fun _ => Nat.le_refl _,
        fun h => absurd h (hprot htruncates)⟩
    have G : Replays pg { r with world := w } l (rsv :: v') := by
      refine P.lengthen hsize hdvd hbound (fun a ha => ?_) rfl fun a ha => ?_
      · have hrsv : a ≠ rsv := fun h => (T.apart rsv (List.mem_cons_self ..)).1 (h ▸ ha)
        exact M.carved.others a (T.ne_free hpending (.inl ha)) hrsv
      · exact M.carved.offset (T.ne_free hpending (.inr ha))
    exact ⟨l ++ [reg], f', T', G.add hreg fun a => (mem_append_singleton a).mp⟩

theorem Replays.importFile {answers : Answers} {fuel addr len prot : Nat} {x : Int}
    (P : Replays pg r l v) (K : Homed fp r l f v)
    (hlasting : (Call.importFile answers fuel addr len prot).Lasting r.world.sc)
    (h : scImport fp answers fuel r.world addr len prot = .ok (x, w)) :
    ∃ l' f', Table fp w.sc l' f' v ∧ Replays pg { r with world := w } l' v := by
  have hwhole := P.whole
  rcases K.table.importFile h with ⟨-, hun, hsize⟩ | ⟨hdvd, hread, reg, f', rfl, I, hnodup, T'⟩
  · exact ⟨l, f, K.table.untouched hun, P.congr hsize (congrFun hun.extent) rfl⟩
  have hbound := hlasting I.alone fun l' hl' a ha =>
    hnodup a (K.table.lists.active.unique hl' ▸ ha)
  have hsize : w.sc.tmpfileSize = r.world.sc.tmpfileSize + len := I.size.trans (u64_of_lt hbound)
  have hnew : w.sc.extent reg = ⟨addr, len, prot, r.world.sc.tmpfileSize⟩ := I.region
  have hreg : Replayable pg w.sc.tmpfileSize (w.sc.extent reg) := by
    rw [hnew, hsize]
    refine ⟨fun _ => Nat.mod_eq_zero_of_dvd hwhole, fun _ => Nat.le_refl _, fun hprot => ?_⟩
    -- the import has checked that it may read
    have hnone : prot = 0 := hprot
    exact absurd (by rw [hnone]; rfl) hread
  have G : Replays pg { r with world := w } l v := by
    refine P.lengthen hsize hdvd hbound (fun a ha => ?_) rfl fun a ha => ?_
    · exact I.others a (K.ne_free (.inl ha))
    · exact congrArg Extent.tmpfileOffset (I.others a (K.ne_free (.inr ha)))
  exact ⟨l ++ [reg], f', T', G.add hreg fun a => (mem_append_singleton a).mp⟩

theorem Replays.importProtNone {answers : Answers} {addr len : Nat} {x : Int}
    (P : Replays pg r l v) (K : Homed fp r l f v)
    (h : scImportProtNone fp answers r.world addr len = .ok (x, w)) :
    ∃ l' f', Table fp w.sc l' f' v ∧ Replays pg { r with world := w } l' v := by
  rcases K.table.importProtNone K.two h with
    ⟨-, hun, hsize⟩ | ⟨first, reg, rest, f', rfl, rfl, H, T'⟩
  · exact ⟨l, f, K.table.untouched hun, P.congr hsize (congrFun hun.extent) rfl⟩
  have hsize : w.sc.tmpfileSize = r.world.sc.tmpfileSize := H.size
  have hnew : w.sc.extent reg = ⟨addr, len, protNone, noOffset⟩ := H.region
  have hreg : Replayable pg w.sc.tmpfileSize (w.sc.extent reg) := by
    rw [hnew]
    exact ⟨fun h => absurd rfl h, fun h => absurd rfl h, fun _ => rfl⟩
  have G : Replays pg { r with world := w } (first :: rest) v :=
    P.grow (Nat.le_of_eq hsize.symm) (hsize ▸ P.whole) (hsize ▸ P.bound)
      (fun a ha => H.others a (K.ne_free (.inl ha))) rfl
      fun a ha => congrArg Extent.tmpfileOffset (H.others a (K.ne_free (.inr ha)))
  refine ⟨first :: reg :: rest, f', T', G.add hreg fun a ha => ?_⟩
  simpa only [List.mem_cons, or_left_comm] using ha

theorem Replays.call {c : Call} (P : Replays pg r l v) (K : Homed fp r l f v)
    (hlasting : c.Lasting r.world.sc) (h : Returns fp r.world c w) :
    ∃ l' f', Homed fp { r with world := w } l' f' v ∧ Replays pg { r with world := w } l' v := by
  have htable : ∃ l' f', Table fp w.sc l' f' v ∧ Replays pg { r with world := w } l' v := by
    obtain ⟨success, h⟩ := h
    cases c with
    | mmap =>
      obtain ⟨retval, hcall, -⟩ := Call.mmap_eq_ok h
      exact P.mmap K.table (fun a h => (K.pending a h).2.1) hlasting hcall
    | importFile =>
      obtain ⟨rc, hcall, -⟩ := Call.importFile_eq_ok h
      exact P.importFile K hlasting hcall
    | importProtNone =>
      obtain ⟨rc, hcall, -⟩ := Call.importProtNone_eq_ok h
      exact P.importProtNone K hcall
  obtain ⟨l', f', T', P'⟩ := htable
  exact ⟨l', f', K.of_table h T', P'⟩

theorem Replays.step {e : RootEvent} (P : Replays pg r l v) (K : Homed fp r l f v)
    (hlasting : e.Lasting r) (h : e.step fp r t) :
    ∃ l' f' v', Homed fp t l' f' v' ∧ Replays pg t l' v' := by
  rcases RootEvent.step_cases K h with ⟨c, w, rfl, hret, rfl⟩ |
    ⟨answers, pages, reg, f', rfl, rfl, Q, hend⟩ | ⟨a, rfl, ha, hnone, T, hsize, hext⟩ |
    ⟨n, rfl, rfl⟩
  · obtain ⟨l', f', K', P'⟩ := P.call K hlasting hret
    exact ⟨l', f', v, K', P'⟩
  · have hl : ∀ a ∈ l, t.world.sc.extent a = r.world.sc.extent a := fun a ha =>
      Q.others a (K.ne_free (.inl ha))
    have hv : ∀ a ∈ v, t.world.sc.extent a = r.world.sc.extent a := fun a ha =>
      Q.others a (K.ne_free (.inr (.inl ha)))
    have hpending : t.pendingReservation = none ∨ t.pendingReservation = some reg :=
      hend.imp And.right fun h => h.2.1
    refine ⟨l, f', v, K.took Q hpending, Q.size ▸ P.whole, Q.size ▸ P.bound, fun a ha => ?_,
      fun a ha => ?_, fun a ha => ?_, P.nonempty⟩
    · rw [hl a ha, Q.size]
      exact P.active a ha
    · rw [hv a ha]
      exact P.reserved a ha
    · rcases hend with ⟨-, hnone⟩ | ⟨-, hsome, hoff⟩
      · cases hnone.symm.trans ha
      · obtain rfl := Option.some.inj (hsome.symm.trans ha)
        exact hoff
  · refine ⟨l, f, a :: v, K.complete T hnone, hsize ▸ P.whole, hsize ▸ P.bound, fun b hb => ?_,
      fun b hb => ?_, fun b hb => ?_, List.cons_ne_nil a v⟩
    · rw [hext, hsize]
      exact P.active b hb
    · rw [hext]
      rcases List.mem_cons.mp hb with rfl | hb
      · exact P.pending b ha
      · exact P.reserved b hb
    · cases hnone.symm.trans hb
  · exact ⟨l, f, v, K.count n, P.congr rfl (fun _ => rfl) rfl⟩

end Steps

section Main
variable {r : Root}

theorem initRoot_replays {area : Nat} {mem : Addr → ScRegion} {r : Root}
    (hsc : r.world.sc = initRoot fp area mem) (hnone : r.pendingReservation = none) :
    Replays pg r [fp.regions 0] [fp.regions 1] := by
  have h0 : (initRoot fp area mem).extent (fp.regions 0) = _ := extent_initRoot_first
  have h1 : (initRoot fp area mem).extent (fp.regions 1) = _ := extent_initRoot_reserved
  have hsize : (initRoot fp area mem).tmpfileSize = pg.bytes := tmpfileSize_initRoot
  have hlt := pg.lt
  refine ⟨?_, ?_, fun a ha => ?_, fun a ha => ?_, fun a ha => ?_, List.cons_ne_nil _ _⟩
  · exact hsc ▸ hsize ▸ Nat.dvd_refl _
  · rw [hsc, hsize]
    omega
  · rw [List.mem_singleton.mp ha, hsc, h0, hsize]
    exact ⟨fun _ => Nat.zero_mod _, fun _ => Nat.le_of_eq (Nat.zero_add _), nofun⟩
  · rw [List.mem_singleton.mp ha, hsc, h1]
  · cases hnone.symm.trans ha

theorem Started.replays {w : World} (h : Started fp w) : ∃ l f v,
    Table fp w.sc l f v ∧ Replays pg ⟨w, none, []⟩ l v := by
  have hsmall : ∃ l f rsv, Table fp w.sc l f [rsv] ∧ Replays pg ⟨w, none, []⟩ l [rsv] ∧
      w.sc.tmpfileSize + (w.sc.extent rsv).len ≤ pg.bytes + reservedLen := by
    refine Started.induct (P := fun w => ∃ l f rsv, Table fp w.sc l f [rsv] ∧
      Replays pg ⟨w, none, []⟩ l [rsv] ∧
        w.sc.tmpfileSize + (w.sc.extent rsv).len ≤ pg.bytes + reservedLen) h
      (fun area w₀ _ => ⟨_, _, _, initRoot_table, initRoot_replays rfl rfl, ?_⟩) ?_
      fun w ⟨l, f, rsv, T, P, hle⟩ => ⟨l, f, rsv, T.registered, P.congr rfl (fun _ => rfl) rfl, hle⟩
    · show (initRoot fp area w₀.sc.mem).tmpfileSize +
        ((initRoot fp area w₀.sc.mem).extent (fp.regions 1)).len ≤ _
      rw [tmpfileSize_initRoot, extent_initRoot_reserved]
    · rintro answers w length x w' ⟨l, f, rsv, T, P, hle⟩ hcall
      rcases T.mmap hcall with ⟨hx, -⟩ | ⟨-, reg, rsv', f', v', rfl, hv, M, T'⟩
      · cases hx
      obtain ⟨rfl, rfl⟩ := List.cons.inj hv
      have hfits : length < (w.sc.extent rsv).len := M.carved.fits
      have hlt := pg.lt
      have hbound : w.sc.tmpfileSize + length < 2 ^ 64 := by
        unfold reservedLen at hle
        omega
      obtain ⟨l₁, f₁, T₁, P₁⟩ := P.mmap (r := ⟨w, none, []⟩) T (fun a h => by cases h)
        (fun _ => ⟨hbound, fun _ => by decide⟩) hcall
      refine ⟨l₁, f₁, rsv, T₁, P₁, ?_⟩
      have hsize : w'.sc.tmpfileSize = w.sc.tmpfileSize + length := M.size.trans (u64_of_lt hbound)
      have hrest : (w'.sc.extent rsv).len = (w.sc.extent rsv).len - length :=
        congrArg Extent.len M.carved.rest
      omega
  obtain ⟨l, f, rsv, T, P, -⟩ := hsmall
  exact ⟨l, f, [rsv], T, P⟩

theorem Root.init.replays (h : r.init fp) : ∃ l f v, Homed fp r l f v ∧ Replays pg r l v := by
  obtain ⟨l, f, v, T, P⟩ := h.1.replays
  refine ⟨l, f, v, ⟨T, h.1.two_le T, fun a ha => ?_⟩, P.congr rfl (fun _ => rfl) h.2.1⟩
  cases h.2.1.symm.trans ha

theorem table_replayable (h : Trans.Reach (Root.init fp)
      (Trans.Guarded RootEvent.Lasting (RootEvent.step fp)) r) :
    ∃ l v, (r.world.sc.links r.world.sc.activeRegions).Holds l ∧
      (r.world.sc.links r.world.sc.reservedRegions).Holds v ∧
      (∀ a ∈ l, Replayable pg r.world.sc.tmpfileSize (r.world.sc.extent a)) ∧
      (∀ a ∈ v, (r.world.sc.extent a).tmpfileOffset = noOffset) ∧
      ∀ answers fuel space e, scJoin pg answers fuel r.world.sc space = .error e →
        e = .blocked ∨ e = .fuel := by
  have hinv : ∃ l f v, Homed fp r l f v ∧ Replays pg r l v := by
    refine h.inv (fun _ h => h.replays) fun r e t ⟨l, f, v, K, P⟩ ⟨hlasting, hst⟩ => ?_
    exact P.step K hlasting hst
  obtain ⟨l, f, v, K, P⟩ := hinv
  exact ⟨l, v, K.table.lists.active, K.table.reserved, P.active, P.reserved,
    fun answers fuel space e herr => P.join_error K herr⟩

end Main

section Run

/-- Two pages from `sc_mmap`, a range without access, and a reservation by a second process. -/
theorem table_replayable_reserved : ∃ r, Trans.Reach (Root.init firstPage4096)
    (Trans.Guarded RootEvent.Lasting (RootEvent.step firstPage4096)) r ∧
      (r.world.sc.links r.world.sc.reservedRegions).Holds
        [firstPage4096.regions 5, firstPage4096.regions 1] ∧
      ∀ answers fuel space e, scJoin page4096 answers fuel r.world.sc space = .error e →
        e = .blocked ∨ e = .fuel := by
  obtain ⟨w₀, hinit, w₁, hmmap, hsize, w₂, hhide, hlock, r₄, hpost, r₅, hcomplete, hholds⟩ :
      ∃ w₀, scInit firstPage4096 initAnswers 10 emptyWorld = .ok (some w₀) ∧
        ∃ w₁, (Call.mmap granted 0 0x2000 3 (-1) 0).run firstPage4096 w₀ = .ok (true, w₁) ∧
        w₀.sc.tmpfileSize = 0x2000 ∧
        ∃ w₂, (Call.importProtNone granted 0x400000 0x1000).run firstPage4096 w₁ =
          .ok (true, w₂) ∧
        w₂.sc.lock = false ∧
        ∃ r₄, scPostNewReservation page4096 ⟨true, true, some 0x500000⟩
          ⟨{ w₂ with sc := { w₂.sc with procCount := 2, lock := true } }, none, []⟩ 2 =
            .ok (0, r₄) ∧
        ∃ r₅, cleanup { r₄ with world := { r₄.world with sc := { r₄.world.sc with lock := true } } } =
          .ok r₅ ∧
        (r₅.world.sc.links r₅.world.sc.reservedRegions).Holds
          [firstPage4096.regions 5, firstPage4096.regions 1] :=
    ⟨_, rfl, _, rfl, rfl, _, rfl, rfl, _, rfl, _, rfl, rfl, rfl, rfl⟩
  have h₀ : Trans.Reach (Root.init firstPage4096)
      (Trans.Guarded RootEvent.Lasting (RootEvent.step firstPage4096)) ⟨w₀, none, []⟩ :=
    .init ⟨⟨initAnswers, 10, emptyWorld, initAnswers_promise, hinit⟩, rfl, rfl⟩
  have hlasting : (Call.mmap granted 0 0x2000 3 (-1) 0).Lasting w₀.sc :=
    fun _ => ⟨by rw [hsize]; decide, fun _ => by decide⟩
  have h₁ := h₀.step (l := RootEvent.call (.mmap granted 0 0x2000 3 (-1) 0))
    ⟨hlasting, w₁, ⟨true, hmmap⟩, rfl⟩
  have h₂ := h₁.step (l := RootEvent.call (.importProtNone granted 0x400000 0x1000))
    ⟨trivial, w₂, ⟨true, hhide⟩, rfl⟩
  have h₃ := h₂.step (l := RootEvent.count 2) ⟨trivial, hlock, rfl⟩
  have h₄ := h₃.step (l := RootEvent.post ⟨true, true, some 0x500000⟩ 2)
    ⟨trivial, _, _, _, if_neg (by simp [hlock]), hpost, rfl⟩
  have h₅ := h₄.step (l := RootEvent.complete) ⟨trivial, _, _, rfl, hcomplete, rfl⟩
  obtain ⟨l, v, -, -, -, -, hjoin⟩ := table_replayable h₅
  exact ⟨_, h₅, hholds, hjoin⟩

/-- `sc_mmap` takes `PROT_NONE`, and gives the region a place in the file. -/
theorem mmap_protNone_stops_join : ∃ r, Trans.Reach (Root.init firstPage4096)
    (RootEvent.step firstPage4096) r ∧
      (∃ l, (r.world.sc.links r.world.sc.activeRegions).Holds l ∧
        ∃ a ∈ l, r.world.sc.extent a = ⟨0x101000, 0x2000, protNone, 0x2000⟩) ∧
      scJoin page4096 joinGranted 10 r.world.sc [] = .error .assertion := by
  obtain ⟨w₀, hinit, w₁, hmmap, hholds, hregion, hjoin⟩ :
      ∃ w₀, scInit firstPage4096 initAnswers 10 emptyWorld = .ok (some w₀) ∧
        ∃ w₁, (Call.mmap granted 0 0x2000 0 (-1) 0).run firstPage4096 w₀ = .ok (true, w₁) ∧
        (w₁.sc.links w₁.sc.activeRegions).Holds [firstPage4096.regions 0,
          firstPage4096.regions 2, firstPage4096.regions 3] ∧
        w₁.sc.extent (firstPage4096.regions 3) = ⟨0x101000, 0x2000, protNone, 0x2000⟩ ∧
        scJoin page4096 joinGranted 10 w₁.sc [] = .error .assertion :=
    ⟨_, rfl, _, rfl, ⟨rfl, rfl, rfl, rfl⟩, rfl, rfl⟩
  have h₀ : Trans.Reach (Root.init firstPage4096) (RootEvent.step firstPage4096)
      ⟨w₀, none, []⟩ :=
    .init ⟨⟨initAnswers, 10, emptyWorld, initAnswers_promise, hinit⟩, rfl, rfl⟩
  have h₁ := h₀.step (l := RootEvent.call (.mmap granted 0 0x2000 0 (-1) 0))
    ⟨w₁, ⟨true, hmmap⟩, rfl⟩
  exact ⟨_, h₁, ⟨_, hholds, _, by simp, hregion⟩, hjoin⟩

end Run
end Subcontexts.Region
