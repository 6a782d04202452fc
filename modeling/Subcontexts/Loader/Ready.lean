import Subcontexts.Loader.Pass
import Subcontexts.Region.Imports

/-! Between two lines of a pass the table is in order: no region is empty, each is where the loader's
own address space has it, and the lines still to come have no address of it. -/

namespace Subcontexts.Loader
open Region
variable {pg : PageSize} {fp : FirstPage pg}

def Taken (s : Sc) (l : List Addr) (rsv : Addr) (x : Nat) : Prop :=
  ∃ a, (a ∈ l ∨ a = rsv) ∧ (s.extent a).vaddr ≤ x ∧ x < (s.extent a).vaddr + (s.extent a).len

structure Ready (fp : FirstPage pg) (w : World) (l f : List Addr) (rsv : Addr) : Prop where
  sharing : Sharing fp ⟨w, []⟩ l f rsv
  positive : ∀ a, a ∈ l ∨ a = rsv → 0 < (w.sc.extent a).len
  hidden : ∀ a ∈ l, ¬ FileBacked (w.sc.extent a) → Held w.space (w.sc.extent a)

structure Line.User (line : Line) : Prop where
  pos : line.start < line.end
  below : line.end ≤ 2 ^ 63

theorem Line.User.len {line : Line} (U : line.User) :
    line.len = line.end - line.start ∧ 0 < line.len ∧ line.start + line.len = line.end := by
  have hpos := U.pos
  have hbelow := U.below
  have hlen : line.len = line.end - line.start := sub64_of_le (by omega) (by omega)
  exact ⟨hlen, by omega, by omega⟩

def Line.Beside (line line' : Line) : Prop := line.end ≤ line'.start ∨ line'.end ≤ line.start

/-- The lines are about user memory, about different parts of it, and about no region. -/
structure Fresh (s : Sc) (l : List Addr) (rsv : Addr) (lines : List Line) : Prop where
  user : ∀ line ∈ lines, line.User
  apart : lines.Pairwise Line.Beside
  clear : ∀ line ∈ lines, ∀ a, a ∈ l ∨ a = rsv → Clear (s.extent a) line.start line.len

section Steps
variable {w w' : World} {l f : List Addr} {rsv : Addr} {line : Line} {lines : List Line}
  {answers : Answers}

theorem Fresh.head (F : Fresh w.sc l rsv (line :: lines)) : line.User ∧
    (∀ a, a ∈ l ∨ a = rsv → Clear (w.sc.extent a) line.start line.len) ∧
    ∀ line' ∈ lines, line.Beside line' :=
  ⟨F.user _ (List.mem_cons_self ..), F.clear _ (List.mem_cons_self ..),
    (List.pairwise_cons.mp F.apart).1⟩

theorem Fresh.tail (F : Fresh w.sc l rsv (line :: lines)) : Fresh w.sc l rsv lines :=
  ⟨fun line' h => F.user line' (List.mem_cons_of_mem _ h), (List.pairwise_cons.mp F.apart).2,
    fun line' h => F.clear line' (List.mem_cons_of_mem _ h)⟩

theorem Fresh.import (F : Fresh w.sc l rsv (line :: lines)) {l' : List Addr} {reg : Addr}
    (hmem : ∀ a, a ∈ l' ↔ a = reg ∨ a ∈ l) (hstart : (w'.sc.extent reg).vaddr = line.start)
    (hlen : (w'.sc.extent reg).len = line.len)
    (hothers : ∀ a, a ∈ l ∨ a = rsv → w'.sc.extent a = w.sc.extent a) :
    Fresh w'.sc l' rsv lines := by
  obtain ⟨huser, -, hbeside⟩ := F.head
  refine ⟨F.tail.user, F.tail.apart, fun line' hline a ha => ?_⟩
  have hold : a ∈ l ∨ a = rsv → Clear (w'.sc.extent a) line'.start line'.len := fun h => by
    rw [hothers a h]
    exact F.tail.clear line' hline a h
  rcases ha with ha | ha
  · rcases (hmem a).mp ha with rfl | ha
    · obtain ⟨-, -, hend⟩ := huser.len
      obtain ⟨-, -, hend'⟩ := (F.tail.user line' hline).len
      have hb := hbeside line' hline
      unfold Line.Beside at hb
      unfold Clear
      omega
    · exact hold (.inl ha)
  · exact hold (.inr ha)

theorem Ready.outside (R : Ready fp w l f rsv)
    (hclear : ∀ a, a ∈ l ∨ a = rsv → Clear (w.sc.extent a) line.start line.len) :
    Outside w.sc line.start line.len := by
  have T := R.sharing.shared
  refine ⟨fun l' hl' a ha => hclear a (.inl ?_), fun rsv' h => hclear rsv' (.inr ?_)⟩
  · rw [← hl'.unique T.lists.active]
    exact ha
  · exact Option.some.inj (h.symm.trans T.files.reserved)

theorem scImport_size {fuel addr len prot : Nat}
    (h : scImport fp answers fuel w addr len prot = .ok (0, w')) :
    u64 (w.sc.tmpfileSize + len) < 2 ^ 63 := by
  obtain ⟨-, -, -, ⟨-, hr, -⟩ | ⟨-, duplicate, -, ⟨-, hr, -⟩ | ⟨-, reg, sc, tail, hfree, -, h⟩⟩⟩ :=
    scImport_cases h
  · cases hr
  · cases hr
  have hlock : sc.lock = true := scGetFreeRegion_lock hfree
  have hsize : sc.tmpfileSize = w.sc.tmpfileSize := by
    unfold scGetFreeRegion at hfree
    obtain ⟨-, -, hfree⟩ := bind_eq_ok.mp hfree
    split at hfree
    · cases hfree
    · split at hfree
      · cases hfree
      · rw [← (Prod.mk.inj (Except.ok.inj hfree)).2]
        rfl
  rcases importBytes_ends hlock h with ⟨-, -, -, htruncates, -⟩ | ⟨hr, -⟩
  · rw [← hsize]
    exact htruncates.2
  · exact absurd rfl hr

structure Stepped (fp : FirstPage pg) (w w' : World) (l : List Addr) (rsv : Addr)
    (lines : List Line) (l' f' : List Addr) (reg : Addr) : Prop where
  mem : ∀ a, a ∈ l' ↔ a = reg ∨ a ∈ l
  ready : Ready fp w' l' f' rsv
  fresh : Fresh w'.sc l' rsv lines
  old : ∀ a, a ∈ l ∨ a = rsv → w'.sc.extent a = w.sc.extent a

theorem Ready.hide (R : Ready fp w l f rsv) (F : Fresh w.sc l rsv (line :: lines))
    (h : scImportProtNone fp answers w line.start line.len = .ok (0, w')) :
    ∃ l' f' reg, Stepped fp w w' l rsv lines l' f' reg ∧ w'.sc.extent reg = line.hidden ∧
      w'.file = w.file ∧ w'.fileSize = w.fileSize ∧
      w'.space = ⟨line.start, line.len, .noAccess⟩ :: w.space := by
  have S := R.sharing
  obtain ⟨huser, hclear, -⟩ := F.head
  obtain ⟨l₁, f₁, S', hlonger, -, hcount⟩ := S.shared.importProtNone S.two (R.outside hclear) h
  rcases scImportProtNone_spec S.shared.lists S.two h with
    ⟨hr, -⟩ | ⟨first, reg, rest, f', rfl, rfl, -, -, H, L'⟩
  · exact absurd rfl hr
  rcases H.space with ⟨hr, -⟩ | ⟨-, -, -, hspace, -⟩
  · exact absurd rfl hr
  obtain rfl := S'.lists.active.unique L'.active
  have hreg : reg ∉ first :: rest := S.shared.lists.free_notMem
  have hrsv : rsv ≠ reg := Lists.reserved_ne S.shared.lists S.shared.files.reserved
    (List.mem_cons_self ..)
  have hmem : ∀ a, a ∈ first :: reg :: rest ↔ a = reg ∨ a ∈ first :: rest := fun a => by
    simp only [List.mem_cons]
    exact or_left_comm
  have hregion : w'.sc.extent reg = line.hidden := H.region
  have hothers : ∀ a, a ∈ first :: rest ∨ a = rsv → w'.sc.extent a = w.sc.extent a :=
    fun a ha => H.others a (ha.elim (fun ha h => hreg (h ▸ ha)) fun ha h => hrsv (ha ▸ h))
  refine ⟨first :: reg :: rest, f₁, reg, ⟨hmem, ⟨⟨S', ?_, ?_⟩, fun a ha => ?_, fun a ha hback => ?_⟩,
    F.import hmem (congrArg Extent.vaddr hregion) (congrArg Extent.len hregion) hothers, hothers⟩,
    hregion, H.file, H.fileSize, hspace⟩
  · exact Nat.le_trans S.two (Nat.le_of_lt hlonger)
  · exact hcount.trans S.count
  · rcases ha with ha | ha
    · rcases (hmem a).mp ha with rfl | ha
      · rw [hregion]
        exact huser.len.2.1
      · rw [hothers a (.inl ha)]
        exact R.positive a (.inl ha)
    · rw [hothers a (.inr ha)]
      exact R.positive a (.inr ha)
  · show Held w'.space (w'.sc.extent a)
    rw [hspace]
    rcases (hmem a).mp ha with rfl | ha
    · rw [hregion]
      exact fun x hlo hhi => ⟨_, AddressSpace.cell_cons_of_covers ⟨hlo, hhi⟩⟩
    · rw [hothers a (.inl ha)] at hback ⊢
      exact (R.hidden a ha hback).beside (v := ⟨line.start, line.len, .noAccess⟩) (hclear a (.inl ha))

theorem Ready.copy (R : Ready fp w l f rsv) (F : Fresh w.sc l rsv (line :: lines)) {fuel : Nat}
    (h : scImport fp answers fuel w line.start line.len line.prot = .ok (0, w')) :
    ∃ l' f' reg, Stepped fp w w' l rsv lines l' f' reg ∧
      w'.sc.extent reg = ⟨line.start, line.len, line.prot, w.sc.tmpfileSize⟩ ∧
      line.prot &&& protRead ≠ 0 ∧ w.sc.tmpfileSize + line.len = w'.sc.tmpfileSize ∧
      Copied fp w w' line.start line.len line.prot w.sc.tmpfileSize w'.sc.tmpfileSize := by
  have S := R.sharing
  obtain ⟨huser, hclear, -⟩ := F.head
  have hbound : w.sc.tmpfileSize < 2 ^ 63 := S.shared.files.bound
  have hsize := scImport_size h
  have hlen := huser.len.1
  have hbelow := huser.below
  rw [u64_of_lt (by omega)] at hsize
  obtain ⟨l₁, f₁, S', hlonger, -, hcount⟩ :=
    S.shared.importFile S.count hsize (R.outside hclear) h
  rcases scImport_spec S.shared.lists h with
    ⟨hr, -⟩ | ⟨reg, f', rfl, M, L', -, -, hread, -, hend⟩
  · exact absurd rfl hr
  rcases hend with ⟨hr, -⟩ | ⟨-, C⟩
  · exact absurd rfl hr
  obtain rfl := S'.lists.active.unique L'.active
  have hreg : reg ∉ l := S.shared.lists.free_notMem
  have hrsv : rsv ≠ reg := Lists.reserved_ne S.shared.lists S.shared.files.reserved
    (List.mem_cons_self ..)
  have hmem : ∀ a, a ∈ l ++ [reg] ↔ a = reg ∨ a ∈ l := mem_append_singleton
  have hregion : w'.sc.extent reg = ⟨line.start, line.len, line.prot, w.sc.tmpfileSize⟩ := M.region
  have hothers : ∀ a, a ∈ l ∨ a = rsv → w'.sc.extent a = w.sc.extent a :=
    fun a ha => M.others a (ha.elim (fun ha h => hreg (h ▸ ha)) fun ha h => hrsv (ha ▸ h))
  have hgrown : w.sc.tmpfileSize + line.len = w'.sc.tmpfileSize := by
    have hnew : w'.sc.tmpfileSize = u64 (w.sc.tmpfileSize + line.len) := M.size
    rw [hnew, u64_of_lt (by omega)]
  refine ⟨l ++ [reg], f₁, reg, ⟨hmem, ⟨⟨S', ?_, ?_⟩, fun a ha => ?_, fun a ha hback => ?_⟩,
    F.import hmem (congrArg Extent.vaddr hregion) (congrArg Extent.len hregion) hothers, hothers⟩,
    hregion, hread, hgrown, C⟩
  · exact Nat.le_trans S.two (Nat.le_of_lt hlonger)
  · exact M.procCount.trans S.count
  · rcases ha with ha | ha
    · rcases (hmem a).mp ha with rfl | ha
      · rw [hregion]
        exact huser.len.2.1
      · rw [hothers a (.inl ha)]
        exact R.positive a (.inl ha)
    · rw [hothers a (.inr ha)]
      exact R.positive a (.inr ha)
  · show Held w'.space (w'.sc.extent a)
    rcases (hmem a).mp ha with rfl | ha
    · refine absurd (fun hoff => ?_) hback
      rw [hregion] at hoff
      have hno : w.sc.tmpfileSize = noOffset := hoff
      unfold noOffset at hno
      omega
    · rw [C.space]
      rw [hothers a (.inl ha)] at hback ⊢
      exact (R.hidden a ha hback).beside
        (v := ⟨line.start, line.len, .file line.prot w.sc.tmpfileSize⟩) (hclear a (.inl ha))

end Steps

section Passes
variable {cs : List Callback} {priv priv' : Priv} {l f : List Addr} {rsv : Addr}

def Stores (s : Sc) (line : Line) (a : Addr) : Prop :=
  line.prot &&& protRead ≠ 0 ∧ ∃ offset, offset ≠ noOffset ∧
    s.extent a = ⟨line.start, line.len, line.prot, offset⟩

theorem Imports.ready (h : Imports fp cs priv priv') (R : Ready fp priv.world l f rsv)
    (F : Fresh priv.world.sc l rsv (priv.kept cs)) :
    ∃ l' f', Ready fp priv'.world l' f' rsv ∧
      (∀ a ∈ l, a ∈ l' ∧ priv'.world.sc.extent a = priv.world.sc.extent a) ∧
      ∀ line ∈ copiedLines (priv.kept cs), ∃ a ∈ l', Stores priv'.world.sc line a := by
  induction h generalizing l f with
  | nil priv =>
    exact ⟨l, f, R, fun a ha => ⟨ha, rfl⟩, fun line hline => absurd hline List.not_mem_nil⟩
  | skip hskips _ ih =>
    rw [Priv.kept_skip hskips] at F ⊢
    exact ih R F
  | hide hkept hread hcall _ ih =>
    rw [Priv.kept_cons hkept] at F ⊢
    rw [copiedLines_hide hread]
    obtain ⟨l₁, f₁, reg, S, -⟩ := R.hide F hcall
    obtain ⟨l', f', R', hold, hstored⟩ := ih S.ready S.fresh
    refine ⟨l', f', R', fun a ha => ?_, hstored⟩
    obtain ⟨ha', hext⟩ := hold a ((S.mem a).mpr (.inr ha))
    exact ⟨ha', hext.trans (S.old a (.inl ha))⟩
  | @copy line answers cs priv priv' world hkept hread hcall _ ih =>
    rw [Priv.kept_cons hkept] at F ⊢
    rw [copiedLines_copy hread]
    obtain ⟨l₁, f₁, reg, S, hregion, hprot, -⟩ := R.copy F hcall
    obtain ⟨l', f', R', hold, hstored⟩ := ih S.ready S.fresh
    refine ⟨l', f', R', fun a ha => ?_, fun line' hline => ?_⟩
    · obtain ⟨ha', hext⟩ := hold a ((S.mem a).mpr (.inr ha))
      exact ⟨ha', hext.trans (S.old a (.inl ha))⟩
    · rcases List.mem_cons.mp hline with rfl | hline
      · obtain ⟨hreg', hext⟩ := hold reg ((S.mem reg).mpr (.inl rfl))
        have hbound : priv.world.sc.tmpfileSize < 2 ^ 63 := R.sharing.shared.files.bound
        have hno : priv.world.sc.tmpfileSize ≠ noOffset := by
          unfold noOffset
          omega
        exact ⟨reg, hreg', hprot, _, hno, hext.trans hregion⟩
      · exact hstored line' hline

theorem Imports.load (h : Imports fp cs priv priv') (R : Ready fp priv.world l f rsv)
    (F : Fresh priv.world.sc l rsv (priv.kept cs)) {x b : Nat}
    (hx : priv.world.load pg x = some b)
    (hidden : ∀ line ∈ hiddenLines (priv.kept cs), ¬ (line.start ≤ x ∧ x < line.end)) :
    priv'.world.load pg x = some b := by
  induction h generalizing l f with
  | nil priv => exact hx
  | skip hskips _ ih =>
    rw [Priv.kept_skip hskips] at F hidden
    exact ih R F hx hidden
  | @hide line answers cs priv priv' world hkept hread hcall _ ih =>
    rw [Priv.kept_cons hkept] at F hidden
    rw [hiddenLines_hide hread] at hidden
    obtain ⟨l₁, f₁, reg, S, -, hfile, hsize, hspace⟩ := R.hide F hcall
    refine ih S.ready S.fresh ?_ fun line h => hidden line (List.mem_cons_of_mem _ h)
    have hout := hidden line (List.mem_cons_self ..)
    obtain ⟨-, -, hend⟩ := F.head.1.len
    have hcell : world.space.cell x = priv.world.space.cell x := by
      rw [hspace]
      refine AddressSpace.cell_cons_of_not_covers ?_
      rintro ⟨hlo, hhi⟩
      exact hout ⟨hlo, hend ▸ hhi⟩
    show world.load pg x = some b
    unfold World.load Region.load at hx ⊢
    rw [hcell, hfile, hsize]
    exact hx
  | @copy line answers cs priv priv' world hkept hread hcall _ ih =>
    rw [Priv.kept_cons hkept] at F hidden
    rw [hiddenLines_copy hread] at hidden
    obtain ⟨l₁, f₁, reg, S, -, hprot, hgrown, C⟩ := R.copy F hcall
    have T := R.sharing.shared
    have hsize : priv.world.fileSize = priv.world.sc.tmpfileSize := T.fileSize
    exact ih S.ready S.fresh (C.load hx hsize hgrown (hsize ▸ T.files.aligned) hprot) hidden

end Passes
end Subcontexts.Loader
