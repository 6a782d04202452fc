import Subcontexts.Loader.Ready

/-! The run of `subcontexts_init` up to `app_main`: the first pass goes over the maps file that was
saved before `sc_init`, the others over the one of their time. -/

namespace Subcontexts.Loader
open Region
variable {pg : PageSize}

section Model
variable (fp : FirstPage pg) (parse : ParseProcMaps)

/-- The passes that come to their end: how each of them starts, its lines, and what it leaves. -/
inductive Ran : Priv → List Callback → Priv → Prop where
  | first {w : World} {ignoreFile1 ignoreFile2 : Stat} {found : Found} {after : Priv} :
    Started fp w →
    pass fp parse ⟨w, false, ignoreFile1, ignoreFile2, 0, false⟩ false found = .ok after →
    after.kill = false →
    Ran (Priv.start ⟨w, false, ignoreFile1, ignoreFile2, 0, false⟩ false found.space) found.lines after
  | next {before mid after : Priv} {cs : List Callback} {found : Found} :
    Ran before cs mid → pass fp parse mid true found = .ok after → after.kill = false →
    Ran (mid.start true found.space) found.lines after

/-- Nobody has mapped anything over the addresses of the subcontext. -/
def Undisturbed (w : World) (space : Space) : Prop :=
  ∀ l rsv, (w.sc.links w.sc.activeRegions).Holds l → w.sc.reservedRegions = some rsv →
    ∀ x, Taken w.sc l rsv x → space.cell x = w.space.cell x

structure Listed (lines : List Line) : Prop where
  user : ∀ line ∈ lines, line.User
  apart : lines.Pairwise Line.Beside

def Mapped (space : Space) (lines : List Line) : Prop :=
  ∀ line ∈ lines, ∀ x, line.start ≤ x → x < line.end → space.cell x ≠ none

def Private (space : Space) (lines : List Line) : Prop :=
  ∀ line ∈ lines, ∀ x, line.start ≤ x → x < line.end →
    ∃ prot bytes k, space.cell x = some (.anon prot bytes, k)

/-- The kernel puts the maps of `sc_init` into free ranges of the address space `w₀.space`. -/
structure Granted (answers : InitAnswers) (w₀ : World) : Prop where
  page : w₀.space.Free fp.base pg.bytes
  area : ∀ area, answers.area = some area → Ranges fp area ∧ w₀.space.Free area reservedLen

/-- Passes for which the kernel has kept its promises: the maps file was saved in `w₀` for the first
of them, and tells what is mapped for the others. -/
inductive Passed : Priv → List Callback → Priv → Prop where
  | first {answers : InitAnswers} {fuel : Nat} {w₀ w : World} {ignoreFile1 ignoreFile2 : Stat}
      {found : Found} {before after : Priv} :
    scInit fp answers fuel w₀ = .ok (some w) → Granted fp answers w₀ → Undisturbed w found.space →
    before = Priv.start ⟨w, false, ignoreFile1, ignoreFile2, 0, false⟩ false found.space →
    Listed (before.kept found.lines) → Mapped w₀.space (before.kept found.lines) →
    pass fp parse ⟨w, false, ignoreFile1, ignoreFile2, 0, false⟩ false found = .ok after →
    after.kill = false → Passed before found.lines after
  | next {before₀ mid before after : Priv} {cs : List Callback} {found : Found} :
    Passed before₀ cs mid → Undisturbed mid.world found.space →
    before = mid.start true found.space →
    Listed (before.kept found.lines) → Private found.space (before.kept found.lines) →
    pass fp parse mid true found = .ok after → after.kill = false →
    Passed before found.lines after

end Model

variable {fp : FirstPage pg} {parse : ParseProcMaps}

section Clear
variable {w : World} {l f : List Addr} {rsv : Addr} {lines : List Line} {space : Space}

theorem clear_of_not_meet {e : Extent} {start len : Nat} (he : 0 < e.len) (hlen : 0 < len)
    (h : ∀ x, start ≤ x → x < start + len → ¬ (e.vaddr ≤ x ∧ x < e.vaddr + e.len)) :
    Clear e start len := by
  by_contra hmeet
  unfold Clear at hmeet
  by_cases hle : e.vaddr ≤ start
  · exact h start (Nat.le_refl _) (by omega) ⟨hle, by omega⟩
  · exact h e.vaddr (by omega) (by omega) ⟨Nat.le_refl _, by omega⟩

theorem Ready.fresh (R : Ready fp w l f rsv) (hlisted : Listed lines)
    (h : ∀ line ∈ lines, ∀ x, line.start ≤ x → x < line.end → ¬ Taken w.sc l rsv x) :
    Fresh w.sc l rsv lines := by
  refine ⟨hlisted.user, hlisted.apart, fun line hline a ha => ?_⟩
  obtain ⟨-, hpos, hend⟩ := (hlisted.user line hline).len
  refine clear_of_not_meet (R.positive a ha) hpos fun x hlo hhi hx => ?_
  exact h line hline x hlo (hend ▸ hhi) ⟨a, ha, hx⟩

theorem Ready.not_private (R : Ready fp w l f rsv) {x prot k : Nat} {bytes : Nat → Nat}
    (hx : w.space.cell x = some (.anon prot bytes, k)) : ¬ Taken w.sc l rsv x := by
  rintro ⟨a, ha, hlo, hhi⟩
  have V : View w.sc l rsv w.space := R.sharing.shared.views w.space (List.mem_cons_self ..)
  have hheld : Held w.space (w.sc.extent a) → False := fun h => by
    obtain ⟨k', hk⟩ := h x hlo hhi
    rw [hk] at hx
    cases hx
  rcases ha with ha | rfl
  · by_cases hback : FileBacked (w.sc.extent a)
    · rcases V.active a ha x _ ⟨hback, hlo, hhi, rfl⟩ with ⟨-, k', hk⟩ | ⟨offset, k', hk, -⟩
      · rw [hk] at hx
        cases hx
      · rw [hk] at hx
        cases hx
    · exact hheld (R.hidden a ha hback)
  · exact hheld V.reserved

theorem Ready.respace (R : Ready fp w l f rsv) (h : Undisturbed w space) :
    Ready fp { w with space := space } l f rsv := by
  have T := R.sharing.shared
  have V : View w.sc l rsv w.space := T.views w.space (List.mem_cons_self ..)
  have hcell : ∀ a, a ∈ l ∨ a = rsv → ∀ x, (w.sc.extent a).vaddr ≤ x →
      x < (w.sc.extent a).vaddr + (w.sc.extent a).len → space.cell x = w.space.cell x :=
    fun a ha x hlo hhi => h l rsv T.lists.active T.files.reserved x ⟨a, ha, hlo, hhi⟩
  refine ⟨⟨⟨T.lists, T.files, T.fileSize, T.unlocked, fun space' h' => ?_⟩, R.sharing.two,
    R.sharing.count⟩, R.positive, fun a ha hback x hlo hhi => ?_⟩
  · obtain rfl := List.mem_singleton.mp h'
    refine ⟨fun a ha x o hx => ?_, fun x hlo hhi => ?_⟩
    · show (_ ∧ ∃ k, space'.cell x = _) ∨ ∃ offset k, space'.cell x = _ ∧ _
      rw [hcell a (.inl ha) x hx.2.1 hx.2.2.1]
      exact V.active a ha x o hx
    · show ∃ k, space'.cell x = _
      rw [hcell rsv (.inr rfl) x hlo hhi]
      exact V.reserved x hlo hhi
  · show ∃ k, space.cell x = _
    rw [hcell a (.inl ha) x hlo hhi]
    exact R.hidden a ha hback x hlo hhi

end Clear

section Init
variable {answers : InitAnswers} {fuel area : Nat} {w₀ w w' : World}

def InArea (area : Nat) (e : Extent) : Prop :=
  area ≤ e.vaddr ∧ e.vaddr + e.len ≤ area + reservedLen

structure Cut (fp : FirstPage pg) (area : Nat) (w : World) : Prop where
  addresses : area + reservedLen < 2 ^ 64
  lists : ∃ l f, Lists fp w.sc l f ∧ ∀ a ∈ l, 0 < (w.sc.extent a).len ∧
    (w.sc.extent a).prot ≠ protNone ∧ (InArea area (w.sc.extent a) ∨
      (w.sc.extent a).vaddr = fp.base ∧ (w.sc.extent a).len = pg.bytes)
  reserved : ∃ rsv, w.sc.reservedRegions = some rsv ∧ 0 < (w.sc.extent rsv).len ∧
    InArea area (w.sc.extent rsv)

theorem initWorld_cut (R : Ranges fp area) (w₀ : World) : Cut fp area (initWorld fp area w₀) := by
  have h0 : (initRoot fp area w₀.sc.mem).extent (fp.regions 0) = _ := extent_initRoot_first
  have h1 : (initRoot fp area w₀.sc.mem).extent (fp.regions 1) = _ := extent_initRoot_reserved
  refine ⟨R.reserved, ⟨_, _, initRoot_lists, fun a ha => ?_⟩, ⟨_, reservedRegions_initRoot, ?_, ?_⟩⟩
  · obtain rfl := List.mem_singleton.mp ha
    show 0 < ((initRoot fp area w₀.sc.mem).extent (fp.regions 0)).len ∧ _
    rw [show (initWorld fp area w₀).sc.extent (fp.regions 0) = _ from h0, h0]
    exact ⟨pg.pos, (by decide : protRead ||| protWrite ≠ protNone), .inr ⟨rfl, rfl⟩⟩
  · show 0 < ((initRoot fp area w₀.sc.mem).extent (fp.regions 1)).len
    rw [h1]
    exact (by decide : 0 < reservedLen)
  · show InArea area ((initRoot fp area w₀.sc.mem).extent (fp.regions 1))
    rw [h1]
    exact ⟨Nat.le_refl _, Nat.le_refl _⟩

theorem Cut.mmap (C : Cut fp area w) {ans : Answers} {length v : Nat}
    (h : scMmap fp ans w 0 length (protRead ||| protWrite) (-1) 0 = .ok (some v, w')) :
    Cut fp area w' := by
  obtain ⟨l, f, L, hl⟩ := C.lists
  obtain ⟨rsv, hrsv, -, hlo, hhi⟩ := C.reserved
  rcases scMmap_spec L h with ⟨hr, -⟩ | ⟨hpos, -, reg, rsv', f', -, rfl, M, L'⟩
  · cases hr
  obtain rfl : rsv = rsv' := Option.some.inj (hrsv.symm.trans M.carved.reserved)
  have hreg : reg ∉ l := L.free_notMem
  have hnot : rsv ∉ l := (L.reserved rsv hrsv).1
  have hfits : length < (w.sc.extent rsv).len := M.carved.fits
  have haddr := C.addresses
  have hregion : w'.sc.extent reg = _ := M.carved.region
  have hrest : w'.sc.extent rsv = _ := M.carved.rest
  have hvaddr : u64 ((w.sc.mem rsv).vaddr + length) = (w.sc.extent rsv).vaddr + length :=
    u64_of_lt (show (w.sc.extent rsv).vaddr + length < 2 ^ 64 by omega)
  refine ⟨haddr, ⟨l ++ [reg], f', L', fun a ha => ?_⟩, ⟨rsv, M.carved.reserved', ?_, ?_⟩⟩
  · rcases (mem_append_singleton a).mp ha with rfl | ha
    · rw [hregion]
      refine ⟨hpos, (by decide : (protRead ||| protWrite) % 256 ≠ protNone), .inl ⟨hlo, ?_⟩⟩
      show (w.sc.extent rsv).vaddr + length ≤ _
      omega
    · have hold : w'.sc.extent a = w.sc.extent a :=
        M.carved.others a (fun h => hreg (h ▸ ha)) fun h => hnot (h ▸ ha)
      rw [hold]
      exact hl a ha
  · rw [hrest]
    show 0 < (w.sc.extent rsv).len - length
    omega
  · rw [hrest, hvaddr]
    show _ ≤ (w.sc.extent rsv).vaddr + length ∧
      (w.sc.extent rsv).vaddr + length + ((w.sc.extent rsv).len - length) ≤ _
    omega

theorem scInit_cut (h : scInit fp answers fuel w₀ = .ok (some w))
    (hranges : ∀ area, answers.area = some area → Ranges fp area) :
    ∃ area, answers.area = some area ∧ Cut fp area w := by
  obtain ⟨area, w₁, len, v, harea, hmap, hlast⟩ := scInit_spec h
  have C₁ := (initWorld_cut (hranges area harea) w₀).mmap hmap
  have hregistered : Cut fp area w₁.registered := by
    obtain ⟨l, f, L, hl⟩ := C₁.lists
    exact ⟨C₁.addresses, ⟨l, f, L.congr rfl rfl rfl rfl fun _ _ => rfl, hl⟩, C₁.reserved⟩
  rcases hlast with rfl | ⟨len', v', hmap'⟩
  · exact ⟨area, harea, hregistered⟩
  · exact ⟨area, harea, hregistered.mmap hmap'⟩

theorem scInit_ready (h : scInit fp answers fuel w₀ = .ok (some w)) (G : Granted fp answers w₀) :
    ∃ l f rsv, Ready fp w l f rsv ∧ ∀ x, Taken w.sc l rsv x → w₀.space.cell x = none := by
  have hranges : ∀ area, answers.area = some area → Ranges fp area := fun area ha => (G.area area ha).1
  have hstart : Started fp w := ⟨answers, fuel, w₀, hranges, h⟩
  obtain ⟨l, f, rsv, S⟩ := System.init.sharing (s := ⟨w, []⟩) ⟨hstart, rfl⟩
  obtain ⟨area, harea, C⟩ := scInit_cut h hranges
  obtain ⟨-, hfree⟩ := G.area area harea
  obtain ⟨l', f', L', hl⟩ := C.lists
  obtain rfl := L'.active.unique S.shared.lists.active
  obtain ⟨rsv', hrsv, hpos, hin⟩ := C.reserved
  obtain rfl : rsv' = rsv := Option.some.inj (hrsv.symm.trans S.shared.files.reserved)
  refine ⟨l', f, rsv', ⟨S, fun a ha => ?_, fun a ha hback => ?_⟩, ?_⟩
  · rcases ha with ha | rfl
    · exact (hl a ha).1
    · exact hpos
  · exact absurd ((S.shared.files.stored a ha).hidden (Decidable.of_not_not hback)) (hl a ha).2.1
  · have hcut : ∀ x, ∀ e : Extent, InArea area e → e.vaddr ≤ x → x < e.vaddr + e.len →
        w₀.space.cell x = none := fun x e hin hlo hhi =>
      hfree.cell_eq_none (Nat.le_trans hin.1 hlo) (Nat.lt_of_lt_of_le hhi hin.2)
    rintro x ⟨a, ha | rfl, hlo, hhi⟩
    · rcases (hl a ha).2.2 with hin | ⟨hbase, hlen⟩
      · exact hcut x _ hin hlo hhi
      · rw [hbase] at hlo hhi
        rw [hlen] at hhi
        exact G.page.cell_eq_none hlo hhi
    · exact hcut x _ hin hlo hhi

end Init

section Runs
variable {before mid after : Priv} {cs : List Callback}

theorem pass_imports (W : parse.Walks) {rwPOnly : Bool} {found : Found}
    (h : pass fp parse mid rwPOnly found = .ok after) (hkill : after.kill = false) :
    Imports fp found.lines (mid.start rwPOnly found.space) after := by
  obtain ⟨r, hparse, h⟩ := bind_eq_ok.mp h
  obtain rfl := Except.ok.inj h
  exact W.imports hparse hkill

theorem Ran.imports (W : parse.Walks) (h : Ran fp parse before cs after) :
    Imports fp cs before after := by
  cases h with
  | first _ hpass hkill => exact pass_imports W hpass hkill
  | next _ hpass hkill => exact pass_imports W hpass hkill

theorem Ran.lists (W : parse.Walks) (h : Ran fp parse before cs after) :
    ∃ l f, Lists fp before.world.sc l f ∧ 2 ≤ l.length := by
  have hafter : ∀ {before after cs}, Ran fp parse before cs after →
      (∃ l f, Lists fp before.world.sc l f ∧ 2 ≤ l.length) →
      ∃ l f, Lists fp after.world.sc l f ∧ 2 ≤ l.length := by
    rintro before after cs h ⟨l, f, L, htwo⟩
    obtain ⟨T, -⟩ := (h.imports W).tabled L htwo
    obtain ⟨first, rest, hidden, copied, f', rfl, -, L', -⟩ := T.lists
    refine ⟨_, f', L', ?_⟩
    simp only [List.length_cons, List.length_append] at htwo ⊢
    omega
  induction h with
  | first hstart _ _ =>
    obtain ⟨l, f, I, htwo⟩ := hstart.intact
    exact ⟨l, f, I.lists, htwo⟩
  | next hmid _ _ ih =>
    obtain ⟨l, f, L, htwo⟩ := hafter hmid ih
    exact ⟨l, f, L, htwo⟩

theorem Passed.imports (W : parse.Walks) (h : Passed fp parse before cs after) :
    Imports fp cs before after := by
  cases h with
  | first _ _ _ heq _ _ hpass hkill => exact heq ▸ pass_imports W hpass hkill
  | next _ _ heq _ _ hpass hkill => exact heq ▸ pass_imports W hpass hkill

theorem Passed.ready (W : parse.Walks) (h : Passed fp parse before cs after) :
    ∃ l f rsv, Ready fp before.world l f rsv ∧ Fresh before.world.sc l rsv (before.kept cs) := by
  induction h with
  | first hinit hgranted hspace heq hlisted hmapped _ _ =>
    obtain ⟨l, f, rsv, R, hfree⟩ := scInit_ready hinit hgranted
    subst heq
    have R' := R.respace hspace
    refine ⟨l, f, rsv, R', R'.fresh hlisted fun line hline x hlo hhi hx => ?_⟩
    exact hmapped line hline x hlo hhi (hfree x hx)
  | next hmid hspace heq hlisted hprivate _ _ ih =>
    obtain ⟨l, f, rsv, R, F⟩ := ih
    obtain ⟨l', f', R₁, -⟩ := (hmid.imports W).ready R F
    subst heq
    have R' := R₁.respace hspace
    refine ⟨l', f', rsv, R', R'.fresh hlisted fun line hline x hlo hhi hx => ?_⟩
    obtain ⟨prot, bytes, k, hcell⟩ := hprivate line hline x hlo hhi
    exact R'.not_private hcell hx

end Runs
end Subcontexts.Loader
