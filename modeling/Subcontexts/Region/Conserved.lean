import Subcontexts.Region.Reserve

/-! Where the region structs of the first page are: on one of the three lists or pending, over every
run of calls, posts and cleanups. A post that fails after it has taken a struct loses it. -/

namespace Subcontexts.Region
variable {pg : PageSize} {fp : FirstPage pg} {r t : Root} {l f v : List Addr} {a : Addr}

inductive Home where
  | free
  | active
  | reserved
  | pending
  deriving DecidableEq, Repr

def Root.Keeps (r : Root) (a : Addr) : Home → Prop
  | .free => ∃ f, (r.world.sc.links r.world.sc.freeStructs).Holds f ∧ a ∈ f
  | .active => ∃ l, (r.world.sc.links r.world.sc.activeRegions).Holds l ∧ a ∈ l
  | .reserved => ∃ v, (r.world.sc.links r.world.sc.reservedRegions).Holds v ∧ a ∈ v
  | .pending => r.pendingReservation = some a

section Homes

theorem holds_mem_iff {L : Linked Addr} (h : L.Holds l) : (∃ l', L.Holds l' ∧ a ∈ l') ↔ a ∈ l :=
  ⟨fun ⟨_, hl', ha⟩ => h.unique hl' ▸ ha, fun ha => ⟨l, h, ha⟩⟩

theorem Homed.keeps_iff (K : Homed fp r l f v) (home : Home) : r.Keeps a home ↔
    match home with
    | .free => a ∈ f
    | .active => a ∈ l
    | .reserved => a ∈ v
    | .pending => r.pendingReservation = some a := by
  cases home with
  | free => exact holds_mem_iff K.table.lists.free
  | active => exact holds_mem_iff K.table.lists.active
  | reserved => exact holds_mem_iff K.table.reserved
  | pending => exact Iff.rfl

theorem Homed.keeps_unique (K : Homed fp r l f v) {home home' : Home} (h : r.Keeps a home)
    (h' : r.Keeps a home') : home = home' := by
  rw [K.keeps_iff] at h h'
  have hactive := K.table.lists.apart a
  have hreserved := K.table.apart a
  have hpending := K.pending a
  cases home <;> cases home' <;> simp_all

theorem Homed.keeps_of_mem (K : Homed fp r l f v) (h : a ∈ r.homes l f v) :
    ∃ home, r.Keeps a home := by
  unfold Root.homes at h
  rw [List.mem_append, List.mem_append, List.mem_append, Option.mem_toList] at h
  rcases h with (h | h) | (h | h)
  · exact ⟨.active, (K.keeps_iff .active).mpr h⟩
  · exact ⟨.free, (K.keeps_iff .free).mpr h⟩
  · exact ⟨.reserved, (K.keeps_iff .reserved).mpr h⟩
  · exact ⟨.pending, h⟩

theorem Homed.lost {reg : Addr} {f' : List Addr} (K : Homed fp r l f v)
    (Q : Took fp r t l f' v reg) (hnone : t.pendingReservation = none) (home : Home) :
    ¬ t.Keeps reg home := by
  obtain ⟨hl, hf, hv⟩ := Q.off
  rw [(K.took Q (.inl hnone)).keeps_iff]
  cases home with
  | free => exact hf
  | active => exact hl
  | reserved => exact hv
  | pending => exact fun h => by cases hnone.symm.trans h

theorem Homed.post_loses {answers : PostAnswers} {pages : Nat} (K : Homed fp r l f v)
    (hpost : (RootEvent.post answers pages).step fp r t) (hfail : answers.newStep = false) :
    ∃ i < fp.regionsCount, ∀ home, ¬ t.Keeps (fp.regions i) home := by
  rcases RootEvent.step_cases K hpost with ⟨c, w, he, -⟩ |
    ⟨answers', pages', reg, f', he, rfl, Q, hend⟩ | ⟨a, he, -⟩ | ⟨n, he, -⟩
  · cases he
  · obtain ⟨rfl, rfl⟩ := RootEvent.post.inj he
    rcases hend with ⟨-, hnone⟩ | ⟨hstep, -⟩
    · obtain ⟨i, hi, rfl⟩ := Q.struct
      exact ⟨i, hi, K.lost Q hnone⟩
    · cases hfail.symm.trans hstep
  · cases he
  · cases he

end Homes

section Main

theorem reach_homed (h : Trans.Reach (Root.init fp)
      (Trans.Guarded (fun _ e => e.Supplied) (RootEvent.step fp)) r) :
    ∃ l f v, Homed fp r l f v ∧ (r.homes l f v).Perm (allRegions fp) := by
  refine h.inv (fun _ h => h.homed) fun r e t ⟨l, f, v, K, hperm⟩ ⟨hsupplied, hst⟩ => ?_
  obtain ⟨l', f', v', K', hperm'⟩ := K.step hsupplied hst
  exact ⟨l', f', v', K', hperm'.trans hperm⟩

theorem structs_conserved (h : Trans.Reach (Root.init fp)
      (Trans.Guarded (fun _ e => e.Supplied) (RootEvent.step fp)) r) :
    (∀ i < fp.regionsCount, ∃! home, r.Keeps (fp.regions i) home) ∧
      ∀ answers pages t, (RootEvent.post answers pages).step fp r t → answers.newStep = false →
        ∃ i < fp.regionsCount, ∀ home, ¬ t.Keeps (fp.regions i) home := by
  obtain ⟨l, f, v, K, hperm⟩ := reach_homed h
  refine ⟨fun i hi => ?_, fun answers pages t hpost hfail => ?_⟩
  · have hmem : fp.regions i ∈ allRegions fp := List.mem_map_of_mem (List.mem_range.mpr hi)
    obtain ⟨home, hhome⟩ := K.keeps_of_mem (hperm.mem_iff.mpr hmem)
    exact ⟨home, hhome, fun home' hhome' => K.keeps_unique hhome' hhome⟩
  · exact K.post_loses hpost hfail

end Main

section Run

def postedPages : RootEvent := .post ⟨true, true, some 0x500000⟩ 2

theorem structs_conserved_completed : ∃ r, Trans.Reach (Root.init firstPage4096)
    (Trans.Guarded (fun _ e => e.Supplied) (RootEvent.step firstPage4096)) r ∧
      (r.world.sc.links r.world.sc.reservedRegions).Holds
        [firstPage4096.regions 3, firstPage4096.regions 1] ∧
      ∀ i < firstPage4096.regionsCount, ∃! home, r.Keeps (firstPage4096.regions i) home := by
  obtain ⟨w₀, hinit, hlock, r₂, hpost, r₃, hcomplete, hholds⟩ :
      ∃ w₀, scInit firstPage4096 initAnswers 10 emptyWorld = .ok (some w₀) ∧
        w₀.sc.lock = false ∧
        ∃ r₂, scPostNewReservation page4096 ⟨true, true, some 0x500000⟩
          ⟨{ w₀ with sc := { w₀.sc with procCount := 2, lock := true } }, none, []⟩ 2 =
            .ok (0, r₂) ∧
        ∃ r₃, cleanup { r₂ with world := { r₂.world with sc := { r₂.world.sc with lock := true } } } =
          .ok r₃ ∧
        (r₃.world.sc.links r₃.world.sc.reservedRegions).Holds
          [firstPage4096.regions 3, firstPage4096.regions 1] :=
    ⟨_, rfl, rfl, _, rfl, _, rfl, rfl, rfl, rfl⟩
  have h₀ : Trans.Reach (Root.init firstPage4096)
      (Trans.Guarded (fun _ e => e.Supplied) (RootEvent.step firstPage4096)) ⟨w₀, none, []⟩ :=
    .init ⟨⟨initAnswers, 10, emptyWorld, initAnswers_promise, hinit⟩, rfl, rfl⟩
  have h₁ := h₀.step (l := RootEvent.count 2) ⟨trivial, hlock, rfl⟩
  have h₂ := h₁.step (l := postedPages) ⟨rfl, _, _, _, if_neg (by simp [hlock]), hpost, rfl⟩
  have h₃ := h₂.step (l := RootEvent.complete) ⟨trivial, _, _, rfl, hcomplete, rfl⟩
  exact ⟨_, h₃, hholds, (structs_conserved h₃).1⟩

/-- The post takes `regions[3]`, and then `sc_malloc` returns `NULL`. -/
theorem failed_post_loses_struct : ∃ r, Trans.Reach (Root.init firstPage4096)
    (RootEvent.step firstPage4096) r ∧
      ∃ i < firstPage4096.regionsCount, ∀ home, ¬ r.Keeps (firstPage4096.regions i) home := by
  obtain ⟨w₀, hinit, hlock, r₂, hpost⟩ :
      ∃ w₀, scInit firstPage4096 initAnswers 10 emptyWorld = .ok (some w₀) ∧
        w₀.sc.lock = false ∧
        ∃ r₂, scPostNewReservation page4096 ⟨true, false, some 0x500000⟩
          ⟨{ w₀ with sc := { w₀.sc with procCount := 2, lock := true } }, none, []⟩ 2 =
            .ok (2, r₂) :=
    ⟨_, rfl, rfl, _, rfl⟩
  have hi : Root.init firstPage4096 ⟨w₀, none, []⟩ :=
    ⟨⟨initAnswers, 10, emptyWorld, initAnswers_promise, hinit⟩, rfl, rfl⟩
  have h₀ : Trans.Reach (Root.init firstPage4096) (RootEvent.step firstPage4096) ⟨w₀, none, []⟩ :=
    .init hi
  have h₁ := h₀.step (l := RootEvent.count 2) ⟨hlock, rfl⟩
  have hstep : (RootEvent.post ⟨true, false, some 0x500000⟩ 2).step firstPage4096
      ⟨{ w₀ with sc := { w₀.sc with procCount := 2 } }, none, []⟩ r₂.unlock :=
    ⟨_, _, _, if_neg (by simp [hlock]), hpost, rfl⟩
  obtain ⟨l, f, v, K, -⟩ := hi.homed
  exact ⟨_, h₁.step hstep, (K.count 2).post_loses hstep rfl⟩

end Run
end Subcontexts.Region
