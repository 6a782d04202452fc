import Subcontexts.Alloc.Malloc
import Subcontexts.Lib.Trans

/-! Runs of the shared allocator: any sequence of `sc_malloc` and `sc_free` calls, of writes by the
users of the live buffers and of answers of the kernel, from the empty free list. -/

namespace Subcontexts.Alloc

structure Range where
  base : Nat
  len : Nat
  deriving DecidableEq, Repr

structure Block where
  start : Nat
  req : Nat
  deriving DecidableEq, Repr

def Block.ptr (b : Block) : Nat := b.start + sizeofHeader

structure Sys where
  heap : Heap
  ranges : List Range
  live : List Block

def Sys.init (s : Sys) : Prop :=
  s.heap.freeList = 0 ∧ s.heap.lock = false ∧ s.ranges = [] ∧ s.live = []

/-- What `sc_mmap` may return: fresh page-aligned addresses. -/
def Fresh (pg : PageSize) (rs : List Range) (base len : Nat) : Prop :=
  0 < base ∧ pg.bytes ∣ base ∧ base + len ≤ 2 ^ 64 ∧
    ∀ r ∈ rs, base + len ≤ r.base ∨ r.base + r.len ≤ base

instance (pg : PageSize) (rs : List Range) (base len : Nat) : Decidable (Fresh pg rs base len) :=
  inferInstanceAs (Decidable (_ ∧ _ ∧ _ ∧ _))

/-- `sc_mmap` as the allocator sees it, with `answer` as the address the kernel picks. -/
def kernelMmap (pg : PageSize) (answer : Option Nat) (rs : List Range) (len : Nat) :
    Option Nat × List Range :=
  match answer with
  | none => (none, rs)
  | some base => if Fresh pg rs base len then (some base, ⟨base, len⟩ :: rs) else (none, rs)

inductive Call where
  | malloc (size : Int) (fuel : Nat) (answer : Option Nat)
  | free (p : Nat)
  | write (w v : Nat)
  deriving DecidableEq, Repr

/-- One call, or one write of a user into a word that holds a requested byte of a live buffer. -/
def step (pg : PageSize) (s : Sys) : Call → Option Sys
  | .malloc size fuel answer =>
    if size < 2 ^ 63 then
      match scMalloc pg (kernelMmap pg answer) fuel size s.heap s.ranges with
      | .ok (some p, h, rs) => some ⟨h, rs, ⟨p - sizeofHeader, size.toNat⟩ :: s.live⟩
      | .ok (none, h, rs) => some ⟨h, rs, s.live⟩
      | .error _ => none
    else none
  | .free p =>
    if ∃ b ∈ s.live, b.ptr = p then
      match scFree p s.heap with
      | .ok h => some ⟨h, s.ranges, s.live.eraseP fun b => b.ptr = p⟩
      | .error _ => none
    else none
  | .write w v =>
    if ∃ b ∈ s.live, b.ptr ≤ w ∧ w < b.ptr + b.req then
      some { s with heap := { s.heap with mem := store s.heap.mem w v } }
    else none

def Reachable (pg : PageSize) : Sys → Prop := Trans.Reach Sys.init (Trans.ofFun (step pg))

def starts (live : List Block) : List Nat := live.map Block.start

def covered (rs : List Range) : Set Nat := {x | ∃ r ∈ rs, x ∈ Set.Ico r.base (r.base + r.len)}

/-- The node at the base of a range that `sc_malloc` sets aside for good. -/
structure PageHead (pg : PageSize) (m : Mem) (ns : List Nat) (r : Range) : Prop where
  mem : r.base ∈ ns
  len_eq : len m r.base = sizeofListNode
  pages_eq : pages m r.base = r.len / pg.bytes
  pages_pos : 0 < r.len / pg.bytes
  whole : pg.bytes ∣ r.len

structure Delivered (m : Mem) (b : Block) : Prop where
  block : IsBlock m b.start
  align : 8 ∣ b.ptr
  room : b.ptr + b.req ≤ footOf m b.start

structure Inv (pg : PageSize) (s : Sys) (ns : List Nat) : Prop where
  layout : Layout s.heap ns (starts s.live) (covered s.ranges)
  lock : s.heap.lock = false
  heads : ∀ r ∈ s.ranges, PageHead pg s.heap.mem ns r
  only : ∀ a ∈ ns, pages s.heap.mem a ≠ 0 → ∃ r ∈ s.ranges, r.base = a
  blocks : ∀ b ∈ s.live, Delivered s.heap.mem b

section Steps
variable {pg : PageSize} {s : Sys} {ns : List Nat}

theorem covered_cons (r : Range) (rs : List Range) :
    covered (r :: rs) = Set.Ico r.base (r.base + r.len) ∪ covered rs := by
  ext x
  simp [covered]

theorem disjoint_covered {rs : List Range} {base len : Nat} (h : Fresh pg rs base len) :
    Disjoint (Set.Ico base (base + len)) (covered rs) := by
  refine Set.disjoint_left.mpr fun x hx hc => ?_
  obtain ⟨r, hr, hxr⟩ := hc
  have := h.2.2.2 r hr
  have := hx.1
  have := hx.2
  have := hxr.1
  have := hxr.2
  omega

theorem Inv.init (h : s.init) : Inv pg s [] := by
  obtain ⟨hfl, hlock, hr, hb⟩ := h
  refine ⟨⟨?_, ?_, ?_⟩, hlock, by simp [hr], by simp, by simp [hb]⟩
  · change ptr s.heap.freeList = none
    exact ptr_eq_none.mpr hfl
  · have hempty : covered s.ranges = ∅ := by
      rw [hr]
      ext x
      simp [covered]
    rw [hempty, hb]
    exact Tiles.nil
  · rw [hb]
    simp [starts]

theorem Delivered.frame {m m' : Mem} {b : Block} (h : Delivered m b) (hc : Chunk m b.start)
    (hw : ∀ w ∈ piece m b.start, m' w = m w) : Delivered m' b := by
  have hl : len m' b.start = len m b.start := hw _ hc.self_mem
  refine ⟨h.block.frame hc hw, h.align, ?_⟩
  have hroom := h.room
  unfold footOf at hroom ⊢
  rwa [hl]

theorem delivered_of_carved {h h' : Heap} {ns ns' os : List Nat} {U : Set Nat} {size b : Nat}
    (hs : size < 2 ^ 63) (C : Layout.Carved h h' ns ns' os U (allocSize size) b) :
    Delivered h'.mem ⟨b, size⟩ := by
  have hchunk := C.layout.chunk b (by simp)
  have hge := allocSize_ge hs
  have hlen := C.len_ge
  refine ⟨C.block, ?_, ?_⟩
  · have := hchunk.align
    unfold Block.ptr sizeofHeader
    simp only
    omega
  · unfold Block.ptr footOf sizeofHeader sizeofFooter
    simp only
    omega

theorem Inv.carved {h' : Heap} {ns₀ ns' : List Nat} {h₀ : Heap} {rs : List Range} {size b : Nat}
    (hs : size < 2 ^ 63) (hlock : h'.lock = false)
    (C : Layout.Carved h₀ h' ns₀ ns' (starts s.live) (covered rs) (allocSize size) b)
    (hchunk : ∀ o ∈ starts s.live, Chunk h₀.mem o)
    (hheads : ∀ r ∈ rs, r.base ∈ ns₀ ∧ pages h₀.mem r.base = r.len / pg.bytes ∧
      0 < r.len / pg.bytes ∧ pg.bytes ∣ r.len ∧ len h'.mem r.base = 24)
    (honly : ∀ a ∈ ns₀, pages h₀.mem a ≠ 0 → ∃ r ∈ rs, r.base = a)
    (hblocks : ∀ b ∈ s.live, Delivered h₀.mem b) :
    Inv pg ⟨h', rs, ⟨b, size⟩ :: s.live⟩ ns' := by
  refine ⟨C.layout, hlock, fun r hr => ?_, fun a ha hp => ?_, fun d hd => ?_⟩
  · obtain ⟨hmem, hpages, hpos, hdvd, hlen⟩ := hheads r hr
    have hne : pages h₀.mem r.base ≠ 0 := by omega
    exact ⟨((C.kept.heads _).mpr ⟨hmem, hne⟩).1, hlen, (C.kept.page _ hmem hne).trans hpages, hpos,
      hdvd⟩
  · have h0 := (C.kept.heads a).mp ⟨ha, hp⟩
    exact honly a h0.1 h0.2
  · rcases List.mem_cons.mp hd with rfl | hd
    · exact delivered_of_carved hs C
    · have hmem : d.start ∈ starts s.live := List.mem_map_of_mem hd
      exact (hblocks d hd).frame (hchunk _ hmem) (C.kept.words _ hmem)

theorem starts_carved {ns' : List Nat} {live : List Block} {b size : Nat} (h : ns ⊆ b :: ns') :
    ns ++ starts live ⊆ ns' ++ starts (⟨b, size⟩ :: live) := by
  intro a ha
  rcases List.mem_append.mp ha with ha | ha
  · rcases List.mem_cons.mp (h ha) with rfl | ha
    · exact List.mem_append_right _ (List.mem_cons_self ..)
    · exact List.mem_append_left _ ha
  · exact List.mem_append_right _ (List.mem_cons_of_mem _ ha)

theorem Inv.base_ne (I : Inv pg s ns) {r : Range} (hr : r ∈ s.ranges) :
    pages s.heap.mem r.base ≠ 0 := by
  have H := I.heads r hr
  have := H.pages_eq
  have := H.pages_pos
  omega

theorem Inv.chunk_live (I : Inv pg s ns) : ∀ o ∈ starts s.live, Chunk s.heap.mem o := fun o ho =>
  I.layout.chunk o (List.mem_append_right _ ho)

theorem Inv.malloc_pages (I : Inv pg s ns) {size fuel buf : Nat} (hs : size < 2 ^ 63)
    (hf : ns.length < fuel)
    (hnone : ∀ a ∈ ns, ¬ fits s.heap.mem (allocSize size) (splitSize size) a)
    (hfresh : Fresh pg s.ranges buf (mmapSize pg size)) :
    ∃ t ns', step pg s (.malloc size fuel (some buf)) = some t ∧ Inv pg t ns' ∧
      (∀ r ∈ s.ranges, r ∈ t.ranges) ∧ ns ++ starts s.live ⊆ ns' ++ starts t.live := by
  have hsz : (size : Int) < 2 ^ 63 := by exact_mod_cast hs
  have hm : kernelMmap pg (some buf) s.ranges (mmapSize pg size) =
      (some buf, ⟨buf, mmapSize pg size⟩ :: s.ranges) := if_pos hfresh
  have hdvd := dvd_mmapSize pg hs
  have hn : 24 ≤ mmapSize pg size := by
    have := splitSize_le_mmapSize pg hs
    have := splitSize_eq hs
    omega
  have hd := disjoint_covered hfresh
  have L := I.layout
  obtain ⟨b, ns', h', hr, hlock, hhead, C, hsub⟩ := scMalloc_of_pages pg (kernelMmap pg (some buf)) s.ranges
    L I.lock hs hf hnone hm hfresh.1 (Nat.dvd_trans pg.dvd hfresh.2.1) hfresh.2.2.1 hd
  rw [← covered_cons ⟨buf, mmapSize pg size⟩] at C
  have hword : ∀ a ∈ ns ++ starts s.live, ∀ w ∈ piece s.heap.mem a,
      (pushPages pg (mmapSize pg size) buf s.heap).mem w = s.heap.mem w := fun a ha w hw =>
    L.pushPages_word hn hd ha hw
  have hpages : ∀ a ∈ ns,
      pages (pushPages pg (mmapSize pg size) buf s.heap).mem a = pages s.heap.mem a := fun a ha =>
    hword a (List.mem_append_left _ ha) _
      ((L.chunk a (List.mem_append_left _ ha)).mem_piece (w := 16) (by omega))
  have hlen : ∀ a ∈ ns ++ starts s.live,
      len (pushPages pg (mmapSize pg size) buf s.heap).mem a = len s.heap.mem a := fun a ha =>
    hword a ha a (L.chunk a ha).self_mem
  have hlive : ∀ o ∈ starts s.live, o ∈ ns ++ starts s.live := fun o ho => List.mem_append_right _ ho
  refine ⟨⟨h', ⟨buf, mmapSize pg size⟩ :: s.ranges, ⟨b, size⟩ :: s.live⟩, ns', ?_, ?_,
    fun r hr => List.mem_cons_of_mem _ hr, starts_carved hsub⟩
  · simp only [step, if_pos hsz, hr, Nat.add_sub_cancel, Int.toNat_natCast]
  · refine Inv.carved hs hlock C (fun o ho => (I.chunk_live o ho).congr (hlen o (hlive o ho)))
      (fun r hr => ?_) (fun a ha hp => ?_) fun d hd => ?_
    · rcases List.mem_cons.mp hr with rfl | hr
      · exact ⟨List.mem_cons_self .., pages_pushPages,
          Nat.div_pos (Nat.le_of_dvd (mmapSize_pos pg hs) hdvd) pg.pos, hdvd, hhead⟩
      · have H := I.heads r hr
        have hp := hpages _ H.mem
        refine ⟨List.mem_cons_of_mem _ H.mem, hp.trans H.pages_eq, H.pages_pos, H.whole, ?_⟩
        rcases C.kept.head_len _ (List.mem_cons_of_mem _ H.mem) (hp.trans_ne (I.base_ne hr)) with hl | hl
        · rw [hl, hlen _ (List.mem_append_left _ H.mem)]
          exact H.len_eq
        · exact hl
    · rcases List.mem_cons.mp ha with rfl | ha
      · exact ⟨_, List.mem_cons_self .., rfl⟩
      · obtain ⟨r, hr, hra⟩ := I.only a ha (hpages a ha ▸ hp)
        exact ⟨r, List.mem_cons_of_mem _ hr, hra⟩
    · have hmem : d.start ∈ starts s.live := List.mem_map_of_mem hd
      exact (I.blocks d hd).frame (I.chunk_live _ hmem) (hword _ (hlive _ hmem))

theorem Inv.malloc (I : Inv pg s ns) {size fuel : Nat} (hs : size < 2 ^ 63) (hf : ns.length < fuel)
    (answer : Option Nat) :
    ∃ t ns', step pg s (.malloc size fuel answer) = some t ∧ Inv pg t ns' ∧
      (∀ r ∈ s.ranges, r ∈ t.ranges) ∧ ns ++ starts s.live ⊆ ns' ++ starts t.live := by
  have hsz : (size : Int) < 2 ^ 63 := by exact_mod_cast hs
  have hdeliver : ∀ {b : Nat} {h' : Heap} {rs : List Range},
      scMalloc pg (kernelMmap pg answer) fuel size s.heap s.ranges =
        .ok (some (b + sizeofHeader), h', rs) →
      step pg s (.malloc size fuel answer) = some ⟨h', rs, ⟨b, size⟩ :: s.live⟩ := by
    intro b h' rs hr
    simp only [step, if_pos hsz, hr, Nat.add_sub_cancel, Int.toNat_natCast]
  by_cases hfit : ∃ a ∈ ns, fits s.heap.mem (allocSize size) (splitSize size) a
  · obtain ⟨b, ns', h', hr, hlock, C, hsub⟩ := scMalloc_of_fit pg (kernelMmap pg answer) s.ranges
      I.layout I.lock hs hf hfit
    refine ⟨_, ns', hdeliver hr, Inv.carved hs hlock C I.chunk_live (fun r hr => ?_) I.only I.blocks,
      fun r hr => hr, starts_carved hsub⟩
    have H := I.heads r hr
    refine ⟨H.mem, H.pages_eq, H.pages_pos, H.whole, ?_⟩
    rcases C.kept.head_len _ H.mem (I.base_ne hr) with hl | hl
    · exact hl.trans H.len_eq
    · exact hl
  · have hnone : ∀ a ∈ ns, ¬ fits s.heap.mem (allocSize size) (splitSize size) a :=
      fun a ha hfa => hfit ⟨a, ha, hfa⟩
    have hfailed : kernelMmap pg answer s.ranges (mmapSize pg size) = (none, s.ranges) →
        ∃ t ns', step pg s (.malloc size fuel answer) = some t ∧ Inv pg t ns' ∧
          (∀ r ∈ s.ranges, r ∈ t.ranges) ∧ ns ++ starts s.live ⊆ ns' ++ starts t.live := by
      intro hm
      have hr := scMalloc_of_failed pg (kernelMmap pg answer) s.ranges I.layout.chain I.lock hs hf
        hnone hm
      refine ⟨s, ns, ?_, I, fun r hr => hr, List.Subset.refl _⟩
      simp only [step, if_pos hsz, hr]
    cases answer with
    | none => exact hfailed rfl
    | some buf =>
      by_cases hfresh : Fresh pg s.ranges buf (mmapSize pg size)
      · exact I.malloc_pages hs hf hnone hfresh
      · exact hfailed (by simp only [kernelMmap, if_neg hfresh])

theorem Inv.malloc_max (I : Inv pg s ns) (size fuel : Nat) (hs : size < 2 ^ 63)
    (answer : Option Nat) :
    ∃ t ns', step pg s (.malloc size (max fuel (ns.length + 1)) answer) = some t ∧ Inv pg t ns' ∧
      (∀ r ∈ s.ranges, r ∈ t.ranges) ∧ ns ++ starts s.live ⊆ ns' ++ starts t.live :=
  I.malloc hs (by omega) answer

theorem step_malloc_mono {t : Sys} {size : Int} {fuel fuel' : Nat} {answer : Option Nat}
    (hle : fuel ≤ fuel') (h : step pg s (.malloc size fuel answer) = some t) :
    step pg s (.malloc size fuel' answer) = some t := by
  simp only [step] at h ⊢
  split at h
  · rw [if_pos ‹_›]
    cases hr : scMalloc pg (kernelMmap pg answer) fuel size s.heap s.ranges with
    | error x => simp [hr] at h
    | ok r =>
      rw [scMalloc_mono pg _ _ hle hr]
      rwa [hr] at h
  · cases h

theorem Inv.free (I : Inv pg s ns) {b : Block} (hb : b ∈ s.live) :
    ∃ t ns', step pg s (.free b.ptr) = some t ∧ Inv pg t ns' ∧ t.ranges = s.ranges ∧
      ns ++ starts s.live ⊆ ns' ++ starts t.live := by
  obtain ⟨d, l₁, l₂, _, hd, hlive, herase⟩ :=
    List.exists_of_eraseP (p := fun d : Block => decide (d.ptr = b.ptr)) hb (by simp)
  have hdb : d.ptr = b.ptr := by simpa using hd
  have hdl : d ∈ s.live := by simp [hlive]
  have hperm : (starts s.live).Perm (d.start :: starts (l₁ ++ l₂)) := by
    rw [hlive, starts, starts, List.map_append, List.map_append, List.map_cons]
    exact List.perm_middle
  have L := I.layout.perm_os hperm
  obtain ⟨h', hr, hlock, L', hp0, hoff⟩ := scFree_of_block L (I.blocks d hdl).block I.lock
  have hstart : d.start ∈ ns ++ d.start :: starts (l₁ ++ l₂) := by simp
  have hword : ∀ a ∈ ns ++ starts (l₁ ++ l₂), ∀ w ∈ piece s.heap.mem a,
      h'.mem w = s.heap.mem w := by
    intro a ha w hw
    refine hoff w (L.notMem (a := a) ?_ hstart (L.ne_of_mem_os ha) hw)
    simp only [List.mem_append, List.mem_cons] at ha ⊢
    tauto
  have hchunk : ∀ a ∈ ns ++ starts (l₁ ++ l₂), Chunk s.heap.mem a := fun a ha =>
    L.chunk a (by simp only [List.mem_append, List.mem_cons] at ha ⊢; tauto)
  refine ⟨⟨h', s.ranges, l₁ ++ l₂⟩, d.start :: ns, ?_, ⟨L', hlock, fun r hr => ?_, fun a ha hp => ?_,
    fun e he => ?_⟩, rfl, fun a ha => ?_⟩
  · have hex : ∃ e ∈ s.live, e.ptr = b.ptr := ⟨b, hb, rfl⟩
    rw [← hdb]
    have hr' : scFree d.ptr s.heap = .ok h' := hr
    simp only [step, hdb, if_pos hex]
    rw [← hdb, hr', hdb, herase]
  · have H := I.heads r hr
    have ha : r.base ∈ ns ++ starts (l₁ ++ l₂) := List.mem_append_left _ H.mem
    have hw := hword _ ha
    have hc := hchunk _ ha
    exact ⟨List.mem_cons_of_mem _ H.mem, (hw _ hc.self_mem).trans H.len_eq,
      (hw _ (hc.mem_piece (w := 16) (by omega))).trans H.pages_eq, H.pages_pos, H.whole⟩
  · rcases List.mem_cons.mp ha with rfl | ha
    · exact absurd hp0 hp
    · have ha' : a ∈ ns ++ starts (l₁ ++ l₂) := List.mem_append_left _ ha
      have hw : pages h'.mem a = pages s.heap.mem a :=
        hword a ha' _ ((hchunk a ha').mem_piece (by omega))
      exact I.only a ha (hw ▸ hp)
  · have hel : e ∈ s.live := by
      rw [hlive]
      simp only [List.mem_append, List.mem_cons] at he ⊢
      tauto
    have hmem : e.start ∈ ns ++ starts (l₁ ++ l₂) :=
      List.mem_append_right _ (List.mem_map_of_mem he)
    exact (I.blocks e hel).frame (hchunk _ hmem) (hword _ hmem)
  · exact List.perm_middle.subset ((hperm.append_left ns).subset ha)

theorem Inv.write (I : Inv pg s ns) {b : Block} (hb : b ∈ s.live) {w v : Nat} (hw : b.ptr ≤ w)
    (hw' : w < b.ptr + b.req) :
    Inv pg { s with heap := { s.heap with mem := store s.heap.mem w v } } ns := by
  have L := I.layout
  have D := I.blocks b hb
  have hmem : b.start ∈ starts s.live := List.mem_map_of_mem hb
  have hall : b.start ∈ ns ++ starts s.live := List.mem_append_right _ hmem
  have hge := (L.chunk _ hall).len_ge
  have hroom := D.room
  have hin : w ∈ piece s.heap.mem b.start := by
    unfold Block.ptr footOf sizeofHeader sizeofFooter at *
    exact ⟨by omega, by omega⟩
  have hoff : ∀ x, x ∉ piece s.heap.mem b.start → store s.heap.mem w v x = s.heap.mem x := by
    intro x hx
    refine Function.update_of_ne ?_ _ _
    rintro rfl
    exact hx hin
  have hlen : len (store s.heap.mem w v) b.start = len s.heap.mem b.start :=
    Function.update_of_ne (by unfold Block.ptr sizeofHeader at hw; omega) _ _
  have hword : ∀ a ∈ ns ++ starts s.live, a ≠ b.start → ∀ x ∈ piece s.heap.mem a,
      store s.heap.mem w v x = s.heap.mem x := fun a ha hab x hx =>
    hoff x (L.notMem ha hall hab hx)
  have hnode : ∀ a ∈ ns, a ≠ b.start := fun a ha hab =>
    (List.nodup_append.mp L.nodup).2.2 a ha _ hmem hab
  have hfree : ∀ a ∈ ns, ∀ x ∈ piece s.heap.mem a, store s.heap.mem w v x = s.heap.mem x :=
    fun a ha => hword a (List.mem_append_left _ ha) (hnode a ha)
  have hchunk : ∀ a ∈ ns, Chunk s.heap.mem a := fun a ha => L.chunk a (List.mem_append_left _ ha)
  refine ⟨L.write hmem hoff hlen, I.lock, fun r hr => ?_, fun a ha hp => ?_, fun d hd => ?_⟩
  · have H := I.heads r hr
    have hx := hfree _ H.mem
    have hc := hchunk _ H.mem
    exact ⟨H.mem, (hx _ hc.self_mem).trans H.len_eq,
      (hx _ (hc.mem_piece (w := 16) (by omega))).trans H.pages_eq, H.pages_pos, H.whole⟩
  · have hx : pages (store s.heap.mem w v) a = pages s.heap.mem a :=
      hfree a ha _ ((hchunk a ha).mem_piece (by omega))
    exact I.only a ha (hx ▸ hp)
  · have hdm : d.start ∈ ns ++ starts s.live := List.mem_append_right _ (List.mem_map_of_mem hd)
    by_cases hdb : d.start = b.start
    · -- the write is after `b`'s header and before its footer
      have Dd := I.blocks d hd
      unfold Block.ptr sizeofHeader at hw
      refine ⟨⟨?_, ?_⟩, Dd.align, ?_⟩
      · exact (Function.update_of_ne (by omega) _ _).trans Dd.block.head
      · unfold footOf
        rw [hdb, hlen]
        unfold Block.ptr footOf sizeofHeader sizeofFooter at hroom
        refine (Function.update_of_ne ?_ _ _).trans D.block.foot
        unfold Block.ptr sizeofHeader at hw'
        unfold sizeofFooter
        omega
      · have := Dd.room
        unfold footOf at this ⊢
        rw [hdb] at this ⊢
        rwa [hlen]
    · exact (I.blocks d hd).frame (L.chunk _ hdm) (hword _ hdm hdb)

theorem scMalloc_nonneg {σ : Type} {scMmap : σ → Nat → Option Nat × σ} {fuel : Nat} {size : Int}
    {h : Heap} {e : σ} {r : Option Nat × Heap × σ}
    (hr : scMalloc pg scMmap fuel size h e = .ok r) : 0 ≤ size := by
  obtain ⟨_, hc, _⟩ := bind_eq_ok.mp hr
  exact check_eq_ok.mp hc

theorem Inv.step (I : Inv pg s ns) {c : Call} {t : Sys} (h : step pg s c = some t) :
    (∃ ns', Inv pg t ns' ∧ ns ++ starts s.live ⊆ ns' ++ starts t.live) ∧
      ∀ r ∈ s.ranges, r ∈ t.ranges := by
  cases c with
  | malloc size fuel answer =>
    have hsz : 0 ≤ size ∧ size < 2 ^ 63 := by
      simp only [Alloc.step] at h
      split at h
      · split at h
        · exact ⟨scMalloc_nonneg ‹_›, ‹_›⟩
        · exact ⟨scMalloc_nonneg ‹_›, ‹_›⟩
        · cases h
      · cases h
    obtain ⟨n, rfl⟩ := Int.eq_ofNat_of_zero_le hsz.1
    obtain ⟨t', ns', ht, I', hr, hsub⟩ := I.malloc_max n fuel (by exact_mod_cast hsz.2) answer
    obtain rfl : t' = t :=
      Option.some.inj (ht.symm.trans (step_malloc_mono (le_max_left ..) h))
    exact ⟨⟨ns', I', hsub⟩, hr⟩
  | free p =>
    have hex : ∃ b ∈ s.live, b.ptr = p := by
      by_contra hn
      simp only [Alloc.step, if_neg hn, reduceCtorEq] at h
    obtain ⟨b, hb, rfl⟩ := hex
    obtain ⟨t', ns', ht, I', hr, hsub⟩ := I.free hb
    obtain rfl : t' = t := Option.some.inj (ht.symm.trans h)
    exact ⟨⟨ns', I', hsub⟩, fun r h => hr ▸ h⟩
  | write w v =>
    simp only [Alloc.step] at h
    split at h
    · obtain ⟨b, hb, hw, hw'⟩ := ‹∃ b ∈ s.live, _›
      obtain rfl := Option.some.inj h
      exact ⟨⟨ns, I.write hb hw hw', List.Subset.refl _⟩, fun r h => h⟩
    · cases h

end Steps

theorem inv_of_reachable {pg : PageSize} {s : Sys} (h : Reachable pg s) : ∃ ns, Inv pg s ns :=
  Trans.Reach.inv (I := fun s => ∃ ns, Inv pg s ns) (fun _ h0 => ⟨[], Inv.init h0⟩)
    (fun _ _ _ ⟨_, hI⟩ hst => by
      obtain ⟨⟨ns', hI', -⟩, -⟩ := hI.step hst
      exact ⟨ns', hI'⟩) h

theorem ranges_of_reach {pg : PageSize} {s t : Sys} (hs : Reachable pg s)
    (h : Trans.Reach (· = s) (Trans.ofFun (step pg)) t) : ∀ r ∈ s.ranges, r ∈ t.ranges := by
  induction h with
  | init h => exact h ▸ fun r hr => hr
  | step hr hst ih =>
    obtain ⟨_, I⟩ := inv_of_reachable (hs.trans hr)
    exact fun r hr => (I.step hst).2 r (ih r hr)

/-- The free list `ns` and the live blocks tile the ranges, page heads and blocks are intact. -/
structure Tiled (pg : PageSize) (s : Sys) (ns : List Nat) : Prop where
  walk : (links s.heap).Holds ns
  tiles : Tiles ((ns ++ starts s.live).map (piece s.heap.mem)) (covered s.ranges)
  heads : ∀ r ∈ s.ranges, PageHead pg s.heap.mem ns r ∧ ns.count r.base = 1
  blocks : ∀ b ∈ s.live, Delivered s.heap.mem b

theorem Inv.tiled {pg : PageSize} {s : Sys} {ns : List Nat} (I : Inv pg s ns) : Tiled pg s ns := by
  refine ⟨I.layout.chain, I.layout.tiles, fun r hr => ⟨I.heads r hr, ?_⟩, I.blocks⟩
  exact List.count_eq_one_of_mem (List.nodup_append.mp I.layout.nodup).1 (I.heads r hr).mem

/-- After every call the free list and the live blocks tile exactly the pages obtained, the page
heads stay for good, the blocks are intact, and every further call returns. -/
theorem shared_allocator_tiling (pg : PageSize) {s : Sys} (h : Reachable pg s) :
    (∃ ns, Tiled pg s ns) ∧
    (∀ t, Trans.Reach (· = s) (Trans.ofFun (step pg)) t → ∃ ns, Tiled pg t ns ∧
      ∀ r ∈ s.ranges, PageHead pg t.heap.mem ns r) ∧
    (∀ size : Nat, size < 2 ^ 63 → ∀ answer, ∃ fuel t,
      step pg s (.malloc size fuel answer) = some t) ∧
    ∀ b ∈ s.live, ∃ t, step pg s (.free b.ptr) = some t := by
  obtain ⟨ns, I⟩ := inv_of_reachable h
  refine ⟨⟨ns, I.tiled⟩, fun t ht => ?_, fun size hs answer => ?_, fun b hb => ?_⟩
  · obtain ⟨ns', I'⟩ := inv_of_reachable (h.trans ht)
    exact ⟨ns', I'.tiled, fun r hr => I'.heads r (ranges_of_reach h ht r hr)⟩
  · obtain ⟨t, _, ht, _⟩ := I.malloc hs (Nat.lt_succ_self ns.length) answer
    exact ⟨_, t, ht⟩
  · obtain ⟨t, _, ht, _⟩ := I.free hb
    exact ⟨t, ht⟩

def emptySys : Sys := ⟨⟨fun _ => 0, 0, false⟩, [], []⟩

def twoBlocks : List Call :=
  [.malloc 10 1 (some 4096), .malloc 100 3 none, .free 4136, .malloc 0 3 none, .write 4176 7]

theorem shared_allocator_tiling_two_blocks : ∃ t, Reachable page4096 t ∧ t.live.length = 2 ∧
    ∃ ns, Tiled page4096 t ns := by
  have hrun : (Trans.exec (step page4096) twoBlocks emptySys).isSome := by decide +kernel
  obtain ⟨t, ht⟩ := Option.isSome_iff_exists.mp hrun
  have hlive : (Trans.exec (step page4096) twoBlocks emptySys).map (fun t => t.live.length) =
      some 2 := by decide +kernel
  have hr : Reachable page4096 t := .of_exec (.init ⟨rfl, rfl, rfl, rfl⟩) ht
  rw [ht] at hlive
  exact ⟨t, hr, Option.some.inj hlive, (shared_allocator_tiling page4096 hr).1⟩

end Subcontexts.Alloc
