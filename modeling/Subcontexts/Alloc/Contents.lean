import Subcontexts.Alloc.Runs
import Subcontexts.Lib.Buffers

/-! What the users of the shared allocator see: buffers apart from each other, which hold what was
written to them. -/

namespace Subcontexts.Alloc

def Block.buffer (m : Mem) (b : Block) : Buffers.Buffer := ⟨b.req, fun i => m (b.ptr + i)⟩

def Sys.buffer (s : Sys) (p : Nat) : Option Buffers.Buffer :=
  (s.live.find? fun b => b.ptr = p).map (Block.buffer s.heap.mem)

abbrev UserStore := Buffers.Store (sizeofFooter + sizeofHeader)

def Shows (s : Sys) (m : UserStore) : Prop := m.buffer = s.buffer

def Call.Effect : Call → Buffers.Op → Prop
  | .malloc size _ _, op => op = .idle ∨ ∃ p b, op = .alloc p b ∧ (b.size : Int) = size
  | .free p, op => op = .free p
  | .write w v, op => ∃ p i, w = p + i ∧ op = .write p i v

def Call.Spares (p : Nat) (b : Buffers.Buffer) : Call → Prop
  | .malloc .. => True
  | .free q => q ≠ p
  | .write w _ => w < p ∨ p + b.size ≤ w

section Buffers
variable {pg : PageSize} {s t : Sys} {ns : List Nat} {b : Block} {p : Nat}

theorem Block.ptr_inj {b c : Block} (h : b.ptr = c.ptr) : b.start = c.start := Nat.add_right_cancel h

theorem Inv.eq_of_ptr (I : Inv pg s ns) {c : Block} (hb : b ∈ s.live) (hc : c ∈ s.live)
    (h : b.ptr = c.ptr) : b = c :=
  List.inj_on_of_nodup_map (List.nodup_append.mp I.layout.nodup).2.1 hb hc (Block.ptr_inj h)

theorem Inv.buffer_of_mem (I : Inv pg s ns) (hb : b ∈ s.live) :
    s.buffer b.ptr = some (b.buffer s.heap.mem) := by
  have hfind : s.live.find? (fun c => c.ptr = b.ptr) = some b := by
    cases hf : s.live.find? fun c => c.ptr = b.ptr with
    | none =>
      have hnone := List.find?_eq_none.mp hf b hb
      exact absurd (decide_eq_true rfl) hnone
    | some c =>
      have hc := List.find?_some hf
      rw [I.eq_of_ptr (List.mem_of_find?_eq_some hf) hb (of_decide_eq_true hc)]
  rw [Sys.buffer, hfind, Option.map_some]

theorem mem_of_buffer {buf : Buffers.Buffer} (h : s.buffer p = some buf) :
    ∃ b ∈ s.live, b.ptr = p ∧ b.buffer s.heap.mem = buf := by
  obtain ⟨b, hb, rfl⟩ := Option.map_eq_some_iff.mp h
  exact ⟨b, List.mem_of_find?_eq_some hb, of_decide_eq_true (List.find?_some hb :), rfl⟩

theorem buffer_eq_none : s.buffer p = none ↔ ∀ b ∈ s.live, b.ptr ≠ p := by
  rw [Sys.buffer, Option.map_eq_none_iff, List.find?_eq_none]
  simp

theorem Inv.room (I : Inv pg s ns) (hb : b ∈ s.live) {w : Nat} (hw : b.ptr ≤ w)
    (hw' : w < b.ptr + b.req) : w ∈ piece s.heap.mem b.start := by
  have hroom := (I.blocks b hb).room
  have hge := (I.chunk_live b.start (List.mem_map_of_mem hb)).len_ge
  unfold Block.ptr footOf sizeofHeader sizeofFooter at *
  exact ⟨by omega, by omega⟩

theorem Inv.apart (I : Inv pg s ns) {c : Block} (hb : b ∈ s.live) (hc : c ∈ s.live)
    (hlt : b.ptr < c.ptr) : b.ptr + b.req + (sizeofFooter + sizeofHeader) ≤ c.ptr := by
  have hroom := (I.blocks b hb).room
  have hmemb : b.start ∈ ns ++ starts s.live := List.mem_append_right _ (List.mem_map_of_mem hb)
  have hmemc : c.start ∈ ns ++ starts s.live := List.mem_append_right _ (List.mem_map_of_mem hc)
  have hge := (I.layout.chunk _ hmemb).len_ge
  have hne : c.start ≠ b.start := by
    intro heq
    unfold Block.ptr at hlt
    omega
  have hout := I.layout.start_notMem hmemc hmemb hne
  unfold Block.ptr footOf piece sizeofHeader sizeofFooter at *
  rw [Set.mem_Ico] at hout
  omega

def Inv.store (I : Inv pg s ns) : UserStore where
  buffer := s.buffer
  apart hp hq hlt := by
    obtain ⟨b, hb, rfl, rfl⟩ := mem_of_buffer hp
    obtain ⟨c, hc, rfl, rfl⟩ := mem_of_buffer hq
    exact I.apart hb hc hlt

theorem Inv.buffer_congr (I : Inv pg s ns) (hb : b ∈ s.live)
    (hw : ∀ w ∈ piece s.heap.mem b.start, t.heap.mem w = s.heap.mem w) :
    b.buffer t.heap.mem = b.buffer s.heap.mem := by
  unfold Block.buffer
  congr 1
  funext i
  exact hw _ (I.room hb (Nat.le_add_right ..) (Nat.add_lt_add_left i.isLt _))

end Buffers

section Steps
variable {pg : PageSize} {s t : Sys} {ns : List Nat}

theorem Inv.malloc_words (I : Inv pg s ns) {size : Int} {fuel : Nat} {answer : Option Nat}
    (h : Alloc.step pg s (.malloc size fuel answer) = some t) :
    t = s ∨ ∃ b, (b.req : Int) = size ∧ t.live = b :: s.live ∧
      ∀ o ∈ starts s.live, ∀ w ∈ piece s.heap.mem o, t.heap.mem w = s.heap.mem w := by
  have hsz : size < 2 ^ 63 := by
    by_contra hn
    rw [Alloc.step, if_neg hn] at h
    cases h
  have hpos : 0 ≤ size := by
    rw [Alloc.step, if_pos hsz] at h
    split at h
    · exact scMalloc_nonneg ‹_›
    · exact scMalloc_nonneg ‹_›
    · cases h
  obtain ⟨n, rfl⟩ := Int.eq_ofNat_of_zero_le hpos
  have hs : n < 2 ^ 63 := by exact_mod_cast hsz
  have hmono := step_malloc_mono (Nat.le_max_left fuel (ns.length + 1)) h
  have hf : ns.length < max fuel (ns.length + 1) := by omega
  rw [Alloc.step, if_pos hsz] at hmono
  by_cases hfit : ∃ a ∈ ns, fits s.heap.mem (allocSize n) (splitSize n) a
  · obtain ⟨b, ns', h', hr, -, C, -⟩ := scMalloc_of_fit pg (kernelMmap pg answer) s.ranges
      I.layout I.lock hs hf hfit
    rw [hr] at hmono
    obtain rfl := Option.some.inj hmono
    exact .inr ⟨⟨b + sizeofHeader - sizeofHeader, n⟩, rfl, rfl, C.kept.words⟩
  · have hnone : ∀ a ∈ ns, ¬ fits s.heap.mem (allocSize n) (splitSize n) a :=
      fun a ha hfa => hfit ⟨a, ha, hfa⟩
    have hfailed : kernelMmap pg answer s.ranges (mmapSize pg n) = (none, s.ranges) → t = s := by
      intro hm
      rw [scMalloc_of_failed pg (kernelMmap pg answer) s.ranges I.layout.chain I.lock hs hf hnone
        hm] at hmono
      exact (Option.some.inj hmono).symm
    cases answer with
    | none => exact .inl (hfailed rfl)
    | some base =>
      by_cases hfresh : Fresh pg s.ranges base (mmapSize pg n)
      · have hm : kernelMmap pg (some base) s.ranges (mmapSize pg n) =
            (some base, ⟨base, mmapSize pg n⟩ :: s.ranges) := if_pos hfresh
        have hd := disjoint_covered hfresh
        have hlong : 24 ≤ mmapSize pg n := by
          have hle := splitSize_le_mmapSize pg hs
          rw [splitSize_eq hs] at hle
          omega
        obtain ⟨b, ns', h', hr, -, -, C, -⟩ := scMalloc_of_pages pg (kernelMmap pg (some base))
          s.ranges I.layout I.lock hs hf hnone hm hfresh.1 (Nat.dvd_trans pg.dvd hfresh.2.1)
          hfresh.2.2.1 hd
        rw [hr] at hmono
        obtain rfl := Option.some.inj hmono
        refine .inr ⟨⟨b + sizeofHeader - sizeofHeader, n⟩, rfl, rfl, fun o ho w hw => ?_⟩
        have hall : o ∈ ns ++ starts s.live := List.mem_append_right _ ho
        have hpush : ∀ x ∈ piece s.heap.mem o,
            (pushPages pg (mmapSize pg n) base s.heap).mem x = s.heap.mem x :=
          fun x hx => I.layout.pushPages_word hlong hd hall hx
        have hlen : len (pushPages pg (mmapSize pg n) base s.heap).mem o = len s.heap.mem o :=
          hpush o (I.chunk_live o ho).self_mem
        exact (C.kept.words o ho w (piece_congr hlen ▸ hw)).trans (hpush w hw)
      · exact .inl (hfailed (if_neg hfresh))

theorem Inv.free_words (I : Inv pg s ns) {b : Block} (hb : b ∈ s.live)
    (h : Alloc.step pg s (.free b.ptr) = some t) :
    t.live = s.live.eraseP (fun c => c.ptr = b.ptr) ∧
      ∀ w, w ∉ piece s.heap.mem b.start → t.heap.mem w = s.heap.mem w := by
  obtain ⟨l₁, l₂, hlive⟩ := List.append_of_mem hb
  have hperm : (starts s.live).Perm (b.start :: starts (l₁ ++ l₂)) := by
    rw [hlive, starts, starts, List.map_append, List.map_append, List.map_cons]
    exact List.perm_middle
  obtain ⟨h', hr, -, -, -, hoff⟩ := scFree_of_block (I.layout.perm_os hperm) (I.blocks b hb).block
    I.lock
  have hr : scFree b.ptr s.heap = .ok h' := hr
  rw [Alloc.step, if_pos ⟨b, hb, rfl⟩, hr] at h
  obtain rfl := Option.some.inj h
  exact ⟨rfl, hoff⟩

theorem Inv.malloc_step (I : Inv pg s ns) {ns' : List Nat} (I' : Inv pg t ns') {size : Int}
    {fuel : Nat} {answer : Option Nat} (h : Alloc.step pg s (.malloc size fuel answer) = some t) :
    ∃ op, (Call.malloc size fuel answer).Effect op ∧ I.store.Step op I'.store := by
  rcases I.malloc_words h with rfl | ⟨b, hreq, hlive, hwords⟩
  · exact ⟨.idle, .inl rfl, rfl⟩
  have hb : b ∈ t.live := hlive ▸ List.mem_cons_self ..
  have hold : ∀ c ∈ s.live, c.ptr ≠ b.ptr := by
    intro c hc heq
    have hnodup := (List.nodup_append.mp I'.layout.nodup).2.1
    rw [hlive] at hnodup
    have hc : c.start ∈ starts s.live := List.mem_map_of_mem hc
    exact (List.nodup_cons.mp hnodup).1 (Block.ptr_inj heq ▸ hc)
  refine ⟨.alloc b.ptr (b.buffer t.heap.mem), .inr ⟨_, _, rfl, hreq⟩, buffer_eq_none.mpr hold,
    funext fun p => ?_⟩
  show t.buffer p = _
  by_cases hp : p = b.ptr
  · subst hp
    rw [Function.update_self, I'.buffer_of_mem hb]
  · rw [Function.update_of_ne hp]
    show t.buffer p = s.buffer p
    cases hbuf : s.buffer p with
    | none =>
      refine buffer_eq_none.mpr fun c hc => ?_
      rw [hlive] at hc
      rcases List.mem_cons.mp hc with rfl | hc
      · exact fun heq => hp heq.symm
      · exact buffer_eq_none.mp hbuf c hc
    | some buf =>
      obtain ⟨c, hc, rfl, rfl⟩ := mem_of_buffer hbuf
      rw [I'.buffer_of_mem (hlive ▸ List.mem_cons_of_mem _ hc),
        I.buffer_congr hc (hwords _ (List.mem_map_of_mem hc))]

theorem Inv.free_step (I : Inv pg s ns) {ns' : List Nat} (I' : Inv pg t ns') {p : Nat}
    (h : Alloc.step pg s (.free p) = some t) : I.store.Step (.free p) I'.store := by
  obtain ⟨b, hb, rfl⟩ : ∃ b ∈ s.live, b.ptr = p := by
    by_contra hn
    rw [Alloc.step, if_neg hn] at h
    cases h
  obtain ⟨hlive, hoff⟩ := I.free_words hb h
  refine ⟨fun hnone => absurd rfl (buffer_eq_none.mp hnone b hb), funext fun p => ?_⟩
  show t.buffer p = _
  by_cases hp : p = b.ptr
  · subst hp
    rw [Function.update_self]
    refine buffer_eq_none.mpr fun c hc heq => ?_
    -- a second block at the address would be the freed one again
    have hcs : c ∈ s.live := List.mem_of_mem_eraseP (hlive ▸ hc)
    obtain rfl := I.eq_of_ptr hcs hb heq
    have hnodup := (List.nodup_append.mp I.layout.nodup).2.1
    obtain ⟨d, l₁, l₂, hnot, hd, hsplit, herase⟩ :=
      List.exists_of_eraseP (p := fun d : Block => decide (d.ptr = c.ptr)) hb (decide_eq_true rfl)
    obtain rfl := I.eq_of_ptr (hsplit ▸ List.mem_append_right _ (List.mem_cons_self ..)) hb
      (of_decide_eq_true hd)
    rw [hlive, herase] at hc
    rw [hsplit, starts, List.map_append, List.map_cons] at hnodup
    have hout := (List.nodup_cons.mp (List.perm_middle.nodup_iff.mp hnodup)).1
    rw [← List.map_append] at hout
    exact hout (List.mem_map_of_mem hc)
  · rw [Function.update_of_ne hp]
    show t.buffer p = s.buffer p
    cases hbuf : s.buffer p with
    | none =>
      refine buffer_eq_none.mpr fun c hc => ?_
      exact buffer_eq_none.mp hbuf c (List.mem_of_mem_eraseP (hlive ▸ hc))
    | some buf =>
      obtain ⟨c, hc, rfl, rfl⟩ := mem_of_buffer hbuf
      have hct : c ∈ t.live :=
        hlive ▸ (List.mem_eraseP_of_neg (p := fun d : Block => decide (d.ptr = b.ptr))
          (by simpa using hp)).mpr hc
      have hne : c.start ≠ b.start := fun heq => hp (congrArg (· + sizeofHeader) heq)
      rw [I'.buffer_of_mem hct, I.buffer_congr hc fun w hw => hoff w ?_]
      exact I.layout.notMem (List.mem_append_right _ (List.mem_map_of_mem hc))
        (List.mem_append_right _ (List.mem_map_of_mem hb)) hne hw

theorem Inv.write_step (I : Inv pg s ns) {ns' : List Nat} (I' : Inv pg t ns') {w v : Nat}
    (h : Alloc.step pg s (.write w v) = some t) :
    ∃ op, (Call.write w v).Effect op ∧ I.store.Step op I'.store := by
  rw [Alloc.step] at h
  split at h
  · rename_i hex
    obtain ⟨b, hb, hlo, hhi⟩ := hex
    obtain rfl := Option.some.inj h
    obtain ⟨i, rfl⟩ := Nat.exists_eq_add_of_le hlo
    have hi : i < b.req := Nat.lt_of_add_lt_add_left hhi
    refine ⟨.write b.ptr i v, ⟨_, _, rfl, rfl⟩, _, I.buffer_of_mem hb, hi, funext fun p => ?_⟩
    show Option.map _ _ = _
    by_cases hp : p = b.ptr
    · subst hp
      rw [Function.update_self]
      refine (I'.buffer_of_mem hb).trans (congrArg some ?_)
      unfold Block.buffer
      congr 1
      funext j
      show Alloc.store s.heap.mem (b.ptr + i) v (b.ptr + j) = _
      unfold Alloc.store
      rw [Function.update_apply, Function.update_apply]
      by_cases hj : j = ⟨i, hi⟩
      · rw [if_pos hj, hj, if_pos rfl]
      · rw [if_neg hj, if_neg fun heq => hj (Fin.ext (Nat.add_left_cancel heq))]
    · rw [Function.update_of_ne hp]
      show _ = s.buffer p
      cases hbuf : s.buffer p with
      | none => exact buffer_eq_none.mpr fun c hc => buffer_eq_none.mp hbuf c hc
      | some buf =>
        obtain ⟨c, hc, rfl, rfl⟩ := mem_of_buffer hbuf
        refine (I'.buffer_of_mem hc).trans (congrArg some (I.buffer_congr hc fun x hx => ?_))
        refine Function.update_of_ne ?_ _ _
        rintro rfl
        have hne : c.start ≠ b.start := fun heq => hp (congrArg (· + sizeofHeader) heq)
        exact I.layout.notMem (List.mem_append_right _ (List.mem_map_of_mem hc))
          (List.mem_append_right _ (List.mem_map_of_mem hb)) hne hx (I.room hb hlo hhi)
  · cases h

theorem Inv.effect (I : Inv pg s ns) {ns' : List Nat} (I' : Inv pg t ns') {c : Call}
    (h : Alloc.step pg s c = some t) : ∃ op, c.Effect op ∧ I.store.Step op I'.store := by
  cases c with
  | malloc size fuel answer => exact I.malloc_step I' h
  | free p => exact ⟨_, rfl, I.free_step I' h⟩
  | write w v => exact I.write_step I' h

end Steps

section Main
variable {pg : PageSize} {s t : Sys}

theorem shows_unique {m m' : UserStore} (h : Shows s m) (h' : Shows s m') : m = m' := by
  cases m
  cases m'
  congr 1
  exact h.trans h'.symm

theorem simulates (pg : PageSize) :
    Buffers.Simulates Sys.init (Trans.ofFun (step pg)) Shows Call.Effect := by
  intro s c t m hs hm hst
  obtain ⟨ns, I⟩ := inv_of_reachable hs
  obtain ⟨ns', I'⟩ := inv_of_reachable (.step hs hst)
  obtain ⟨op, heffect, hstep⟩ := I.effect I' hst
  obtain rfl : m = I.store := shows_unique hm rfl
  exact ⟨op, I'.store, heffect, hstep, rfl⟩

theorem Call.Spares.target {p : Nat} {b : Buffers.Buffer} {m m' : UserStore} {c : Call}
    {op : Buffers.Op} (hc : c.Spares p b) (hb : m.buffer p = some b) (heffect : c.Effect op)
    (hstep : m.Step op m') : op.target ≠ some p := by
  cases c with
  | malloc size fuel answer =>
    rcases heffect with rfl | ⟨q, d, rfl, -⟩
    · exact (Option.some_ne_none p).symm
    · intro heq
      obtain rfl := Option.some.inj heq
      rw [hstep.1] at hb
      cases hb
  | free q =>
    obtain rfl : op = .free q := heffect
    exact fun heq => hc (Option.some.inj heq)
  | write w v =>
    obtain ⟨q, i, rfl, rfl⟩ := heffect
    intro heq
    obtain rfl := Option.some.inj heq
    obtain ⟨d, hd, hi, -⟩ := hstep
    obtain rfl := Option.some.inj (hd.symm.trans hb)
    rcases hc with hc | hc
    · omega
    · omega

/-- The allocator and its users are a store of buffers that stay apart: each call is one operation
on it, and a buffer is kept over every run that neither frees nor writes it. -/
theorem buffers_keep_their_contents (pg : PageSize) (h : Reachable pg s) :
    ∃ m, Shows s m ∧
      (∀ p b, m.buffer p = some b → 8 ∣ p ∧ Set.Ico p (p + b.size) ⊆ covered s.ranges) ∧
      (∀ c t, step pg s c = some t → ∃ op m', c.Effect op ∧ m.Step op m' ∧ Shows t m') ∧
      ∀ p b t, m.buffer p = some b →
        Trans.Reach (· = s) (Trans.Guarded (fun _ c => c.Spares p b) (Trans.ofFun (step pg))) t →
        ∃ m', Shows t m' ∧ m'.buffer p = some b := by
  obtain ⟨ns, I⟩ := inv_of_reachable h
  refine ⟨I.store, rfl, fun p b hb => ?_, fun c t hst => ?_, fun p b t hb ht => ?_⟩
  · obtain ⟨d, hd, rfl, rfl⟩ := mem_of_buffer hb
    have hmem : d.start ∈ ns ++ starts s.live := List.mem_append_right _ (List.mem_map_of_mem hd)
    refine ⟨(I.blocks d hd).align, fun w hw => ?_⟩
    exact I.layout.tiles.subset (List.mem_map_of_mem hmem) (I.room hd hw.1 hw.2)
  · exact simulates pg s c t I.store h rfl hst
  · exact (simulates pg).kept (m := I.store) h rfl hb (fun m m' c op hc => hc.target) ht

def secondWritten : List Call :=
  [.malloc 10 1 (some 4096), .malloc 100 3 none, .write 4176 7]

/-- The first of them is freed and used again. -/
theorem buffers_keep_their_contents_write : ∃ s t m, Reachable page4096 s ∧ Shows t m ∧
    Trans.exec (step page4096) [.free 4136, .malloc 0 3 none] s = some t ∧
    ∃ b, m.buffer 4176 = some b ∧ ∃ h : 0 < b.size, b.word ⟨0, h⟩ = 7 := by
  have hrun : (Trans.exec (step page4096) secondWritten emptySys).isSome := by decide +kernel
  have hword : ((Trans.exec (step page4096) secondWritten emptySys).bind (·.buffer 4176)).map
      (fun b => if h : 0 < b.size then b.word ⟨0, h⟩ else 0) = some 7 := by decide +kernel
  have hmore : ((Trans.exec (step page4096) secondWritten emptySys).bind
      (Trans.exec (step page4096) [.free 4136, .malloc 0 3 none])).isSome := by decide +kernel
  obtain ⟨s, hs⟩ := Option.isSome_iff_exists.mp hrun
  rw [hs, Option.bind_some] at hword hmore
  obtain ⟨t, ht⟩ := Option.isSome_iff_exists.mp hmore
  obtain ⟨b, hb, hseven⟩ := Option.map_eq_some_iff.mp hword
  have hr : Reachable page4096 s := .of_exec (.init ⟨rfl, rfl, rfl, rfl⟩) hs
  have hgo : Trans.Reach (· = s)
      (Trans.Guarded (fun _ c => c.Spares 4176 b) (Trans.ofFun (step page4096))) t := by
    refine .of_exec_guarded (.init rfl) (fun c hc s => ?_) ht
    rcases List.mem_cons.mp hc with rfl | hc
    · exact (by decide : 4136 ≠ 4176)
    · obtain rfl := List.mem_singleton.mp hc
      exact trivial
  obtain ⟨m, hm, -, -, hkept⟩ := buffers_keep_their_contents page4096 hr
  obtain ⟨m', hm', hb'⟩ := hkept 4176 b t (hm ▸ hb) hgo
  refine ⟨s, t, m', hr, hm', ht, b, hb', ?_⟩
  split at hseven
  · exact ⟨‹_›, hseven⟩
  · cases hseven

end Main
end Subcontexts.Alloc
