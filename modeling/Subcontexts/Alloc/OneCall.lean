import Subcontexts.Alloc.Malloc

/-! One call of `sc_malloc` on any well-formed free list, whatever else the heap holds: its size
computations, its assertions and what it leaves on the list. -/

namespace Subcontexts.Alloc

/-- A free list of nodes that do not overlap, in any order and with any page heads among them. -/
structure FreeNodes (h : Heap) (ns : List Nat) : Prop where
  chain : (links h).Holds ns
  chunk : ∀ a ∈ ns, Chunk h.mem a
  apart : ns.Pairwise fun a b => Disjoint (piece h.mem a) (piece h.mem b)

/-- No computation of a size leaves the 64-bit range. Both splits subtract from the length of a node
that is long enough for the larger size. -/
structure NoWrap (pg : PageSize) (size : Nat) : Prop where
  header : sizeofHeader + size < 2 ^ 64
  round : sizeofHeader + size + 7 < 2 ^ 64
  footer : (sizeofHeader + size + 7) / 8 * 8 + sizeofFooter < 2 ^ 64
  alloc : allocSize size = (sizeofHeader + size + 7) / 8 * 8 + sizeofFooter
  listNode : allocSize size + sizeofListNode < 2 ^ 64
  split : splitSize size = allocSize size + sizeofListNode
  page : splitSize size + pg.bytes - 1 < 2 ^ 64
  pages : (splitSize size + pg.bytes - 1) / pg.bytes * pg.bytes < 2 ^ 64
  mmap : mmapSize pg size = (splitSize size + pg.bytes - 1) / pg.bytes * pg.bytes
  subHead : ∀ n < 2 ^ 64, splitSize size ≤ n →
    sizeofListNode ≤ n ∧ sub64 n sizeofListNode = n - sizeofListNode
  subBlock : ∀ n < 2 ^ 64, splitSize size ≤ n →
    allocSize size ≤ n ∧ sub64 n (allocSize size) = n - allocSize size

structure Allocated (h' : Heap) (ns ns' : List Nat) (size b : Nat) : Prop where
  free : FreeNodes h' ns'
  chunk : Chunk h'.mem b
  block : IsBlock h'.mem b
  apart : ∀ a ∈ ns', Disjoint (piece h'.mem a) (piece h'.mem b)
  len_ge : allocSize size ≤ len h'.mem b
  len_lt : len h'.mem b < allocSize size + 24
  kept : ns ⊆ b :: ns'

section Calls
variable {σ : Type} {h : Heap} {ns : List Nat} {size fuel : Nat}

inductive OneCall (pg : PageSize) (scMmap : σ → Nat → Option Nat × σ) (h : Heap) (ns : List Nat)
    (size : Nat) (e : σ) : Option Nat → Heap → σ → Prop where
  | found {h' : Heap} {ns' : List Nat} {b : Nat} :
    (∃ a ∈ ns, fits h.mem (allocSize size) (splitSize size) a) → Allocated h' ns ns' size b →
    OneCall pg scMmap h ns size e (some (b + sizeofHeader)) h' e
  | pages {h' : Heap} {e' : σ} {ns' : List Nat} {b buf : Nat} :
    (∀ a ∈ ns, ¬ fits h.mem (allocSize size) (splitSize size) a) →
    scMmap e (mmapSize pg size) = (some buf, e') → Allocated h' ns ns' size b →
    OneCall pg scMmap h ns size e (some (b + sizeofHeader)) h' e'
  | failed {e' : σ} :
    (∀ a ∈ ns, ¬ fits h.mem (allocSize size) (splitSize size) a) →
    scMmap e (mmapSize pg size) = (none, e') → OneCall pg scMmap h ns size e none h e'

theorem noWrap (pg : PageSize) (hs : size < 2 ^ 63) : NoWrap pg size := by
  have halloc := allocSize_eq hs
  have hsplit := splitSize_eq hs
  have hpg := pg.lt
  have hle := Nat.div_mul_le_self (splitSize size + pg.bytes - 1) pg.bytes
  refine ⟨?_, ?_, ?_, ?_, ?_, hsplit, ?_, ?_, mmapSize_eq pg hs, fun n hn hge => ?_,
    fun n hn hge => ?_⟩
  · unfold sizeofHeader
    omega
  · unfold sizeofHeader
    omega
  · unfold sizeofHeader sizeofFooter
    omega
  · rw [halloc]
    unfold sizeofHeader sizeofFooter
    omega
  · unfold sizeofListNode
    omega
  · omega
  · omega
  · have hnode : sizeofListNode ≤ n := by
      unfold sizeofListNode
      omega
    exact ⟨hnode, sub64_of_le hnode hn⟩
  · have hblock : allocSize size ≤ n := by omega
    exact ⟨hblock, sub64_of_le hblock hn⟩

theorem FreeNodes.layout (F : FreeNodes h ns) :
    Layout h ns [] {x | ∃ a ∈ ns, x ∈ piece h.mem a} := by
  refine ⟨F.chain, ⟨?_, fun x => ?_⟩, ?_⟩
  · rw [List.append_nil]
    exact List.pairwise_map.mpr F.apart
  · simp
  · rw [List.append_nil]
    exact F.chunk

theorem Layout.freeNodes {os : List Nat} {U : Set Nat} (L : Layout h ns os U) : FreeNodes h ns := by
  refine ⟨L.chain, fun a ha => L.chunk a (List.mem_append_left _ ha), ?_⟩
  have hd := List.pairwise_map.mp L.tiles.disjoint
  exact (List.pairwise_append.mp hd).1

theorem Layout.Carved.allocated {h₀ h' : Heap} {ns₀ ns' : List Nat} {U : Set Nat} {b : Nat}
    (C : Layout.Carved h₀ h' ns₀ ns' [] U (allocSize size) b) (hsub : ns ⊆ b :: ns') :
    Allocated h' ns ns' size b := by
  have hb : b ∈ ns' ++ [b] := by simp
  refine ⟨C.layout.freeNodes, C.layout.chunk b hb, C.block, fun a ha => ?_, C.len_ge, C.len_lt,
    hsub⟩
  have hne : a ≠ b := C.layout.ne_of_mem_os (by simpa using ha)
  exact C.layout.tiles.disjoint_of_ne (List.mem_append_left _ ha) hb hne

/-- Every call returns, so none of its assertions fails. -/
theorem sc_malloc_one_call (pg : PageSize) (scMmap : σ → Nat → Option Nat × σ) (e : σ)
    (F : FreeNodes h ns) (hl : h.lock = false) (hs : size < 2 ^ 63) (hf : ns.length < fuel)
    (hm : ∀ buf e', scMmap e (mmapSize pg size) = (some buf, e') →
      0 < buf ∧ pg.bytes ∣ buf ∧ buf + mmapSize pg size ≤ 2 ^ 64 ∧
        ∀ a ∈ ns, Disjoint (Set.Ico buf (buf + mmapSize pg size)) (piece h.mem a)) :
    NoWrap pg size ∧ ∃ r h' e', scMalloc pg scMmap fuel size h e = .ok (r, h', e') ∧
      h'.lock = false ∧ OneCall pg scMmap h ns size e r h' e' := by
  refine ⟨noWrap pg hs, ?_⟩
  have L := F.layout
  by_cases hfit : ∃ a ∈ ns, fits h.mem (allocSize size) (splitSize size) a
  · obtain ⟨b, ns', h', hrun, hlock, C, hsub⟩ := scMalloc_of_fit pg scMmap e L hl hs hf hfit
    exact ⟨_, h', e, hrun, hlock, .found hfit (C.allocated hsub)⟩
  · have hnone : ∀ a ∈ ns, ¬ fits h.mem (allocSize size) (splitSize size) a :=
      fun a ha hfa => hfit ⟨a, ha, hfa⟩
    rcases hmap : scMmap e (mmapSize pg size) with ⟨_ | buf, e'⟩
    · exact ⟨none, h, e', scMalloc_of_failed pg scMmap e F.chain hl hs hf hnone hmap, hl,
        .failed hnone hmap⟩
    · obtain ⟨hbuf, hpage, hend, hfresh⟩ := hm buf e' hmap
      have hd : Disjoint (Set.Ico buf (buf + mmapSize pg size)) {x | ∃ a ∈ ns, x ∈ piece h.mem a} := by
        refine Set.disjoint_left.mpr fun x hx hmem => ?_
        obtain ⟨a, ha, hxa⟩ := hmem
        exact Set.disjoint_left.mp (hfresh a ha) hx hxa
      obtain ⟨b, ns', h', hrun, hlock, -, C, hsub⟩ := scMalloc_of_pages pg scMmap e L hl hs hf hnone
        hmap hbuf (Nat.dvd_trans pg.dvd hpage) hend hd
      exact ⟨_, h', e', hrun, hlock, .pages hnone hmap (C.allocated hsub)⟩

end Calls

def smallHeap : Heap where
  mem a := if a = 0x1000 then 0x1000 else if a = 0x1008 then 0x2000 else if a = 0x1010 then 1
    else if a = 0x2000 then 40 else 0
  freeList := 0x1000
  lock := false

theorem smallHeap_freeNodes : FreeNodes smallHeap [0x1000, 0x2000] := by
  refine ⟨⟨rfl, rfl, rfl⟩, fun a ha => ?_, ?_⟩
  · rcases List.mem_cons.mp ha with rfl | ha
    · exact ⟨by decide, by decide, by decide, by decide, by decide⟩
    · obtain rfl := List.mem_singleton.mp ha
      exact ⟨by decide, by decide, by decide, by decide, by decide⟩
  · refine List.pairwise_cons.mpr ⟨fun b hb => ?_, List.pairwise_singleton _ _⟩
    obtain rfl := List.mem_singleton.mp hb
    exact Set.Ico_disjoint_Ico.mpr (by decide)

def freshPages (calls _len : Nat) : Option Nat × Nat := (some 0x10000, calls + 1)

/-- Two fresh pages are split twice. -/
theorem sc_malloc_one_call_split : ∃ r h' e',
    scMalloc page4096 freshPages 3 (5000 : Nat) smallHeap 0 = .ok (r, h', e') ∧
      OneCall page4096 freshPages smallHeap [0x1000, 0x2000] 5000 0 r h' e' := by
  have hs : 5000 < 2 ^ 63 := by decide
  have hf : [0x1000, 0x2000].length < 3 := by decide
  obtain ⟨-, r, h', e', hrun, -, hcall⟩ := sc_malloc_one_call page4096 freshPages 0
    smallHeap_freeNodes rfl hs hf (fun buf e' h => by
      obtain rfl : 0x10000 = buf := Option.some.inj (congrArg Prod.fst h)
      refine ⟨by decide, by decide, by decide, fun a ha => ?_⟩
      rcases List.mem_cons.mp ha with rfl | ha
      · exact Set.Ico_disjoint_Ico.mpr (by decide)
      · obtain rfl := List.mem_singleton.mp ha
        exact Set.Ico_disjoint_Ico.mpr (by decide))
  exact ⟨r, h', e', hrun, hcall⟩

end Subcontexts.Alloc
