import Subcontexts.Alloc.Contents

/-! How much memory a run of the shared allocator takes when all its requests round to one block
size. Every node of the free list is worth the number of blocks that `sc_malloc` can still cut from
it. The splits keep the sum of these numbers, a delivery takes one off, `sc_free` puts one back, and
fresh pages are asked for only at sum zero. -/

namespace Subcontexts.Alloc

def capacity (A : Nat) (m : Mem) (a : Nat) : Nat :=
  (if pages m a = 0 then len m a else len m a - sizeofListNode) / A

def spare (A : Nat) (m : Mem) : List Nat → Nat
  | [] => 0
  | a :: ns => capacity A m a + spare A m ns

section Spare
variable {A : Nat} {m m' : Mem} {a b : Nat} {ns : List Nat}

theorem spare_cons (a : Nat) (ns : List Nat) :
    spare A m (a :: ns) = capacity A m a + spare A m ns := rfl

theorem spare_append (ns ns' : List Nat) : spare A m (ns ++ ns') = spare A m ns + spare A m ns' := by
  induction ns with
  | nil => exact (Nat.zero_add _).symm
  | cons a ns ih => rw [List.cons_append, spare_cons, spare_cons, ih, Nat.add_assoc]

theorem capacity_congr (hl : len m' a = len m a) (hp : pages m' a = pages m a) :
    capacity A m' a = capacity A m a := by
  unfold capacity
  rw [hl, hp]

theorem spare_congr (h : ∀ a ∈ ns, capacity A m' a = capacity A m a) :
    spare A m' ns = spare A m ns := by
  induction ns with
  | nil => rfl
  | cons a ns ih =>
    rw [List.forall_mem_cons] at h
    rw [spare_cons, spare_cons, h.1, ih h.2]

theorem capacity_eq_one (hA : 24 ≤ A) (hp : pages m a = 0) (hge : A ≤ len m a)
    (hlt : len m a < A + 24) : capacity A m a = 1 := by
  rw [capacity, if_pos hp]
  exact Nat.div_eq_of_lt_le (by omega) (by omega)

theorem fits_iff (hA : 0 < A) : fits m A (A + 24) a ↔ 0 < capacity A m a := by
  unfold fits capacity sizeofListNode
  rw [Nat.div_pos_iff]
  split
  · rename_i hp
    exact ⟨fun h => ⟨hA, by omega⟩, fun h => .inr ⟨h.2, hp⟩⟩
  · rename_i hp
    refine ⟨fun h => ⟨hA, ?_⟩, fun h => .inl (by omega)⟩
    rcases h with h | h
    · omega
    · exact absurd h.2 hp

theorem spare_eq_zero (hA : 0 < A) : spare A m ns = 0 ↔ ∀ a ∈ ns, ¬ fits m A (A + 24) a := by
  induction ns with
  | nil => exact iff_of_true rfl fun a ha => absurd ha List.not_mem_nil
  | cons a ns ih =>
    rw [spare_cons, List.forall_mem_cons, Nat.add_eq_zero_iff, ih, fits_iff hA, Nat.not_lt,
      Nat.le_zero]

end Spare

namespace Layout
variable {h h' : Heap} {ns os pre post : List Nat} {U : Set Nat} {c A : Nat}

theorem words_congr (L : Layout h (pre ++ c :: post) os U) {m' : Mem}
    (hoff : ∀ w, w ∉ piece h.mem c → m' w = h.mem w) :
    ∀ a ∈ pre ++ post, capacity A m' a = capacity A h.mem a := by
  intro a ha
  have hac : a ≠ c := L.ne_of_mem (.inl ha)
  have hmem : a ∈ pre ++ c :: post ++ os := by
    simp only [List.mem_append, List.mem_cons] at ha ⊢
    tauto
  have hw : ∀ w ∈ piece h.mem a, m' w = h.mem w := fun w hw =>
    hoff w (L.notMem hmem (by simp) hac hw)
  have hc := L.chunk a hmem
  exact capacity_congr (hw a hc.self_mem) (hw _ (hc.mem_piece (by omega)))

theorem split_spare (L : Layout h (pre ++ c :: post) os U) {k : Nat} (hk : 24 ≤ k)
    (hlen : k + 24 ≤ len h.mem c)
    (hcap : capacity A (splitNode h.mem c k) c + capacity A (splitNode h.mem c k) (c + k) =
      capacity A h.mem c) :
    spare A (splitNode h.mem c k) (pre ++ c :: (c + k) :: post) =
      spare A h.mem (pre ++ c :: post) := by
  have hother := L.words_congr (A := A) fun w hw => splitNode_off hk hlen hw
  have hpre : spare A (splitNode h.mem c k) pre = spare A h.mem pre :=
    spare_congr fun a ha => hother a (List.mem_append_left _ ha)
  have hpost : spare A (splitNode h.mem c k) post = spare A h.mem post :=
    spare_congr fun a ha => hother a (List.mem_append_right _ ha)
  simp only [spare_append, spare_cons]
  omega

theorem len_lt (L : Layout h ns os U) {a : Nat} (ha : a ∈ ns ++ os) : len h.mem a < 2 ^ 64 := by
  have hc := L.chunk a ha
  have := hc.fits
  have := hc.pos
  omega

theorem splitHead_spare (L : Layout h (pre ++ c :: post) os U) (hA : 24 ≤ A) {c' : Nat}
    {slot slot' : Option Nat} (he : Alloc.splitHead (A + 24) c slot h = .ok (c', slot', h'))
    (hc : (links h').Holds ns) : spare A h'.mem ns = spare A h.mem (pre ++ c :: post) := by
  unfold Alloc.splitHead at he
  split at he
  · rename_i hp
    obtain ⟨_, hlong, he⟩ := bind_eq_ok.mp he
    have hlong : A + 24 ≤ len h.mem c := check_eq_ok.mp hlong
    have hroom : 24 + 24 ≤ len h.mem c := by omega
    cases he
    have L' : Layout { h with mem := splitNode h.mem c 24 } (pre ++ c :: (c + 24) :: post) os U :=
      L.split (le_refl _) (by omega) hroom
    obtain rfl := hc.unique L'.chain
    have hnew := len_splitNode_new (m := h.mem) (c := c) (k := 24) (le_refl _)
      (Nat.le_of_add_right_le hroom) (L.len_lt (by simp))
    refine L.split_spare (le_refl _) hroom ?_
    change capacity A (splitNode h.mem c 24) c + capacity A (splitNode h.mem c 24) (c + 24) = _
    rw [capacity, capacity, capacity, if_neg ((pages_splitNode (le_refl _)).trans_ne hp),
      if_pos pages_splitNode_new, if_neg hp, len_splitNode (le_refl _), hnew]
    simp [sizeofListNode]
  · cases he
    obtain rfl := hc.unique L.chain
    rfl

theorem splitBlock_spare (L : Layout h (pre ++ c :: post) os U) (hA : 24 ≤ A) (hdvd : 8 ∣ A)
    (hp : pages h.mem c = 0) (hc : (links (Alloc.splitBlock A (A + 24) c h)).Holds ns) :
    spare A (Alloc.splitBlock A (A + 24) c h).mem ns = spare A h.mem (pre ++ c :: post) := by
  unfold Alloc.splitBlock at hc ⊢
  split
  · rename_i hlong
    rw [if_pos hlong] at hc
    obtain rfl := hc.unique (L.split hA hdvd hlong).chain
    have hnew := len_splitNode_new (m := h.mem) (c := c) hA (by omega) (L.len_lt (by simp))
    refine L.split_spare hA hlong ?_
    rw [capacity, capacity, capacity, if_pos ((pages_splitNode hA).trans hp),
      if_pos pages_splitNode_new, if_pos hp, len_splitNode hA, hnew, Nat.div_self (by omega),
      Nat.add_comm, ← Nat.add_div_right _ (by omega), Nat.sub_add_cancel (by omega)]
  · rename_i hshort
    rw [if_neg hshort] at hc
    obtain rfl := hc.unique L.chain
    rfl

theorem pages_assign (L : Layout h ns os U) {v : Nat} {slot : Option Nat}
    (hslot : ∀ a, slot = some a → a ∈ ns) {x : Nat} (hx : x ∈ ns ++ os) :
    pages (h.assign v slot).mem x = pages h.mem x := by
  cases slot with
  | none => rfl
  | some a =>
    have ha : a ∈ ns ++ os := List.mem_append_left _ (hslot a rfl)
    refine Function.update_of_ne (fun hxa => ?_) _ _
    by_cases hne : x = a
    · omega
    · exact L.notMem hx ha hne ((L.chunk x hx).mem_piece (w := 16) (by omega))
        (hxa ▸ (L.chunk a ha).mem_piece (w := 8) (by omega))

theorem deliver_spare (L : Layout h (pre ++ c :: post) os U) {p : Nat}
    (he : Alloc.deliver c pre.getLast? h = .ok (p, h')) :
    spare A h'.mem (pre ++ post) = spare A h.mem (pre ++ post) := by
  have hslot : ∀ a, pre.getLast? = some a → a ∈ pre ++ c :: post := fun a ha =>
    List.mem_append_left _ (List.mem_of_getLast? ha)
  have hmem : ∀ a ∈ pre ++ post, a ∈ pre ++ c :: post ++ os := by
    intro a ha
    simp only [List.mem_append, List.mem_cons] at ha ⊢
    tauto
  have hassign : ∀ a ∈ pre ++ post,
      capacity A (h.assign (next h.mem c) pre.getLast?).mem a = capacity A h.mem a := fun a ha =>
    capacity_congr (L.len_assign hslot (hmem a ha)) (L.pages_assign hslot (hmem a ha))
  have hlen : len (h.assign (next h.mem c) pre.getLast?).mem c = len h.mem c :=
    L.len_assign hslot (by simp)
  have L₁ := L.unlink
  have hge := (L.chunk c (by simp)).len_ge
  obtain ⟨_, _, he⟩ := bind_eq_ok.mp he
  cases he
  refine spare_congr fun a ha => (Eq.trans ?_ (hassign a ha))
  -- the header and the footer are written inside the block
  have hac : a ≠ c := L.ne_of_mem (.inl ha)
  have ha₁ : a ∈ pre ++ post ++ c :: os := List.mem_append_left _ ha
  have hoff : ∀ w ∈ piece (h.assign (next h.mem c) pre.getLast?).mem a,
      w < c ∨ c + len h.mem c ≤ w := by
    intro w hw
    have hout := L₁.notMem ha₁ (by simp) hac hw
    simp only [piece, hlen, Set.mem_Ico, not_and_or, not_le, not_lt] at hout
    exact hout
  have hkeep : ∀ w ∈ piece (h.assign (next h.mem c) pre.getLast?).mem a,
      store (store (store (h.assign (next h.mem c) pre.getLast?).mem c (len h.mem c)) (c + 8)
        headMagic) (c + len h.mem c - sizeofFooter) footMagic w =
      (h.assign (next h.mem c) pre.getLast?).mem w := by
    intro w hw
    have hw := hoff w hw
    simp only [store, sizeofFooter]
    rw [Function.update_of_ne (by omega), Function.update_of_ne (by omega),
      Function.update_of_ne (by omega)]
  have hc := L₁.chunk a ha₁
  exact capacity_congr (hkeep a hc.self_mem) (hkeep _ (hc.mem_piece (by omega)))

theorem carve_spare (L : Layout h (pre ++ c :: post) os U) (hA : 24 ≤ A) (hdvd : 8 ∣ A)
    (hfit : fits h.mem A (A + 24) c) {p : Nat}
    (he : Alloc.carve A (A + 24) c pre.getLast? h = .ok (p, h')) (hc : (links h').Holds ns) :
    spare A h'.mem ns + 1 = spare A h.mem (pre ++ c :: post) := by
  have hlen : A ≤ len h.mem c := by
    rcases hfit with hfit | hfit
    · omega
    · exact hfit.1
  obtain ⟨b, pre', h₁, he₁, L₁, hp₁, hl₁, -, -, -⟩ := L.splitHead hA hfit
  obtain ⟨post', h₂, he₂, L₂, hp₂, hl₂, hlt₂, -, -⟩ := L₁.splitBlock hA hdvd hp₁ hl₁
  obtain ⟨h₃, he₃, L₃, -, -, -⟩ := L₂.deliver hp₂
  simp only [Alloc.carve, check_pos L.deref_getLast?, check_pos hlen, ok_bind, he₁,
    check_pos L₁.deref_getLast?, check_pos hp₁, check_pos hl₁, he₂, check_pos L₂.deref_getLast?,
    check_pos hp₂, check_pos hl₂, check_pos hlt₂, he₃] at he
  cases he
  obtain rfl := hc.unique L₃.chain
  have hone : capacity A h₂.mem b = 1 := capacity_eq_one hA hp₂ hl₂ hlt₂
  have hblock : spare A h₂.mem (pre' ++ b :: post') = spare A h₁.mem (pre' ++ b :: post) := by
    subst he₂
    exact L₁.splitBlock_spare hA hdvd hp₁ L₂.chain
  calc spare A h'.mem (pre' ++ post') + 1
      = spare A h₂.mem (pre' ++ post') + capacity A h₂.mem b := by rw [L₂.deliver_spare he₃, hone]
    _ = spare A h₂.mem (pre' ++ b :: post') := by
        simp only [spare_append, spare_cons]
        omega
    _ = spare A h₁.mem (pre' ++ b :: post) := hblock
    _ = spare A h.mem (pre ++ c :: post) := L.splitHead_spare hA he₁ L₁.chain

end Layout

section Calls
variable {pg : PageSize} {h h' : Heap} {fuel size p : Nat}

theorem scMalloc_of_found {σ : Type} {scMmap : σ → Nat → Option Nat × σ} {e : σ} {c : Nat}
    {slot : Option Nat} (hl : h.lock = false) (hs : size < 2 ^ 63)
    (hsearch : search h.mem (allocSize size) (splitSize size) fuel h.freeList none = .ok (c, slot))
    (hc : c ≠ 0)
    (hcarve : carve (allocSize size) (splitSize size) c slot { h with lock := true } = .ok (p, h')) :
    scMalloc pg scMmap fuel size h e = .ok (some p, { h' with lock := false }, e) := by
  simp only [scMalloc, check_pos (Int.natCast_nonneg size), ok_bind, hl, Bool.false_eq_true,
    if_false, Int.toNat_natCast, check_pos (Nat.mod_eq_zero_of_dvd (allocSize_dvd hs)), hsearch, hc,
    hcarve]
  rfl

theorem scMalloc_of_mapped {σ : Type} {scMmap : σ → Nat → Option Nat × σ} {e e' : σ} {buf : Nat}
    {slot : Option Nat} (hl : h.lock = false) (hs : size < 2 ^ 63)
    (hsearch : search h.mem (allocSize size) (splitSize size) fuel h.freeList none = .ok (0, slot))
    (hm : scMmap e (mmapSize pg size) = (some buf, e'))
    (hcarve : carve (allocSize size) (splitSize size) buf none
      { pushPages pg (mmapSize pg size) buf h with lock := true } = .ok (p, h')) :
    scMalloc pg scMmap fuel size h e = .ok (some p, { h' with lock := false }, e') := by
  simp only [scMalloc, check_pos (Int.natCast_nonneg size), ok_bind, hl, Bool.false_eq_true,
    if_false, Int.toNat_natCast, check_pos (Nat.mod_eq_zero_of_dvd (allocSize_dvd hs)), hsearch,
    if_true, hm]
  change (carve _ _ buf none { pushPages pg (mmapSize pg size) buf h with lock := true } >>= _) = _
  rw [hcarve]
  rfl

end Calls

section Steps
variable {pg : PageSize} {s t : Sys} {ns ns' : List Nat} {size fuel : Nat} {answer : Option Nat}

def OfClass (A : Nat) (m : Mem) (a : Nat) : Prop := A ≤ len m a ∧ len m a < A + 24

def perRange (pg : PageSize) (size : Nat) : Nat :=
  (mmapSize pg size - sizeofListNode) / allocSize size

theorem perRange_pos (hs : size < 2 ^ 63) : 0 < perRange pg size := by
  have hle := splitSize_le_mmapSize pg hs
  rw [splitSize_eq hs] at hle
  have hge := allocSize_ge hs
  unfold perRange sizeofListNode
  exact Nat.div_pos (by omega) (by omega)

theorem Inv.malloc_fit (I : Inv pg s ns) (I' : Inv pg t ns') (hs : size < 2 ^ 63)
    (hf : ns.length < fuel) (hspare : spare (allocSize size) s.heap.mem ns ≠ 0)
    (h : Alloc.step pg s (.malloc size fuel answer) = some t) :
    ∃ b, t.live = b :: s.live ∧ OfClass (allocSize size) t.heap.mem b.start ∧
      t.ranges = s.ranges ∧
      spare (allocSize size) t.heap.mem ns' + 1 = spare (allocSize size) s.heap.mem ns := by
  have hge := allocSize_ge hs
  have hsz : (size : Int) < 2 ^ 63 := by exact_mod_cast hs
  rw [Ne, spare_eq_zero (by omega)] at hspare
  push Not at hspare
  obtain ⟨a, ha, hfa⟩ := hspare
  rw [← splitSize_eq hs] at hfa
  rcases search_eq (allocSize size) (splitSize size) none I.layout.chain hf with
    ⟨-, hn⟩ | ⟨mid, c, post, rfl, hc, hcf, -, he⟩
  · exact absurd hfa (hn a ha)
  rw [splitSize_eq hs] at hcf
  rw [Option.or_none] at he
  have L := I.layout.withLock true
  obtain ⟨b, ns₁, h₁, hcarve, C, -, -⟩ := L.carve (by omega) (allocSize_dvd hs) hcf
  rw [Alloc.step, if_pos hsz, scMalloc_of_found I.lock hs he hc (splitSize_eq hs ▸ hcarve)] at h
  obtain rfl := Option.some.inj h
  have hchain : (links h₁).Holds ns' := I'.layout.chain
  have htake := L.carve_spare (by omega) (allocSize_dvd hs) hcf hcarve hchain
  exact ⟨_, rfl, ⟨C.len_ge, C.len_lt⟩, rfl, htake⟩

theorem Inv.malloc_mapped (I : Inv pg s ns) (I' : Inv pg t ns') (hs : size < 2 ^ 63)
    (hf : ns.length < fuel) (hspare : spare (allocSize size) s.heap.mem ns = 0)
    (h : Alloc.step pg s (.malloc size fuel answer) = some t) :
    t = s ∨ ∃ b base, answer = some base ∧ t.live = b :: s.live ∧
      OfClass (allocSize size) t.heap.mem b.start ∧
      t.ranges = ⟨base, mmapSize pg size⟩ :: s.ranges ∧
      spare (allocSize size) t.heap.mem ns' + 1 = perRange pg size := by
  have hge := allocSize_ge hs
  have hsz : (size : Int) < 2 ^ 63 := by exact_mod_cast hs
  have hnone := (spare_eq_zero (by omega)).mp hspare
  rw [← splitSize_eq hs] at hnone
  have hfailed : kernelMmap pg answer s.ranges (mmapSize pg size) = (none, s.ranges) → t = s := by
    intro hm
    rw [Alloc.step, if_pos hsz, scMalloc_of_failed pg (kernelMmap pg answer) s.ranges
      I.layout.chain I.lock hs hf hnone hm] at h
    exact (Option.some.inj h).symm
  cases answer with
  | none => exact .inl (hfailed rfl)
  | some base =>
    by_cases hfresh : Fresh pg s.ranges base (mmapSize pg size)
    · have hm : kernelMmap pg (some base) s.ranges (mmapSize pg size) =
          (some base, ⟨base, mmapSize pg size⟩ :: s.ranges) := if_pos hfresh
      have hd := disjoint_covered hfresh
      have hn := splitSize_le_mmapSize pg hs
      rw [splitSize_eq hs] at hn
      have hlong : 24 ≤ mmapSize pg size := by omega
      have hdvd : 8 ∣ mmapSize pg size := Nat.dvd_trans pg.dvd (dvd_mmapSize pg hs)
      have hpages : 0 < mmapSize pg size / pg.bytes :=
        Nat.div_pos (Nat.le_of_dvd (mmapSize_pos pg hs) (dvd_mmapSize pg hs)) pg.pos
      have L : Layout { pushPages pg (mmapSize pg size) base s.heap with lock := true }
          ([] ++ base :: ns) (starts s.live)
          (Set.Ico base (base + mmapSize pg size) ∪ covered s.ranges) :=
        (I.layout.pushPages hfresh.1 (Nat.dvd_trans pg.dvd hfresh.2.1) hdvd hlong hfresh.2.2.1
          hd).withLock true
      have hfit : fits (pushPages pg (mmapSize pg size) base s.heap).mem (allocSize size)
          (allocSize size + 24) base := .inl (hn.trans_eq len_pushPages.symm)
      obtain ⟨b, ns₁, h₁, hcarve, C, -, -⟩ := L.carve (by omega) (allocSize_dvd hs) hfit
      rcases search_eq (allocSize size) (splitSize size) none I.layout.chain hf with
        ⟨he, -⟩ | ⟨mid, c, post, rfl, -, hcf, -, -⟩
      · rw [Alloc.step, if_pos hsz,
          scMalloc_of_mapped I.lock hs he hm (splitSize_eq hs ▸ hcarve)] at h
        obtain rfl := Option.some.inj h
        have hchain : (links h₁).Holds ns' := I'.layout.chain
        refine .inr ⟨_, base, rfl, rfl, ⟨C.len_ge, C.len_lt⟩, rfl, ?_⟩
        -- the old nodes are worth what they were, which is nothing
        have hold : spare (allocSize size) (pushPages pg (mmapSize pg size) base s.heap).mem ns =
            0 := by
          rw [← hspare]
          refine spare_congr fun a ha => ?_
          have ha : a ∈ ns ++ starts s.live := List.mem_append_left _ ha
          have hc := I.layout.chunk a ha
          exact capacity_congr (I.layout.pushPages_word hlong hd ha hc.self_mem)
            (I.layout.pushPages_word hlong hd ha (hc.mem_piece (w := 16) (by omega)))
        have hnew : capacity (allocSize size) (pushPages pg (mmapSize pg size) base s.heap).mem
            base = perRange pg size := by
          rw [capacity, if_neg (pages_pushPages.trans_ne hpages.ne'), len_pushPages]
          rfl
        refine (L.carve_spare (by omega) (allocSize_dvd hs) hfit hcarve hchain).trans ?_
        rw [List.nil_append, spare_cons]
        exact congrArg₂ (· + ·) hnew hold
      · exact absurd hcf (hnone c (by simp))
    · exact .inl (hfailed (if_neg hfresh))

theorem len_scFree {h h' : Heap} {b : Nat} (he : scFree (b + sizeofHeader) h = .ok h') :
    len h'.mem b = len h.mem b := by
  unfold scFree at he
  obtain ⟨_, _, he⟩ := bind_eq_ok.mp he
  simp only [Nat.add_sub_cancel] at he
  split at he
  · cases he
  · split at he
    · cases he
    · cases he
      simp only [len, store]
      rw [Function.update_of_ne (by omega), Function.update_of_ne (by omega), Function.update_self]

theorem Inv.free_spare (I : Inv pg s ns) (I' : Inv pg t ns') {A : Nat} (hA : 24 ≤ A) {b : Block}
    (hb : b ∈ s.live) (hclass : OfClass A s.heap.mem b.start)
    (h : Alloc.step pg s (.free b.ptr) = some t) :
    spare A t.heap.mem ns' = spare A s.heap.mem ns + 1 := by
  obtain ⟨l₁, l₂, hlive⟩ := List.append_of_mem hb
  have hperm : (starts s.live).Perm (b.start :: starts (l₁ ++ l₂)) := by
    rw [hlive, starts, starts, List.map_append, List.map_append, List.map_cons]
    exact List.perm_middle
  have L := I.layout.perm_os hperm
  obtain ⟨h', hr, -, L', hp, hoff⟩ := scFree_of_block L (I.blocks b hb).block I.lock
  have hlen := len_scFree hr
  have hr : scFree b.ptr s.heap = .ok h' := hr
  rw [Alloc.step, if_pos ⟨b, hb, rfl⟩, hr] at h
  obtain rfl := Option.some.inj h
  have hchain : (links h').Holds ns' := I'.layout.chain
  obtain rfl := hchain.unique L'.chain
  have hold : spare A h'.mem ns = spare A s.heap.mem ns := by
    refine spare_congr fun a ha => ?_
    have hmem : a ∈ ns ++ b.start :: starts (l₁ ++ l₂) := List.mem_append_left _ ha
    have hne : a ≠ b.start := L.ne_of_mem_os (List.mem_append_left _ ha)
    have hw : ∀ w ∈ piece s.heap.mem a, h'.mem w = s.heap.mem w := fun w hw =>
      hoff w (L.notMem hmem (by simp) hne hw)
    have hc := L.chunk a hmem
    exact capacity_congr (hw a hc.self_mem) (hw _ (hc.mem_piece (by omega)))
  have hone : capacity A h'.mem b.start = 1 :=
    capacity_eq_one hA hp (hlen ▸ hclass.1) (hlen ▸ hclass.2)
  change spare A h'.mem (b.start :: ns) = _
  rw [spare_cons, hold, hone, Nat.add_comm]

theorem Inv.write_words (I : Inv pg s ns) {w v : Nat}
    (h : Alloc.step pg s (.write w v) = some t) :
    t.live = s.live ∧ t.ranges = s.ranges ∧ t.heap.freeList = s.heap.freeList ∧
      (∀ a ∈ ns ++ starts s.live, len t.heap.mem a = len s.heap.mem a) ∧
      ∀ a ∈ ns, pages t.heap.mem a = pages s.heap.mem a := by
  rw [Alloc.step] at h
  split at h
  · rename_i hex
    obtain ⟨b, hb, hlo, hhi⟩ := hex
    obtain rfl := Option.some.inj h
    have hmem : b.start ∈ starts s.live := List.mem_map_of_mem hb
    have hall : b.start ∈ ns ++ starts s.live := List.mem_append_right _ hmem
    have hin : w ∈ piece s.heap.mem b.start := I.room hb hlo hhi
    have hout : ∀ a ∈ ns ++ starts s.live, a ≠ b.start → ∀ x ∈ piece s.heap.mem a, x ≠ w :=
      fun a ha hab x hx hxw => I.layout.notMem ha hall hab hx (hxw ▸ hin)
    refine ⟨rfl, rfl, rfl, fun a ha => ?_, fun a ha => ?_⟩
    · by_cases hab : a = b.start
      · unfold Block.ptr sizeofHeader at hlo
        exact Function.update_of_ne (by omega) _ _
      · exact Function.update_of_ne (hout a ha hab a (I.layout.chunk a ha).self_mem) _ _
    · have ha' : a ∈ ns ++ starts s.live := List.mem_append_left _ ha
      have hab : a ≠ b.start := fun hab =>
        (List.nodup_append.mp I.layout.nodup).2.2 a ha _ hmem hab
      exact Function.update_of_ne
        (hout a ha' hab _ ((I.layout.chunk a ha').mem_piece (w := 16) (by omega))) _ _
  · cases h

end Steps

/-- Requests of the size class of `size` bytes, with at most `N` buffers in use at a time. -/
def OneClass (size N : Nat) (s : Sys) : Call → Prop
  | .malloc size' _ _ => allocSize size'.toNat = allocSize size ∧ s.live.length < N
  | _ => True

instance (size N : Nat) (s : Sys) : (c : Call) → Decidable (OneClass size N s c)
  | .malloc _ _ _ => inferInstanceAs (Decidable (_ ∧ _))
  | .free _ => .isTrue trivial
  | .write _ _ => .isTrue trivial

structure Metered (pg : PageSize) (size : Nat) (s : Sys) (ns : List Nat) : Prop where
  sizes : ∀ r ∈ s.ranges, r.len = mmapSize pg size
  classes : ∀ b ∈ s.live, OfClass (allocSize size) s.heap.mem b.start
  balance : spare (allocSize size) s.heap.mem ns + s.live.length =
    perRange pg size * s.ranges.length

section Runs
variable {pg : PageSize} {s t : Sys} {ns ns' : List Nat} {size size' fuel N : Nat}
  {answer : Option Nat}

theorem mmapSize_congr (h : allocSize size' = allocSize size) :
    mmapSize pg size' = mmapSize pg size := by
  unfold mmapSize splitSize
  rw [h]

theorem perRange_congr (h : allocSize size' = allocSize size) :
    perRange pg size' = perRange pg size := by
  unfold perRange
  rw [h, mmapSize_congr h]

theorem Metered.congr (h : allocSize size' = allocSize size) (M : Metered pg size s ns) :
    Metered pg size' s ns := by
  refine ⟨?_, ?_, ?_⟩
  · rw [mmapSize_congr h]
    exact M.sizes
  · rw [h]
    exact M.classes
  · rw [h, perRange_congr h]
    exact M.balance

theorem Metered.malloc (M : Metered pg size s ns) (I : Inv pg s ns) (I' : Inv pg t ns')
    (hs : size < 2 ^ 63) (h : Alloc.step pg s (.malloc size fuel answer) = some t) :
    Metered pg size t ns' ∧
      (s.live.length < perRange pg size * s.ranges.length →
        t.ranges = s.ranges ∧ t.live.length = s.live.length + 1) ∧
      (s.live.length = perRange pg size * s.ranges.length → t = s ∨
        ∃ base, answer = some base ∧ t.ranges = ⟨base, mmapSize pg size⟩ :: s.ranges ∧
          t.live.length = s.live.length + 1) := by
  have hbalance := M.balance
  have hmax := step_malloc_mono (Nat.le_max_left fuel (ns.length + 1)) h
  have hf : ns.length < max fuel (ns.length + 1) := by omega
  have hclasses : ∀ b, t.live = b :: s.live → OfClass (allocSize size) t.heap.mem b.start →
      ∀ d ∈ t.live, OfClass (allocSize size) t.heap.mem d.start := by
    intro b hlive hb d hd
    rcases I.malloc_words h with rfl | ⟨_, -, -, hwords⟩
    · exact M.classes d hd
    rw [hlive] at hd
    rcases List.mem_cons.mp hd with rfl | hd
    · exact hb
    · have hmem : d.start ∈ starts s.live := List.mem_map_of_mem hd
      have hlen : len t.heap.mem d.start = len s.heap.mem d.start :=
        hwords _ hmem _ (I.chunk_live _ hmem).self_mem
      rw [OfClass, hlen]
      exact M.classes d hd
  by_cases hspare : spare (allocSize size) s.heap.mem ns = 0
  · rcases I.malloc_mapped I' hs hf hspare hmax with
      rfl | ⟨b, base, rfl, hlive, hb, hranges, hleft⟩
    · obtain rfl := I'.layout.chain.unique I.layout.chain
      exact ⟨M, fun hlt => by omega, fun _ => .inl rfl⟩
    · have hlength : t.live.length = s.live.length + 1 := by rw [hlive, List.length_cons]
      refine ⟨⟨fun r hr => ?_, hclasses b hlive hb, ?_⟩, fun hlt => by omega,
        fun _ => .inr ⟨base, rfl, hranges, hlength⟩⟩
      · rw [hranges] at hr
        rcases List.mem_cons.mp hr with rfl | hr
        · rfl
        · exact M.sizes r hr
      · rw [hranges, List.length_cons, Nat.mul_succ]
        omega
  · obtain ⟨b, hlive, hb, hranges, hleft⟩ := I.malloc_fit I' hs hf hspare hmax
    have hlength : t.live.length = s.live.length + 1 := by rw [hlive, List.length_cons]
    refine ⟨⟨hranges ▸ M.sizes, hclasses b hlive hb, ?_⟩, fun _ => ⟨hranges, hlength⟩,
      fun heq => by omega⟩
    rw [hranges]
    omega

theorem Metered.free (M : Metered pg size s ns) (I : Inv pg s ns) (I' : Inv pg t ns')
    (hs : size < 2 ^ 63) {p : Nat} (h : Alloc.step pg s (.free p) = some t) :
    Metered pg size t ns' ∧ t.ranges = s.ranges := by
  obtain ⟨b, hb, rfl⟩ : ∃ b ∈ s.live, b.ptr = p := by
    by_contra hn
    rw [Alloc.step, if_neg hn] at h
    cases h
  obtain ⟨t', _, ht, -, hranges, -⟩ := I.free hb
  obtain rfl := Option.some.inj (ht.symm.trans h)
  obtain ⟨hlive, hoff⟩ := I.free_words hb h
  have hge := allocSize_ge hs
  have hspare := I.free_spare I' (by omega) hb (M.classes b hb) h
  have hlength : t'.live.length + 1 = s.live.length := by
    have hpos := List.length_pos_of_mem hb
    rw [hlive, List.length_eraseP_of_mem hb (by simp)]
    omega
  refine ⟨⟨hranges ▸ M.sizes, fun d hd => ?_, ?_⟩, hranges⟩
  · have hds : d ∈ s.live := List.mem_of_mem_eraseP (hlive ▸ hd)
    have hmem : d.start ∈ starts s.live := List.mem_map_of_mem hds
    by_cases hdb : d.start = b.start
    · have hr : scFree (b.start + sizeofHeader) s.heap = .ok t'.heap := by
        rw [Alloc.step, if_pos ⟨b, hb, rfl⟩] at h
        split at h
        · cases h
          assumption
        · cases h
      have hlen := len_scFree hr
      rw [OfClass, hdb, hlen]
      exact M.classes b hb
    · have hlen : len t'.heap.mem d.start = len s.heap.mem d.start :=
        hoff _ (I.layout.start_notMem (List.mem_append_right _ hmem)
          (List.mem_append_right _ (List.mem_map_of_mem hb)) hdb)
      rw [OfClass, hlen]
      exact M.classes d hds
  · have hbalance := M.balance
    rw [hranges]
    omega

theorem Metered.write (M : Metered pg size s ns) (I : Inv pg s ns) (I' : Inv pg t ns') {w v : Nat}
    (h : Alloc.step pg s (.write w v) = some t) : Metered pg size t ns' ∧ t.ranges = s.ranges := by
  obtain ⟨hlive, hranges, hfree, hlen, hpages⟩ := I.write_words h
  have I₁ : Inv pg t ns := by
    rw [Alloc.step] at h
    split at h
    · obtain ⟨b, hb, hlo, hhi⟩ := ‹∃ b ∈ s.live, _›
      obtain rfl := Option.some.inj h
      exact I.write hb hlo hhi
    · cases h
  obtain rfl := I'.layout.chain.unique I₁.layout.chain
  refine ⟨⟨hranges ▸ M.sizes, fun d hd => ?_, ?_⟩, hranges⟩
  · rw [hlive] at hd
    rw [OfClass, hlen _ (List.mem_append_right _ (List.mem_map_of_mem hd))]
    exact M.classes d hd
  · rw [hlive, hranges, spare_congr fun a ha =>
      capacity_congr (hlen a (List.mem_append_left _ ha)) (hpages a ha)]
    exact M.balance

theorem Metered.call (M : Metered pg size s ns) (I : Inv pg s ns) (I' : Inv pg t ns')
    {size' : Int} (hclass : allocSize size'.toNat = allocSize size)
    (h : Alloc.step pg s (.malloc size' fuel answer) = some t) :
    Metered pg size t ns' ∧
      (s.live.length < perRange pg size * s.ranges.length →
        t.ranges = s.ranges ∧ t.live.length = s.live.length + 1) ∧
      (s.live.length = perRange pg size * s.ranges.length → t = s ∨
        ∃ base, answer = some base ∧ t.ranges = ⟨base, mmapSize pg size⟩ :: s.ranges ∧
          t.live.length = s.live.length + 1) := by
  have hsz : 0 ≤ size' ∧ size' < 2 ^ 63 := by
    have hcall := h
    rw [Alloc.step] at hcall
    split at hcall
    · split at hcall
      · exact ⟨scMalloc_nonneg ‹_›, ‹_›⟩
      · exact ⟨scMalloc_nonneg ‹_›, ‹_›⟩
      · cases hcall
    · cases hcall
  obtain ⟨n, rfl⟩ := Int.eq_ofNat_of_zero_le hsz.1
  have hn : n < 2 ^ 63 := by exact_mod_cast hsz.2
  have hclass : allocSize n = allocSize size := hclass
  obtain ⟨M', hfree, hfull⟩ := (M.congr hclass).malloc I I' hn h
  rw [perRange_congr hclass] at hfree hfull
  rw [mmapSize_congr hclass] at hfull
  exact ⟨M'.congr hclass.symm, hfree, hfull⟩

/-- The pages obtained were all in use when the last of them were asked for. -/
theorem metered_of_reach (hs : size < 2 ^ 63)
    (h : Trans.Reach Sys.init (Trans.Guarded (OneClass size N) (Trans.ofFun (step pg))) s) :
    ∃ ns, Inv pg s ns ∧ Metered pg size s ns ∧
      perRange pg size * s.ranges.length < N + perRange pg size := by
  have hpos : 0 < perRange pg size := perRange_pos hs
  induction h with
  | @init s hinit =>
    have ⟨_, _, hranges, hlive⟩ := hinit
    refine ⟨[], Inv.init hinit, ⟨by simp [hranges], by simp [hlive], by simp [spare, hranges, hlive]⟩, ?_⟩
    rw [hranges, List.length_nil]
    omega
  | @step s c t _ hst ih =>
    obtain ⟨ns, I, M, hbound⟩ := ih
    obtain ⟨hok, hst⟩ := hst
    obtain ⟨⟨ns', I', -⟩, -⟩ := I.step hst
    refine ⟨ns', I', ?_⟩
    cases c with
    | malloc size' fuel answer =>
      obtain ⟨hclass, hN⟩ := hok
      obtain ⟨M', hfree, hfull⟩ := M.call I I' hclass hst
      refine ⟨M', ?_⟩
      have hbalance := M.balance
      by_cases hlt : s.live.length < perRange pg size * s.ranges.length
      · rw [(hfree hlt).1]
        exact hbound
      · rcases hfull (by omega) with rfl | ⟨base, -, hranges, -⟩
        · exact hbound
        · rw [hranges, List.length_cons, Nat.mul_succ]
          omega
    | free p =>
      obtain ⟨M', hranges⟩ := M.free I I' hs hst
      exact ⟨M', hranges ▸ hbound⟩
    | write w v =>
      obtain ⟨M', hranges⟩ := M.write I I' hst
      exact ⟨M', hranges ▸ hbound⟩

/-- With requests of one size class and at most `N` buffers in use at a time, the allocator takes
from the kernel the least number of equal ranges that hold `N` blocks, however many calls are made;
each range serves the same number of blocks over and over, and `sc_malloc` asks the kernel exactly
when all of them are in use. -/
theorem pages_bounded_by_buffers (hs : size < 2 ^ 63)
    (h : Trans.Reach Sys.init (Trans.Guarded (OneClass size N) (Trans.ofFun (step pg))) s) :
    (∀ r ∈ s.ranges, r.len = mmapSize pg size) ∧
    s.live.length ≤ perRange pg size * s.ranges.length ∧
    s.ranges.length ≤ (N + perRange pg size - 1) / perRange pg size ∧
    ∀ size' fuel answer t, allocSize size'.toNat = allocSize size →
      step pg s (.malloc size' fuel answer) = some t →
      (s.live.length < perRange pg size * s.ranges.length →
        t.ranges = s.ranges ∧ t.live.length = s.live.length + 1) ∧
      (s.live.length = perRange pg size * s.ranges.length → t = s ∨
        ∃ base, answer = some base ∧ t.ranges = ⟨base, mmapSize pg size⟩ :: s.ranges ∧
          t.live.length = s.live.length + 1) := by
  obtain ⟨ns, I, M, hbound⟩ := metered_of_reach hs h
  have hbalance := M.balance
  have hpos : 0 < perRange pg size := perRange_pos hs
  refine ⟨M.sizes, by omega, ?_, fun size' fuel answer t hclass hst => ?_⟩
  · rw [Nat.le_div_iff_mul_le hpos, Nat.mul_comm]
    omega
  · obtain ⟨⟨ns', I', -⟩, -⟩ := I.step hst
    exact (M.call I I' hclass hst).2

def sameClass : List Call :=
  [.malloc 10 1 (some 4096), .malloc 12 3 none, .free 4136, .malloc 9 3 none]

theorem pages_bounded_by_buffers_same_class : ∃ s, s.ranges.length = 1 ∧ s.live.length = 2 ∧
    2 < perRange page4096 10 ∧ ∀ fuel answer t,
      step page4096 s (.malloc 11 fuel answer) = some t → t.ranges = s.ranges := by
  have hrun : ((Trans.exec (Trans.guard (OneClass 10 2) (step page4096)) sameClass emptySys).map
      fun s => (s.ranges.length, s.live.length)) = some (1, 2) := by decide +kernel
  obtain ⟨s, hs, hcount⟩ := Option.map_eq_some_iff.mp hrun
  obtain ⟨hranges, hlive⟩ := Prod.mk.inj hcount
  have hper : 2 < perRange page4096 10 := by decide +kernel
  have hr : Trans.Reach Sys.init
      (Trans.Guarded (OneClass 10 2) (Trans.ofFun (step page4096))) s :=
    .of_exec_guard (.init ⟨rfl, rfl, rfl, rfl⟩) hs
  obtain ⟨-, -, -, hcall⟩ := pages_bounded_by_buffers (by decide) hr
  refine ⟨s, hranges, hlive, hper, fun fuel answer t hst => ?_⟩
  refine ((hcall 11 fuel answer t (by decide) hst).1 ?_).1
  rw [hlive, hranges, Nat.mul_one]
  exact hper

end Runs
end Subcontexts.Alloc
