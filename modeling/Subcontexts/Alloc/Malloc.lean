import Subcontexts.Alloc.Layout

/-! `sc_malloc` step by step over a laid-out heap: the size computations, the search of the free
list, the two splits and the delivery of the block. -/

namespace Subcontexts.Alloc

section Sizes
variable {size : Nat}

theorem allocSize_eq (hs : size < 2 ^ 63) : allocSize size = (size + 23) / 8 * 8 + 8 := by
  unfold allocSize sizeofHeader sizeofFooter
  simp only []
  rw [u64_of_lt (n := 16 + size) (by omega), u64_of_lt (n := 16 + size + 7) (by omega),
    u64_of_lt (n := (16 + size + 7) / 8 * 8) (by omega), u64_of_lt (by omega)]
  omega

theorem splitSize_eq (hs : size < 2 ^ 63) : splitSize size = allocSize size + 24 := by
  have := allocSize_eq hs
  exact u64_of_lt (by unfold sizeofListNode; omega)

theorem allocSize_dvd (hs : size < 2 ^ 63) : 8 ∣ allocSize size := by
  rw [allocSize_eq hs]
  omega

theorem allocSize_ge (hs : size < 2 ^ 63) : size + 24 ≤ allocSize size := by
  rw [allocSize_eq hs]
  omega

theorem allocSize_lt (hs : size < 2 ^ 63) : allocSize size < 2 ^ 63 + 32 := by
  rw [allocSize_eq hs]
  omega

variable (pg : PageSize)

theorem mmapSize_eq (hs : size < 2 ^ 63) :
    mmapSize pg size = (splitSize size + pg.bytes - 1) / pg.bytes * pg.bytes := by
  have hsplit := splitSize_eq hs
  have halloc := allocSize_lt hs
  have hpg := pg.lt
  have hle := Nat.div_mul_le_self (splitSize size + pg.bytes - 1) pg.bytes
  unfold mmapSize
  simp only []
  rw [u64_of_lt (n := splitSize size + pg.bytes - 1) (by omega)]
  exact u64_of_lt (by omega)

theorem dvd_mmapSize (hs : size < 2 ^ 63) : pg.bytes ∣ mmapSize pg size := by
  rw [mmapSize_eq pg hs]
  exact Nat.dvd_mul_left _ _

theorem splitSize_le_mmapSize (hs : size < 2 ^ 63) : splitSize size ≤ mmapSize pg size := by
  rw [mmapSize_eq pg hs]
  have hlt := Nat.lt_div_mul_add (a := splitSize size + pg.bytes - 1) pg.pos
  omega

theorem mmapSize_pos (hs : size < 2 ^ 63) : 0 < mmapSize pg size := by
  have := splitSize_le_mmapSize pg hs
  have := splitSize_eq hs
  omega

end Sizes

section Search
variable {m : Mem}

theorem search_eq (alloc split : Nat) {rest : List Nat} {fuel cur : Nat} (slot : Option Nat)
    (hs : Seg (fun a => ptr (next m a)) (ptr cur) rest none) (hf : rest.length < fuel) :
    (search m alloc split fuel cur slot = .ok (0, rest.getLast?.or slot) ∧
      ∀ a ∈ rest, ¬ fits m alloc split a) ∨
    ∃ mid c post, rest = mid ++ c :: post ∧ c ≠ 0 ∧ fits m alloc split c ∧
      (∀ a ∈ mid, ¬ fits m alloc split a) ∧
      search m alloc split fuel cur slot = .ok (c, mid.getLast?.or slot) := by
  induction rest generalizing fuel cur slot with
  | nil =>
    obtain ⟨fuel, rfl⟩ : ∃ f, fuel = f + 1 := ⟨fuel - 1, by simp at hf; omega⟩
    have hcur : cur = 0 := ptr_eq_none.mp hs
    exact .inl ⟨by simp [search, hcur], by simp⟩
  | cons a rest ih =>
    obtain ⟨fuel, rfl⟩ : ∃ f, fuel = f + 1 := ⟨fuel - 1, by simp at hf; omega⟩
    obtain ⟨rfl, ha⟩ := ptr_eq_some.mp hs.1
    by_cases hfit : fits m alloc split cur
    · refine .inr ⟨[], cur, rest, rfl, ha, hfit, by simp, ?_⟩
      simp [search, hfit]
    · have hgo : search m alloc split (fuel + 1) cur slot =
          search m alloc split fuel (next m cur) (some cur) := by
        simp [search, ha, hfit]
      have hlast : ∀ l : List Nat, l.getLast?.or (some cur) = ((cur :: l).getLast?).or slot := by
        intro l
        cases h : l.getLast? <;> simp [List.getLast?_cons, h]
      rw [hgo]
      rcases ih (some cur) hs.2 (by simpa using hf) with ⟨he, hn⟩ | ⟨mid, c, post, rfl, hc, hcf, hn, he⟩
      · exact .inl ⟨by rw [he, hlast], by simpa [hfit] using hn⟩
      · exact .inr ⟨cur :: mid, c, post, rfl, hc, hcf, by simpa [hfit] using hn, by rw [he, hlast]⟩

theorem search_mono {alloc split fuel fuel' cur : Nat} {slot : Option Nat} {r : Nat × Option Nat}
    (hle : fuel ≤ fuel') (hs : search m alloc split fuel cur slot = .ok r) :
    search m alloc split fuel' cur slot = .ok r := by
  induction fuel generalizing fuel' cur slot with
  | zero => simp [search] at hs
  | succ fuel ih =>
    obtain ⟨fuel', rfl⟩ : ∃ f, fuel' = f + 1 := ⟨fuel' - 1, by omega⟩
    simp only [search] at hs ⊢
    split at hs
    · rwa [if_pos ‹_›]
    · rw [if_neg ‹_›]
      exact ih (by omega) hs

end Search

structure Kept (h h' : Heap) (ns ns' os : List Nat) : Prop where
  words : ∀ o ∈ os, ∀ w ∈ piece h.mem o, h'.mem w = h.mem w
  heads : ∀ a, a ∈ ns' ∧ pages h'.mem a ≠ 0 ↔ a ∈ ns ∧ pages h.mem a ≠ 0
  page : ∀ a ∈ ns, pages h.mem a ≠ 0 → pages h'.mem a = pages h.mem a
  head_len : ∀ a ∈ ns, pages h.mem a ≠ 0 → len h'.mem a = len h.mem a ∨ len h'.mem a = 24
  lock : h'.lock = h.lock

theorem Kept.refl (h : Heap) (ns os : List Nat) : Kept h h ns ns os :=
  ⟨fun _ _ _ _ => rfl, fun _ => Iff.rfl, fun _ _ _ => rfl, fun _ _ _ => .inl rfl, rfl⟩

theorem Kept.len_eq {h h' : Heap} {ns ns' os : List Nat} (K : Kept h h' ns ns' os) {o w : Nat}
    (ho : o ∈ os) (hw : w ∈ piece h.mem o) : len h'.mem o = len h.mem o :=
  K.words o ho o ⟨le_refl _, lt_of_le_of_lt hw.1 hw.2⟩

theorem Kept.trans {h h₁ h₂ : Heap} {ns ns₁ ns₂ os : List Nat} (K : Kept h h₁ ns ns₁ os)
    (K' : Kept h₁ h₂ ns₁ ns₂ os) : Kept h h₂ ns ns₂ os := by
  refine ⟨fun o ho w hw => ?_, fun a => (K'.heads a).trans (K.heads a), fun a ha hp => ?_,
    fun a ha hp => ?_, K'.lock.trans K.lock⟩
  · have hw' : w ∈ piece h₁.mem o := by rwa [piece_congr (K.len_eq ho hw)]
    rw [K'.words o ho w hw', K.words o ho w hw]
  · have h1 := (K.heads a).mpr ⟨ha, hp⟩
    rw [K'.page a h1.1 h1.2, K.page a ha hp]
  · have h1 := (K.heads a).mpr ⟨ha, hp⟩
    rcases K'.head_len a h1.1 h1.2 with h2 | h2
    · rw [h2]
      exact K.head_len a ha hp
    · exact .inr h2

namespace Layout
variable {h : Heap} {ns os pre post : List Nat} {U : Set Nat} {c : Nat}

theorem ne_of_mem (L : Layout h (pre ++ c :: post) os U) {a : Nat}
    (ha : a ∈ pre ++ post ∨ a ∈ os) : a ≠ c := by
  have hnd := L.nodup
  rw [List.append_assoc, List.cons_append, List.nodup_middle, List.nodup_cons] at hnd
  rintro rfl
  refine hnd.1 ?_
  simp only [List.mem_append] at ha ⊢
  tauto

theorem split_kept (L : Layout h (pre ++ c :: post) os U) {k : Nat} (hk : 24 ≤ k)
    (hlen : k + 24 ≤ len h.mem c) (hpage : pages h.mem c = 0 ∨ k = 24) :
    Kept h { h with mem := splitNode h.mem c k } (pre ++ c :: post) (pre ++ c :: (c + k) :: post)
      os := by
  have hc : c ∈ pre ++ c :: post ++ os := by simp
  have hkeep : ∀ a, a ∈ pre ++ post ∨ a ∈ os → ∀ w ∈ piece h.mem a,
      splitNode h.mem c k w = h.mem w := by
    intro a ha w hw
    have ha' : a ∈ pre ++ c :: post ++ os := by
      simp only [List.mem_append, List.mem_cons] at ha ⊢
      tauto
    exact splitNode_off hk hlen (L.notMem ha' hc (L.ne_of_mem ha) hw)
  have hpages : ∀ a ∈ pre ++ c :: post, pages (splitNode h.mem c k) a = pages h.mem a := by
    intro a ha
    by_cases hac : a = c
    · rw [hac]
      exact pages_splitNode hk
    · have ha' : a ∈ pre ++ post := by simp only [List.mem_append, List.mem_cons] at ha ⊢; tauto
      exact hkeep a (.inl ha') _ ((L.chunk a (List.mem_append_left _ ha)).mem_piece (by omega))
  refine ⟨fun o ho => hkeep o (.inr ho), fun a => ?_, fun a ha _ => hpages a ha, fun a ha hp => ?_,
    rfl⟩
  · -- the second half of the node is new on the list, and is no page head
    by_cases hak : a = c + k
    · have hnot : c + k ∉ pre ++ c :: post := fun hm =>
        L.start_notMem (List.mem_append_left _ hm) hc (by omega) ⟨by omega, by omega⟩
      simp only [hak, pages_splitNode_new, ne_eq, not_true_eq_false, and_false, false_iff, not_and]
      exact fun hm => absurd hm hnot
    · have hmem : a ∈ pre ++ c :: (c + k) :: post ↔ a ∈ pre ++ c :: post := by
        simp only [List.mem_append, List.mem_cons]
        tauto
      rw [hmem]
      exact and_congr_right fun ha => by rw [hpages a ha]
  · by_cases hac : a = c
    · subst hac
      rcases hpage with h0 | rfl
      · exact absurd h0 hp
      · exact .inr (len_splitNode hk)
    · have ha' : a ∈ pre ++ post := by simp only [List.mem_append, List.mem_cons] at ha ⊢; tauto
      exact .inl (hkeep a (.inl ha') _ (L.chunk a (List.mem_append_left _ ha)).self_mem)

theorem deliver (L : Layout h (pre ++ c :: post) os U) (hpage : pages h.mem c = 0) :
    ∃ h', Alloc.deliver c pre.getLast? h = .ok (c + sizeofHeader, h') ∧
      Layout h' (pre ++ post) (c :: os) U ∧ IsBlock h'.mem c ∧ len h'.mem c = len h.mem c ∧
      Kept h h' (pre ++ c :: post) (pre ++ post) os := by
  have hc : c ∈ pre ++ c :: post ++ os := by simp
  have Cc := L.chunk c hc
  have hge := Cc.len_ge
  have hslot : ∀ a, pre.getLast? = some a → a ∈ pre := fun a => List.mem_of_getLast?
  have L₁ := L.unlink
  generalize hh₁ : h.assign (next h.mem c) pre.getLast? = h₁ at L₁
  -- unlinking writes the `next` word of the node before, and no other
  have hword : ∀ w, (∀ a ∈ pre, w ≠ a + 8) → h₁.mem w = h.mem w := by
    intro w hw
    rw [← hh₁]
    cases hs : pre.getLast? with
    | none => rfl
    | some a => exact Function.update_of_ne (hw a (hslot a hs)) _ _
  have hnode : ∀ a ∈ pre, ∀ x ∈ pre ++ c :: post ++ os, x ≠ a → ∀ w ∈ piece h.mem x, w ≠ a + 8 := by
    intro a ha x hx hxa w hw hwa
    have ha' : a ∈ pre ++ c :: post ++ os := by simp [ha]
    exact L.notMem hx ha' hxa hw (hwa ▸ (L.chunk a ha').mem_piece (by omega))
  have hlen₁ : len h₁.mem c = len h.mem c := hword c fun a ha =>
    hnode a ha c hc (L.ne_of_mem (.inl (List.mem_append_left _ ha))).symm c Cc.self_mem
  let m := store (store (store h₁.mem c (len h.mem c)) (c + 8) headMagic)
    (c + len h.mem c - sizeofFooter) footMagic
  have hoff : ∀ w, w ∉ piece h₁.mem c → m w = h₁.mem w := by
    intro w hw
    have hout : w < c ∨ c + len h.mem c ≤ w := by
      simp only [piece, hlen₁, Set.mem_Ico, not_and_or, not_le, not_lt] at hw
      exact hw
    simp only [m, store, sizeofFooter]
    rw [Function.update_of_ne (by omega), Function.update_of_ne (by omega),
      Function.update_of_ne (by omega)]
  have hlen : len m c = len h.mem c := by
    simp only [m, len, store, sizeofFooter]
    rw [Function.update_of_ne (by unfold len at hge; omega), Function.update_of_ne (by omega),
      Function.update_self]
  have hm : ∀ w, w ∉ piece h.mem c → (∀ a ∈ pre, w ≠ a + 8) → m w = h.mem w := by
    intro w hw hpre
    rw [hoff w (by rwa [piece_congr hlen₁]), hword w hpre]
  refine ⟨{ h₁ with mem := m }, ?_, L₁.write (List.mem_cons_self ..) hoff (hlen.trans hlen₁.symm),
    ⟨?_, ?_⟩, hlen, ?_⟩
  · simp only [Alloc.deliver]
    rw [check_pos (Nat.mod_eq_zero_of_dvd Cc.len_align), ok_bind, hh₁]
    rfl
  · simp only [magic, m, store, sizeofFooter]
    rw [Function.update_of_ne (by omega), Function.update_self]
  · change m (c + len m c - sizeofFooter) = footMagic
    rw [hlen]
    exact Function.update_self ..
  · have hpages : ∀ a ∈ pre ++ post, pages m a = pages h.mem a := by
      intro a ha
      have ha' : a ∈ pre ++ c :: post ++ os := by
        simp only [List.mem_append, List.mem_cons] at ha ⊢
        tauto
      have hw : a + 16 ∈ piece h.mem a := (L.chunk a ha').mem_piece (by omega)
      refine hm _ (L.notMem ha' hc (L.ne_of_mem (.inl ha)) hw) fun b hb hab => ?_
      by_cases hba : a = b
      · omega
      · exact hnode b hb a ha' hba _ hw hab
    refine ⟨fun o ho w hw => ?_, fun a => ?_, fun a ha hp => ?_, fun a ha hp => .inl ?_, by
      rw [← hh₁]; cases pre.getLast? <;> rfl⟩
    · have ho' : o ∈ pre ++ c :: post ++ os := List.mem_append_right _ ho
      refine hm w (L.notMem ho' hc (L.ne_of_mem (.inr ho)) hw) fun b hb => ?_
      refine hnode b hb o ho' (fun hob => ?_) w hw
      exact (List.nodup_append.mp L.nodup).2.2 b (by simp [hb]) o ho hob.symm
    · by_cases hac : a = c
      · subst hac
        have hnot : a ∉ pre ++ post := fun hm => L.ne_of_mem (.inl hm) rfl
        simp [hnot, hpage]
      · have hmem : a ∈ pre ++ c :: post ↔ a ∈ pre ++ post := by
          simp only [List.mem_append, List.mem_cons]
          tauto
        rw [hmem]
        exact and_congr_right fun ha => by rw [hpages a ha]
    · refine hpages a ?_
      have hac : a ≠ c := fun hac => hp (hac ▸ hpage)
      simp only [List.mem_append, List.mem_cons] at ha ⊢
      tauto
    · have hac : a ≠ c := fun hac => hp (hac ▸ hpage)
      have ha' : a ∈ pre ++ c :: post ++ os := List.mem_append_left _ ha
      have hself := (L.chunk a ha').self_mem
      refine hm a (L.notMem ha' hc hac hself) fun b hb hab => ?_
      by_cases hba : a = b
      · omega
      · exact hnode b hb a ha' hba _ hself hab

variable {alloc : Nat}

theorem subset_insert_after (pre post : List Nat) (n : Nat) :
    pre ++ c :: post ⊆ pre ++ c :: n :: post := by
  intro a ha
  simp only [List.mem_append, List.mem_cons] at ha ⊢
  tauto

theorem splitHead (L : Layout h (pre ++ c :: post) os U) (hge : 24 ≤ alloc)
    (hfit : fits h.mem alloc (alloc + 24) c) :
    ∃ c' pre' h', Alloc.splitHead (alloc + 24) c pre.getLast? h = .ok (c', pre'.getLast?, h') ∧
      Layout h' (pre' ++ c' :: post) os U ∧ pages h'.mem c' = 0 ∧ alloc ≤ len h'.mem c' ∧
      Kept h h' (pre ++ c :: post) (pre' ++ c' :: post) os ∧
      (pages h.mem c ≠ 0 → len h'.mem c = 24) ∧ pre ++ c :: post ⊆ pre' ++ c' :: post := by
  by_cases hpage : pages h.mem c = 0
  · have hlen : alloc ≤ len h.mem c := by
      rcases hfit with hfit | hfit
      · omega
      · exact hfit.1
    refine ⟨c, pre, h, ?_, L, hpage, hlen, Kept.refl _ _ _, fun hp => absurd hpage hp,
      List.Subset.refl _⟩
    simp [Alloc.splitHead, hpage, pure, Except.pure]
  · have hlen : alloc + 24 ≤ len h.mem c := by
      rcases hfit with hfit | hfit
      · exact hfit
      · exact absurd hfit.2 hpage
    have hlt : len h.mem c < 2 ^ 64 := by
      have hchunk := L.chunk c (by simp)
      have := hchunk.fits
      have := hchunk.pos
      omega
    have hlast : (pre ++ [c]).getLast? = some c := by simp
    have hassoc : ∀ l, pre ++ [c] ++ l = pre ++ c :: l := by simp
    refine ⟨c + 24, pre ++ [c], { h with mem := splitNode h.mem c 24 }, ?_, ?_,
      pages_splitNode_new, ?_, ?_, fun _ => len_splitNode (le_refl _), ?_⟩
    · simp only [Alloc.splitHead, ne_eq, hpage, not_false_eq_true, if_true, check_pos hlen, ok_bind,
        hlast]
      rfl
    · rw [hassoc]
      exact L.split (le_refl _) (by omega) (by omega)
    · change alloc ≤ len (splitNode h.mem c 24) (c + 24)
      rw [len_splitNode_new (le_refl _) (by omega) hlt]
      omega
    · rw [hassoc]
      exact L.split_kept (le_refl _) (by omega) (.inr rfl)
    · rw [hassoc]
      exact subset_insert_after pre post (c + 24)

theorem splitBlock (L : Layout h (pre ++ c :: post) os U) (hge : 24 ≤ alloc) (hdvd : 8 ∣ alloc)
    (hpage : pages h.mem c = 0) (hlen : alloc ≤ len h.mem c) :
    ∃ post' h', Alloc.splitBlock alloc (alloc + 24) c h = h' ∧
      Layout h' (pre ++ c :: post') os U ∧ pages h'.mem c = 0 ∧ alloc ≤ len h'.mem c ∧
      len h'.mem c < alloc + 24 ∧ Kept h h' (pre ++ c :: post) (pre ++ c :: post') os ∧
      pre ++ c :: post ⊆ pre ++ c :: post' := by
  by_cases hlong : alloc + 24 ≤ len h.mem c
  · refine ⟨(c + alloc) :: post, { h with mem := splitNode h.mem c alloc }, if_pos hlong,
      L.split hge hdvd hlong, ?_, ?_, ?_, L.split_kept hge hlong (.inl hpage),
      subset_insert_after pre post (c + alloc)⟩
    · exact (pages_splitNode hge).trans hpage
    · exact (len_splitNode hge).ge
    · change len (splitNode h.mem c alloc) c < _
      rw [len_splitNode hge]
      omega
  · exact ⟨post, h, if_neg hlong, L, hpage, hlen, by omega, Kept.refl _ _ _, List.Subset.refl _⟩

structure Carved (h h' : Heap) (ns ns' os : List Nat) (U : Set Nat) (alloc b : Nat) : Prop where
  layout : Layout h' ns' (b :: os) U
  block : IsBlock h'.mem b
  len_ge : alloc ≤ len h'.mem b
  len_lt : len h'.mem b < alloc + 24
  kept : Kept h h' ns ns' os

theorem deref_getLast? (L : Layout h (pre ++ c :: post) os U) : h.deref pre.getLast? = c := by
  have hget := L.chain.get_eq
  rw [links_get, ptr_eq_some] at hget
  exact hget.1

theorem carve (L : Layout h (pre ++ c :: post) os U) (hge : 24 ≤ alloc) (hdvd : 8 ∣ alloc)
    (hfit : fits h.mem alloc (alloc + 24) c) :
    ∃ b ns' h', Alloc.carve alloc (alloc + 24) c pre.getLast? h = .ok (b + sizeofHeader, h') ∧
      Carved h h' (pre ++ c :: post) ns' os U alloc b ∧
      (pages h.mem c ≠ 0 → len h'.mem c = 24) ∧ pre ++ c :: post ⊆ b :: ns' := by
  have hlen : alloc ≤ len h.mem c := by
    rcases hfit with hfit | hfit
    · omega
    · exact hfit.1
  obtain ⟨b, pre', h₁, he₁, L₁, hp₁, hl₁, K₁, hhead, hs₁⟩ := L.splitHead hge hfit
  obtain ⟨post', h₂, he₂, L₂, hp₂, hl₂, hlt₂, K₂, hs₂⟩ := L₁.splitBlock hge hdvd hp₁ hl₁
  obtain ⟨h₃, he₃, L₃, hb, hl₃, K₃⟩ := L₂.deliver hp₂
  refine ⟨b, pre' ++ post', h₃, ?_, ⟨L₃, hb, hl₃ ▸ hl₂, hl₃ ▸ hlt₂, (K₁.trans K₂).trans K₃⟩,
    fun hp => ?_, fun a ha => List.perm_middle.subset (hs₂ (hs₁ ha))⟩
  · simp only [Alloc.carve, check_pos L.deref_getLast?, check_pos hlen, ok_bind, he₁,
      check_pos L₁.deref_getLast?, check_pos hp₁, check_pos hl₁, he₂, check_pos L₂.deref_getLast?,
      check_pos hp₂, check_pos hl₂, check_pos hlt₂, he₃]
  · -- a page head stays 24 bytes long through the later steps
    have h1 := (K₁.heads c).mpr ⟨by simp, hp⟩
    rcases (K₂.trans K₃).head_len c h1.1 h1.2 with h2 | h2
    · rw [h2]
      exact hhead hp
    · exact h2

end Layout

section Calls
variable {h : Heap} {ns os : List Nat} {U : Set Nat}

theorem Layout.withLock (L : Layout h ns os U) (b : Bool) : Layout { h with lock := b } ns os U :=
  ⟨L.chain, L.tiles, L.chunk⟩

theorem Layout.Carved.unlock {h' : Heap} {ns' : List Nat} {alloc b : Nat} (hl : h.lock = false)
    (C : Layout.Carved { h with lock := true } h' ns ns' os U alloc b) :
    Layout.Carved h { h' with lock := false } ns ns' os U alloc b :=
  ⟨C.layout.withLock false, C.block, C.len_ge, C.len_lt,
    ⟨C.kept.words, C.kept.heads, C.kept.page, C.kept.head_len, hl.symm⟩⟩

section Push
variable {pg : PageSize} {buf n : Nat}

theorem pushPages_off {w : Nat} (hn : 24 ≤ n) (hw : w ∉ Set.Ico buf (buf + n)) :
    (pushPages pg n buf h).mem w = h.mem w := by
  have hout : w < buf ∨ buf + n ≤ w := by
    simp only [Set.mem_Ico, not_and_or, not_le, not_lt] at hw
    exact hw
  simp only [pushPages, store]
  rw [Function.update_of_ne (by omega), Function.update_of_ne (by omega),
    Function.update_of_ne (by omega)]

theorem len_pushPages : len (pushPages pg n buf h).mem buf = n := by
  simp only [len, pushPages, store]
  rw [Function.update_of_ne (by omega), Function.update_of_ne (by omega), Function.update_self]

theorem next_pushPages : next (pushPages pg n buf h).mem buf = h.freeList := by
  simp only [next, pushPages, store, Function.update_self]

theorem pages_pushPages : pages (pushPages pg n buf h).mem buf = n / pg.bytes := by
  simp only [pages, pushPages, store]
  rw [Function.update_of_ne (by omega), Function.update_self]

theorem Layout.pushPages_word (L : Layout h ns os U) (hn : 24 ≤ n)
    (hd : Disjoint (Set.Ico buf (buf + n)) U) {a w : Nat} (ha : a ∈ ns ++ os)
    (hw : w ∈ piece h.mem a) : (Alloc.pushPages pg n buf h).mem w = h.mem w :=
  pushPages_off hn fun hw' => Set.disjoint_left.mp hd hw' (L.tiles.subset (List.mem_map_of_mem ha) hw)

theorem Layout.pushPages (L : Layout h ns os U) (hbuf : 0 < buf) (halign : 8 ∣ buf) (hdvd : 8 ∣ n)
    (hn : 24 ≤ n) (hfit : buf + n ≤ 2 ^ 64) (hd : Disjoint (Set.Ico buf (buf + n)) U) :
    Layout (Alloc.pushPages pg n buf h) (buf :: ns) os (Set.Ico buf (buf + n) ∪ U) := by
  have hlen : len (Alloc.pushPages pg n buf h).mem buf = n := len_pushPages
  have hchunk : Chunk (Alloc.pushPages pg n buf h).mem buf :=
    ⟨hbuf, halign, by rwa [hlen], by rwa [hlen], by rwa [hlen]⟩
  have L₁ := L.map hlen hchunk hd fun w hw => pushPages_off hn hw
  exact L₁.push next_pushPages

end Push

section Malloc
variable {σ : Type} (pg : PageSize) (scMmap : σ → Nat → Option Nat × σ) (e : σ) {fuel size : Nat}

theorem scMalloc_mono {fuel' : Nat} {size : Int} {r : Option Nat × Heap × σ} (hle : fuel ≤ fuel')
    (hr : scMalloc pg scMmap fuel size h e = .ok r) :
    scMalloc pg scMmap fuel' size h e = .ok r := by
  cases hs : search h.mem (allocSize size.toNat) (splitSize size.toNat) fuel h.freeList none with
  | error x =>
    obtain ⟨_, _, hr⟩ := bind_eq_ok.mp hr
    split at hr
    · cases hr
    · obtain ⟨_, _, hr⟩ := bind_eq_ok.mp hr
      simp only [hs, error_bind, reduceCtorEq] at hr
  | ok x =>
    simp only [scMalloc, hs, search_mono hle hs] at hr ⊢
    exact hr

theorem scMalloc_of_fit (L : Layout h ns os U) (hl : h.lock = false) (hs : size < 2 ^ 63)
    (hf : ns.length < fuel)
    (hfit : ∃ a ∈ ns, fits h.mem (allocSize size) (splitSize size) a) :
    ∃ b ns' h', scMalloc pg scMmap fuel size h e = .ok (some (b + sizeofHeader), h', e) ∧
      h'.lock = false ∧ Layout.Carved h h' ns ns' os U (allocSize size) b ∧ ns ⊆ b :: ns' := by
  have hge := allocSize_ge hs
  rcases search_eq (allocSize size) (splitSize size) none L.chain hf with
    ⟨_, hn⟩ | ⟨mid, c, post, rfl, hc, hcf, _, he⟩
  · obtain ⟨a, ha, hfa⟩ := hfit
    exact absurd hfa (hn a ha)
  · rw [splitSize_eq hs] at hcf
    obtain ⟨b, ns', h', hcarve, C, _, hsub⟩ :=
      (L.withLock true).carve (by omega) (allocSize_dvd hs) hcf
    rw [Option.or_none] at he
    refine ⟨b, ns', { h' with lock := false }, ?_, rfl, C.unlock hl, hsub⟩
    simp only [scMalloc, check_pos (Int.natCast_nonneg size), ok_bind, hl, Bool.false_eq_true,
      if_false, Int.toNat_natCast, check_pos (Nat.mod_eq_zero_of_dvd (allocSize_dvd hs)), he, hc,
      splitSize_eq hs ▸ hcarve]
    rfl

theorem scMalloc_of_failed {e' : σ} (hc : (links h).Holds ns) (hl : h.lock = false)
    (hs : size < 2 ^ 63) (hf : ns.length < fuel)
    (hfit : ∀ a ∈ ns, ¬ fits h.mem (allocSize size) (splitSize size) a)
    (hm : scMmap e (mmapSize pg size) = (none, e')) :
    scMalloc pg scMmap fuel size h e = .ok (none, h, e') := by
  rcases search_eq (allocSize size) (splitSize size) none hc hf with
    ⟨he, _⟩ | ⟨mid, c, post, rfl, _, hcf, _, _⟩
  · obtain ⟨m, fl, lk⟩ := h
    obtain rfl : lk = false := hl
    simp only [scMalloc, check_pos (Int.natCast_nonneg size), ok_bind, Bool.false_eq_true,
      if_false, Int.toNat_natCast, check_pos (Nat.mod_eq_zero_of_dvd (allocSize_dvd hs)), he,
      if_true, hm]
    rfl
  · exact absurd hcf (hfit c (by simp))

theorem scMalloc_of_pages {e' : σ} {buf : Nat} (L : Layout h ns os U) (hl : h.lock = false)
    (hs : size < 2 ^ 63) (hf : ns.length < fuel)
    (hfit : ∀ a ∈ ns, ¬ fits h.mem (allocSize size) (splitSize size) a)
    (hm : scMmap e (mmapSize pg size) = (some buf, e')) (hbuf : 0 < buf) (halign : 8 ∣ buf)
    (hend : buf + mmapSize pg size ≤ 2 ^ 64)
    (hd : Disjoint (Set.Ico buf (buf + mmapSize pg size)) U) :
    ∃ b ns' h', scMalloc pg scMmap fuel size h e = .ok (some (b + sizeofHeader), h', e') ∧
      h'.lock = false ∧ len h'.mem buf = 24 ∧
      Layout.Carved (pushPages pg (mmapSize pg size) buf h) h' (buf :: ns) ns' os
        (Set.Ico buf (buf + mmapSize pg size) ∪ U) (allocSize size) b ∧ ns ⊆ b :: ns' := by
  have hge := allocSize_ge hs
  have hsplit := splitSize_eq hs
  have hn := splitSize_le_mmapSize pg hs
  have hdvd : 8 ∣ mmapSize pg size := Nat.dvd_trans pg.dvd (dvd_mmapSize pg hs)
  have hpos : 0 < mmapSize pg size / pg.bytes :=
    Nat.div_pos (Nat.le_of_dvd (mmapSize_pos pg hs) (dvd_mmapSize pg hs)) pg.pos
  rcases search_eq (allocSize size) (splitSize size) none L.chain hf with
    ⟨he, _⟩ | ⟨mid, c, post, rfl, _, hcf, _, _⟩
  · have L₁ : Layout { pushPages pg (mmapSize pg size) buf h with lock := true } ([] ++ buf :: ns) os
        (Set.Ico buf (buf + mmapSize pg size) ∪ U) :=
      (L.pushPages hbuf halign hdvd (by omega) hend hd).withLock true
    have hlong : fits (pushPages pg (mmapSize pg size) buf h).mem (allocSize size)
        (allocSize size + 24) buf := .inl (by rw [← hsplit]; exact hn.trans_eq len_pushPages.symm)
    obtain ⟨b, ns', h', hcarve, C, hhead, hsub⟩ := L₁.carve (by omega) (allocSize_dvd hs) hlong
    refine ⟨b, ns', { h' with lock := false }, ?_, rfl, hhead ?_, C.unlock hl,
      fun a ha => hsub (List.mem_cons_of_mem _ ha)⟩
    · rw [← hsplit] at hcarve
      simp only [scMalloc, check_pos (Int.natCast_nonneg size), ok_bind, hl, Bool.false_eq_true,
        if_false, Int.toNat_natCast, check_pos (Nat.mod_eq_zero_of_dvd (allocSize_dvd hs)), he,
        if_true, hm]
      change (carve (allocSize size) (splitSize size) buf none
        { pushPages pg (mmapSize pg size) buf h with lock := true } >>= _) = _
      rw [show (none : Option Nat) = ([] : List Nat).getLast? from rfl, hcarve]
      rfl
    · exact pages_pushPages.trans_ne hpos.ne'
  · exact absurd hcf (hfit c (by simp))

end Malloc

theorem scFree_of_block {b : Nat} (L : Layout h ns (b :: os) U) (hb : IsBlock h.mem b)
    (hl : h.lock = false) :
    ∃ h', scFree (b + sizeofHeader) h = .ok h' ∧ h'.lock = false ∧ Layout h' (b :: ns) os U ∧
      pages h'.mem b = 0 ∧ ∀ w, w ∉ piece h.mem b → h'.mem w = h.mem w := by
  have Cb := L.chunk b (by simp)
  have hge := Cb.len_ge
  let m := store (store (store h.mem b (len h.mem b)) (b + 16) 0) (b + 8) h.freeList
  have hoff : ∀ w, w ∉ piece h.mem b → m w = h.mem w := by
    intro w hw
    have hout : w < b ∨ b + len h.mem b ≤ w := by
      simp only [piece, Set.mem_Ico, not_and_or, not_le, not_lt] at hw
      exact hw
    simp only [m, store]
    rw [Function.update_of_ne (by omega), Function.update_of_ne (by omega),
      Function.update_of_ne (by omega)]
  have hlen : len m b = len h.mem b := by
    simp only [m, len, store]
    rw [Function.update_of_ne (by omega), Function.update_of_ne (by omega), Function.update_self]
  have L₁ := L.write (List.mem_cons_self ..) hoff hlen
  refine ⟨{ h with mem := m, freeList := b }, ?_, hl, L₁.push ?_, ?_, hoff⟩
  · have halign : (b + sizeofHeader) % 8 = 0 := by
      have := Cb.align
      unfold sizeofHeader
      omega
    have hhead : b + sizeofHeader - sizeofHeader = b := Nat.add_sub_cancel ..
    have hfoot : h.mem (b + len h.mem b - sizeofFooter) = footMagic := hb.foot
    simp only [scFree, check_pos halign, ok_bind, hhead, hb.head, hfoot, ne_eq, not_true_eq_false,
      or_self, if_false, hl, Bool.false_eq_true]
    rfl
  · change m (b + 8) = h.freeList
    exact Function.update_self ..
  · change m (b + 16) = 0
    simp only [m, store]
    rw [Function.update_of_ne (by omega), Function.update_self]

end Calls
end Subcontexts.Alloc
