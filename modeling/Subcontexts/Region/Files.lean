import Subcontexts.Region.Calls

/-! Which bytes of the backing file the active regions stand for. -/

namespace Subcontexts.Region
variable {pg : PageSize} {fp : FirstPage pg}

def FileBacked (e : Extent) : Prop := e.tmpfileOffset ≠ noOffset

def Clear (e : Extent) (start len : Nat) : Prop := e.vaddr + e.len ≤ start ∨ start + len ≤ e.vaddr

def Apart (e e' : Extent) : Prop := Clear e e'.vaddr e'.len

def FileApart (e e' : Extent) : Prop :=
  e.tmpfileOffset + e.len ≤ e'.tmpfileOffset ∨ e'.tmpfileOffset + e'.len ≤ e.tmpfileOffset

/-- A region has whole pages inside the file, or no access and no place in the file. -/
structure Stored (pg : PageSize) (size : Nat) (e : Extent) : Prop where
  addresses : e.vaddr + e.len < 2 ^ 64
  hidden : e.tmpfileOffset = noOffset → e.prot = protNone
  aligned : FileBacked e → pg.bytes ∣ e.tmpfileOffset
  whole : pg.bytes ∣ e.len
  inside : FileBacked e → e.tmpfileOffset + e.len ≤ size

def Sc.extent (s : Sc) (a : Addr) : Extent := (s.mem a).toExtent

structure Files (fp : FirstPage pg) (s : Sc) (l : List Addr) (rsv : Addr) : Prop where
  reserved : s.reservedRegions = some rsv
  unused : (s.extent rsv).prot = protNone
  positive : 0 < (s.extent rsv).vaddr
  reservable : (s.extent rsv).vaddr + (s.extent rsv).len < 2 ^ 64
  bound : s.tmpfileSize < 2 ^ 63
  aligned : pg.bytes ∣ s.tmpfileSize
  first : s.extent (fp.regions 0) = ⟨fp.base, pg.bytes, protRead ||| protWrite, 0⟩
  stored : ∀ a ∈ l, Stored pg s.tmpfileSize (s.extent a)
  apart : ∀ a ∈ l, ∀ b ∈ l, a ≠ b → Apart (s.extent a) (s.extent b)
  fileApart : ∀ a ∈ l, ∀ b ∈ l, a ≠ b → FileBacked (s.extent a) → FileBacked (s.extent b) →
    FileApart (s.extent a) (s.extent b)
  free : ∀ a ∈ l, Apart (s.extent a) (s.extent rsv)

theorem Apart.symm {e e' : Extent} (h : Apart e e') : Apart e' e := Or.symm h

theorem FileApart.symm {e e' : Extent} (h : FileApart e e') : FileApart e' e := Or.symm h

theorem Files.congr {s t : Sc} {l : List Addr} {rsv : Addr} (F : Files fp s l rsv)
    (hres : t.reservedRegions = s.reservedRegions) (hsize : t.tmpfileSize = s.tmpfileSize)
    (hmem : t.mem = s.mem) : Files fp t l rsv := by
  have hext : t.extent = s.extent := funext fun a => congrArg ScRegion.toExtent (congrFun hmem a)
  obtain ⟨h₁, h₂, h₃, h₄, h₅, h₆, h₇, h₈, h₉, h₁₀, h₁₁⟩ := F
  rw [← hext] at h₂ h₃ h₄ h₇ h₈ h₉ h₁₀ h₁₁
  rw [← hsize] at h₅ h₆ h₈
  exact ⟨hres.trans h₁, h₂, h₃, h₄, h₅, h₆, h₇, h₈, h₉, h₁₀, h₁₁⟩

theorem Stored.mono {size size' : Nat} {e : Extent} (h : Stored pg size e) (hle : size ≤ size') :
    Stored pg size' e :=
  ⟨h.addresses, h.hidden, h.aligned, h.whole, fun hb => Nat.le_trans (h.inside hb) hle⟩

section Add
variable {s t : Sc} {l l' : List Addr} {reg rsv : Addr}

theorem Files.add (F : Files fp s l rsv) (hmem : ∀ a, a ∈ l' ↔ a = reg ∨ a ∈ l) (hreg : reg ∉ l)
    (hfirst : fp.regions 0 ∈ l) (hreserved : t.reservedRegions = some rsv)
    (hothers : ∀ a ∈ l, t.extent a = s.extent a)
    (hfree : (s.extent rsv).vaddr ≤ (t.extent rsv).vaddr ∧ (t.extent rsv).vaddr +
      (t.extent rsv).len ≤ (s.extent rsv).vaddr + (s.extent rsv).len)
    (hunused : (t.extent rsv).prot = (s.extent rsv).prot)
    (hsize : s.tmpfileSize ≤ t.tmpfileSize) (hbound : t.tmpfileSize < 2 ^ 63)
    (haligned : pg.bytes ∣ t.tmpfileSize) (hstored : Stored pg t.tmpfileSize (t.extent reg))
    (hnew : FileBacked (t.extent reg) → s.tmpfileSize ≤ (t.extent reg).tmpfileOffset)
    (hapart : ∀ a ∈ l, Apart (s.extent a) (t.extent reg))
    (hrsv : Apart (t.extent reg) (t.extent rsv)) : Files fp t l' rsv := by
  have hne : ∀ a ∈ l, a ≠ reg := fun a ha h => hreg (h ▸ ha)
  have hnewApart : ∀ a ∈ l, FileBacked (s.extent a) → FileBacked (t.extent reg) →
      FileApart (s.extent a) (t.extent reg) := fun a ha hb hb' =>
    .inl (Nat.le_trans ((F.stored a ha).inside hb) (hnew hb'))
  have hreservable := F.reservable
  have hpositive := F.positive
  refine ⟨hreserved, hunused.trans F.unused, by omega, by omega, hbound, haligned,
    (hothers _ hfirst).trans F.first, fun a ha => ?_, fun a ha b hb hab => ?_,
    fun a ha b hb hab => ?_, fun a ha => ?_⟩
  · rcases (hmem a).mp ha with rfl | ha
    · exact hstored
    · exact hothers a ha ▸ (F.stored a ha).mono hsize
  · rcases (hmem a).mp ha with rfl | ha'
    · rcases (hmem b).mp hb with rfl | hb'
      · exact absurd rfl hab
      · exact hothers b hb' ▸ (hapart b hb').symm
    · rcases (hmem b).mp hb with rfl | hb'
      · exact hothers a ha' ▸ hapart a ha'
      · exact hothers a ha' ▸ hothers b hb' ▸ F.apart a ha' b hb' hab
  · rcases (hmem a).mp ha with rfl | ha'
    · rcases (hmem b).mp hb with rfl | hb'
      · exact absurd rfl hab
      · rw [hothers b hb']
        exact fun h h' => (hnewApart b hb' h' h).symm
    · rcases (hmem b).mp hb with rfl | hb'
      · rw [hothers a ha']
        exact hnewApart a ha'
      · rw [hothers a ha', hothers b hb']
        exact F.fileApart a ha' b hb' hab
  · rcases (hmem a).mp ha with rfl | ha
    · exact hrsv
    · rw [hothers a ha]
      have h := F.free a ha
      unfold Apart Clear at h ⊢
      omega

theorem mem_append_singleton (a : Addr) : a ∈ l ++ [reg] ↔ a = reg ∨ a ∈ l := by
  rw [List.mem_append, List.mem_singleton, or_comm]

theorem Files.carved {length prot : Nat} (F : Files fp s l rsv) (C : Carved s t reg rsv length prot)
    (hreg : reg ∉ l) (hrsvl : rsv ∉ l) (hfirst : fp.regions 0 ∈ l)
    (hsize : t.tmpfileSize = u64 (s.tmpfileSize + length)) (hdvd : length % pg.bytes = 0)
    (hbound : s.tmpfileSize + length < 2 ^ 63) : Files fp t (l ++ [reg]) rsv := by
  have hfits := C.fits
  have hreservable := F.reservable
  have hnat : t.tmpfileSize = s.tmpfileSize + length := by
    rw [hsize, u64_of_lt (by omega)]
  have hregion : t.extent reg =
      ⟨(s.extent rsv).vaddr, length, prot % 256, s.tmpfileSize⟩ := by
    have h : t.extent reg = _ := C.region
    rw [h, hnat, sub64_of_le (by omega) (by omega), Nat.add_sub_cancel]
    rfl
  have hrest : t.extent rsv = { s.extent rsv with
      vaddr := (s.extent rsv).vaddr + length, len := (s.extent rsv).len - length } := by
    have h : t.extent rsv = _ := C.rest
    have hend : (s.mem rsv).vaddr + length < 2 ^ 64 := by
      have hr : (s.mem rsv).vaddr + (s.mem rsv).len < 2 ^ 64 := F.reservable
      omega
    rw [h, u64_of_lt hend]
    rfl
  have hfits' : length < (s.extent rsv).len := hfits
  refine F.add mem_append_singleton hreg hfirst C.reserved' (fun a ha => ?_) ?_ (hrest ▸ rfl) ?_ ?_
    ?_ ?_ ?_ (fun a ha => ?_) ?_
  · exact C.others a (fun h => hreg (h ▸ ha)) fun h => hrsvl (h ▸ ha)
  · rw [hrest]
    show _ ≤ (s.extent rsv).vaddr + length ∧
      (s.extent rsv).vaddr + length + ((s.extent rsv).len - length) ≤ _
    omega
  · omega
  · omega
  · rw [hnat]
    exact Nat.dvd_add F.aligned (Nat.dvd_of_mod_eq_zero hdvd)
  · rw [hregion]
    refine ⟨?_, fun h => ?_, fun _ => F.aligned, Nat.dvd_of_mod_eq_zero hdvd,
      fun _ => Nat.le_of_eq hnat.symm⟩
    · show (s.extent rsv).vaddr + length < 2 ^ 64
      omega
    · have hoff : s.tmpfileSize = noOffset := h
      have hb := F.bound
      unfold noOffset at hoff
      omega
  · rw [hregion]
    exact fun _ => Nat.le_refl _
  · have h := F.free a ha
    rw [hregion]
    unfold Apart Clear at h ⊢
    show _ ≤ (s.extent rsv).vaddr ∨ (s.extent rsv).vaddr + length ≤ _
    omega
  · rw [hregion, hrest]
    exact .inl (Nat.le_refl _)

theorem Files.imported {addr len prot : Nat} (F : Files fp s l rsv)
    (I : Imported s t reg addr len prot) (hreg : reg ∉ l) (hrsv : rsv ≠ reg)
    (hfirst : fp.regions 0 ∈ l) (hdvd : len % pg.bytes = 0)
    (hbound : s.tmpfileSize + len < 2 ^ 63) (haddr : addr + len < 2 ^ 64)
    (hapart : ∀ a ∈ l, Apart (s.extent a) ⟨addr, len, prot, s.tmpfileSize⟩)
    (hfree : Apart (s.extent rsv) ⟨addr, len, prot, s.tmpfileSize⟩) :
    Files fp t (l ++ [reg]) rsv := by
  have hnat : t.tmpfileSize = s.tmpfileSize + len := by
    rw [I.size, u64_of_lt (by omega)]
  have hregion : t.extent reg = ⟨addr, len, prot, s.tmpfileSize⟩ := I.region
  have hrest : t.extent rsv = s.extent rsv := I.others rsv hrsv
  refine F.add mem_append_singleton hreg hfirst (I.reserved.trans F.reserved) (fun a ha => ?_) ?_
    (hrest ▸ rfl) ?_ ?_ ?_ ?_ ?_ ?_ ?_
  · exact I.others a fun h => hreg (h ▸ ha)
  · rw [hrest]
    exact ⟨Nat.le_refl _, Nat.le_refl _⟩
  · omega
  · omega
  · rw [hnat]
    exact Nat.dvd_add F.aligned (Nat.dvd_of_mod_eq_zero hdvd)
  · rw [hregion]
    refine ⟨haddr, fun h => ?_, fun _ => F.aligned, Nat.dvd_of_mod_eq_zero hdvd,
      fun _ => Nat.le_of_eq hnat.symm⟩
    have hoff : s.tmpfileSize = noOffset := h
    have hb := F.bound
    unfold noOffset at hoff
    omega
  · rw [hregion]
    exact fun _ => Nat.le_refl _
  · exact hregion ▸ hapart
  · rw [hregion, hrest]
    exact hfree.symm

theorem Files.hidden {w w' : World} {r : Int} {addr len : Nat} {first : Addr} {rest : List Addr}
    (F : Files fp w.sc (first :: rest) rsv) (H : Hidden fp w w' r reg addr len)
    (hreg : reg ∉ first :: rest) (hrsv : rsv ≠ reg) (hfirst : fp.regions 0 ∈ first :: rest)
    (haddr : addr + len < 2 ^ 64) (hdvd : len % pg.bytes = 0)
    (hapart : ∀ a ∈ first :: rest, Apart (w.sc.extent a) ⟨addr, len, protNone, noOffset⟩)
    (hfree : Apart (w.sc.extent rsv) ⟨addr, len, protNone, noOffset⟩) :
    Files fp w'.sc (first :: reg :: rest) rsv := by
  have hregion : w'.sc.extent reg = ⟨addr, len, protNone, noOffset⟩ := H.region
  have hrest : w'.sc.extent rsv = w.sc.extent rsv := H.others rsv hrsv
  refine F.add (fun a => ?_) hreg hfirst (H.reserved.trans F.reserved) (fun a ha => ?_) ?_
    (hrest ▸ rfl) (Nat.le_of_eq H.size.symm) (H.size ▸ F.bound) (H.size ▸ F.aligned) ?_ ?_ ?_ ?_
  · simp only [List.mem_cons]
    exact or_left_comm
  · exact H.others a fun h => hreg (h ▸ ha)
  · rw [hrest]
    exact ⟨Nat.le_refl _, Nat.le_refl _⟩
  · rw [hregion]
    exact ⟨haddr, fun _ => rfl, fun h => absurd rfl h, Nat.dvd_of_mod_eq_zero hdvd,
      fun h => absurd rfl h⟩
  · rw [hregion]
    exact fun h => absurd rfl h
  · exact hregion ▸ hapart
  · rw [hregion, hrest]
    exact hfree.symm

end Add

/-- The address belongs to the region, and is the byte of the backing file at the offset. -/
def Backs (e : Extent) (x o : Nat) : Prop :=
  FileBacked e ∧ e.vaddr ≤ x ∧ x < e.vaddr + e.len ∧ o = e.tmpfileOffset + (x - e.vaddr)

def At (s : Sc) (l : List Addr) (x o : Nat) : Prop := ∃ a ∈ l, Backs (s.extent a) x o

section At
variable {s t : Sc} {l l' : List Addr} {rsv : Addr} {x y o o' : Nat}

theorem Files.region_unique (F : Files fp s l rsv) {a b : Addr} (ha : a ∈ l) (hb : b ∈ l)
    (hax : (s.extent a).vaddr ≤ x ∧ x < (s.extent a).vaddr + (s.extent a).len)
    (hbx : (s.extent b).vaddr ≤ x ∧ x < (s.extent b).vaddr + (s.extent b).len) : a = b := by
  by_contra hne
  have h := F.apart a ha b hb hne
  unfold Apart Clear at h
  omega

theorem Files.at_unique (F : Files fp s l rsv) (h : At s l x o) (h' : At s l x o') : o = o' := by
  obtain ⟨a, ha, -, hlo, hhi, rfl⟩ := h
  obtain ⟨b, hb, -, hlo', hhi', rfl⟩ := h'
  rw [F.region_unique ha hb ⟨hlo, hhi⟩ ⟨hlo', hhi'⟩]

theorem Files.at_inj (F : Files fp s l rsv) (h : At s l x o) (h' : At s l y o) : x = y := by
  obtain ⟨a, ha, hba, hlo, hhi, ho⟩ := h
  obtain ⟨b, hb, hbb, hlo', hhi', ho'⟩ := h'
  by_cases hab : a = b
  · subst hab
    omega
  · have hfa := F.fileApart a ha b hb hab hba hbb
    unfold FileApart at hfa
    omega

theorem Files.backs_inside (F : Files fp s l rsv) {a : Addr} (ha : a ∈ l)
    (h : Backs (s.extent a) x o) : o < s.tmpfileSize := by
  obtain ⟨hb, hlo, hhi, rfl⟩ := h
  have hin := (F.stored a ha).inside hb
  omega

theorem At.mono (h : At s l x o) (hsub : ∀ a ∈ l, a ∈ l') (hext : ∀ a ∈ l, t.extent a = s.extent a) :
    At t l' x o := by
  obtain ⟨a, ha, hrest⟩ := h
  exact ⟨a, hsub a ha, hext a ha ▸ hrest⟩

end At
end Subcontexts.Region
