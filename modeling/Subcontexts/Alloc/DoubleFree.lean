import Subcontexts.Alloc.Runs

/-! Every pointer that `sc_malloc` has returned, at any later point of the run: its block is live,
or its header has become a node of the free list, where `next` overlays the magic. -/

namespace Subcontexts.Alloc

/-- `sc_free` with the memory it leaves, also where it does not return. -/
def scFreeMem (buf : Nat) (h : Heap) : Except Halt Unit × Heap :=
  if buf % 8 ≠ 0 then (.error .assertion, h)
  else
    let head := buf - sizeofHeader
    let foot := head + len h.mem head - sizeofFooter
    if magic h.mem head ≠ headMagic ∨ h.mem foot ≠ footMagic then (.error (.exit 3), h)
    else
      let len := len h.mem head
      let m := store h.mem head len
      let m := store m (head + 16) 0
      if h.lock then (.error .blocked, { h with mem := m })
      else (.ok (), { h with mem := store m (head + 8) h.freeList, freeList := head })

theorem scFree_eq_scFreeMem (buf : Nat) (h : Heap) :
    scFree buf h = (scFreeMem buf h).1.map fun _ => (scFreeMem buf h).2 := by
  unfold scFree scFreeMem
  by_cases halign : buf % 8 = 0
  · rw [check_pos halign, ok_bind, if_neg (not_not_intro halign)]
    dsimp only
    split
    · rfl
    · cases h.lock <;> rfl
  · have hcheck : check (buf % 8 = 0) = .error .assertion := if_neg halign
    rw [hcheck, if_pos halign]
    rfl

structure History where
  sys : Sys
  issued : List Nat

inductive Event where
  | call (c : Call)
  | freeAgain (p : Nat)
  deriving DecidableEq, Repr

def issue (pg : PageSize) (s : Sys) (issued : List Nat) : Call → List Nat
  | .malloc size fuel answer =>
    match scMalloc pg (kernelMmap pg answer) fuel size s.heap s.ranges with
    | .ok (some p, _, _) => p :: issued
    | _ => issued
  | _ => issued

/-- A call, or an `sc_free` of a pointer whose block is not live: the process may end in it, and
the others go on with the memory it leaves. -/
def History.step (pg : PageSize) (x : History) : Event → Option History
  | .call c => (Alloc.step pg x.sys c).map fun t => ⟨t, issue pg x.sys x.issued c⟩
  | .freeAgain p =>
    if p ∈ x.issued ∧ ¬ ∃ b ∈ x.sys.live, b.ptr = p then
      some { x with sys := { x.sys with heap := (scFreeMem p x.sys.heap).2 } }
    else none

def History.init (x : History) : Prop := x.sys.init ∧ x.issued = []

def Recorded (pg : PageSize) : History → Prop :=
  Trans.Reach History.init (Trans.ofFun (History.step pg))

def Started (s : Sys) (ns issued : List Nat) : Prop :=
  ∀ p ∈ issued, ∃ a ∈ ns ++ starts s.live, p = a + sizeofHeader

section Free
variable {pg : PageSize} {s : Sys} {ns : List Nat} {a : Nat}

theorem headMagic_not_aligned : ¬ 8 ∣ headMagic := by decide

theorem Inv.magic_free (I : Inv pg s ns) (ha : a ∈ ns) : magic s.heap.mem a ≠ headMagic := by
  have hnext : 8 ∣ next s.heap.mem a := by
    by_cases hzero : next s.heap.mem a = 0
    · rw [hzero]
      exact Nat.dvd_zero 8
    · have hlink : (links s.heap).next a = some (next s.heap.mem a) :=
        ptr_of_pos (Nat.pos_of_ne_zero hzero)
      have hmem := I.layout.chain.next_mem ha hlink
      exact (I.layout.chunk _ (List.mem_append_left _ hmem)).align
  intro hmagic
  have hsame : next s.heap.mem a = headMagic := hmagic
  rw [hsame] at hnext
  exact headMagic_not_aligned hnext

theorem Inv.ptr_aligned (I : Inv pg s ns) (ha : a ∈ ns ++ starts s.live) :
    (a + sizeofHeader) % 8 = 0 := by
  have halign := (I.layout.chunk a ha).align
  unfold sizeofHeader
  omega

theorem Inv.free_refused (I : Inv pg s ns) (ha : a ∈ ns) :
    scFreeMem (a + sizeofHeader) s.heap = (.error (.exit 3), s.heap) := by
  have halign := I.ptr_aligned (List.mem_append_left _ ha)
  have hmagic := I.magic_free ha
  unfold scFreeMem
  rw [if_neg (not_not_intro halign), Nat.add_sub_cancel]
  exact if_pos (.inl hmagic)

theorem Inv.free_accepted (I : Inv pg s ns) {b : Block} (hb : b ∈ s.live) :
    (scFreeMem b.ptr s.heap).1 = .ok () := by
  obtain ⟨t, ns', ht, -, -, -⟩ := I.free hb
  have hex : ∃ d ∈ s.live, d.ptr = b.ptr := ⟨b, hb, rfl⟩
  simp only [Alloc.step, if_pos hex, scFree_eq_scFreeMem] at ht
  cases hr : (scFreeMem b.ptr s.heap).1 with
  | ok u => rfl
  | error e =>
    rw [hr] at ht
    cases ht

theorem Started.free {issued : List Nat} (S : Started s ns issued) {p : Nat} (hp : p ∈ issued)
    (hdead : ¬ ∃ b ∈ s.live, b.ptr = p) : ∃ a ∈ ns, p = a + sizeofHeader := by
  obtain ⟨a, ha, rfl⟩ := S p hp
  refine ⟨a, ?_, rfl⟩
  rcases List.mem_append.mp ha with ha | ha
  · exact ha
  · obtain ⟨b, hb, rfl⟩ := List.mem_map.mp ha
    exact absurd ⟨b, hb, rfl⟩ hdead

theorem Inv.freeAgain_unchanged (I : Inv pg s ns) {issued : List Nat} (S : Started s ns issued)
    {p : Nat} (hp : p ∈ issued) (hdead : ¬ ∃ b ∈ s.live, b.ptr = p) :
    scFreeMem p s.heap = (.error (.exit 3), s.heap) := by
  obtain ⟨a, ha, rfl⟩ := S.free hp hdead
  exact I.free_refused ha

end Free

section Runs
variable {pg : PageSize}

theorem started_issue {s t : Sys} {ns ns' issued : List Nat} (S : Started s ns issued)
    (I' : Inv pg t ns') (hsub : ns ++ starts s.live ⊆ ns' ++ starts t.live) {c : Call}
    (h : step pg s c = some t) : Started t ns' (issue pg s issued c) := by
  have hold : Started t ns' issued := by
    intro p hp
    obtain ⟨a, ha, hpa⟩ := S p hp
    exact ⟨a, hsub ha, hpa⟩
  cases c with
  | malloc size fuel answer =>
    simp only [step] at h
    split at h
    · split at h
      · rename_i p h' rs hr
        obtain rfl := Option.some.inj h
        simp only [issue, hr]
        have hstart : p - sizeofHeader ∈ ns' ++ starts (⟨p - sizeofHeader, size.toNat⟩ :: s.live) :=
          List.mem_append_right _ (List.mem_cons_self ..)
        have hpos := (I'.layout.chunk _ hstart).pos
        intro q hq
        rcases List.mem_cons.mp hq with rfl | hq
        · exact ⟨_, hstart, (Nat.sub_add_cancel (Nat.le_of_lt (Nat.lt_of_sub_pos hpos))).symm⟩
        · exact hold q hq
      · rename_i h' rs hr
        simp only [issue, hr]
        exact hold
      · cases h
    · cases h
  | free p => exact hold
  | write w v => exact hold

theorem History.inv {x : History} (h : Recorded pg x) :
    ∃ ns, Inv pg x.sys ns ∧ Started x.sys ns x.issued := by
  induction h with
  | init h0 =>
    refine ⟨[], Inv.init h0.1, fun p hp => ?_⟩
    rw [h0.2] at hp
    cases hp
  | @step x e y _ hst ih =>
    obtain ⟨ns, I, S⟩ := ih
    cases e with
    | call c =>
      obtain ⟨t, ht, hy⟩ := Option.map_eq_some_iff.mp hst
      obtain rfl := hy
      obtain ⟨⟨ns', I', hsub⟩, -⟩ := I.step ht
      exact ⟨ns', I', started_issue S I' hsub ht⟩
    | freeAgain p =>
      change (if _ then _ else _) = _ at hst
      split at hst
      · obtain ⟨hp, hdead⟩ := ‹p ∈ x.issued ∧ _›
        obtain rfl := Option.some.inj hst
        rw [I.freeAgain_unchanged S hp hdead]
        exact ⟨ns, I, S⟩
      · cases hst

end Runs

/-- At any point of any run `sc_free` accepts a pointer that `sc_malloc` has returned exactly when
its block is live, and otherwise ends the process before anything is written. -/
theorem double_free_caught (pg : PageSize) {x : History} (h : Recorded pg x) {p : Nat}
    (hp : p ∈ x.issued) :
    ((∃ h', scFree p x.sys.heap = .ok h') ↔ ∃ b ∈ x.sys.live, b.ptr = p) ∧
    ((¬ ∃ b ∈ x.sys.live, b.ptr = p) →
      scFree p x.sys.heap = .error (.exit 3) ∧
      scFreeMem p x.sys.heap = (.error (.exit 3), x.sys.heap)) := by
  obtain ⟨ns, I, S⟩ := History.inv h
  have hrefused : (¬ ∃ b ∈ x.sys.live, b.ptr = p) →
      scFree p x.sys.heap = .error (.exit 3) ∧
      scFreeMem p x.sys.heap = (.error (.exit 3), x.sys.heap) := by
    intro hdead
    have hmem := I.freeAgain_unchanged S hp hdead
    refine ⟨?_, hmem⟩
    rw [scFree_eq_scFreeMem, hmem]
    rfl
  refine ⟨⟨fun ⟨h', hok⟩ => ?_, fun ⟨b, hb, hbp⟩ => ?_⟩, hrefused⟩
  · by_contra hdead
    rw [(hrefused hdead).1] at hok
    cases hok
  · obtain ⟨t, _, ht, -, -, -⟩ := I.free hb
    rw [← hbp, scFree_eq_scFreeMem, I.free_accepted hb]
    exact ⟨_, rfl⟩

def freedTwice : List Event :=
  [.call (.malloc 100 1 (some 4096)), .call (.malloc 10 3 none), .call (.free 4136),
    .call (.malloc 0 4 none), .call (.free 4136), .freeAgain 4136]

theorem double_free_caught_reused : ∃ x, Recorded page4096 x ∧ 4136 ∈ x.issued ∧
    scFree 4136 x.sys.heap = .error (.exit 3) := by
  have hrun : (Trans.exec (History.step page4096) freedTwice ⟨emptySys, []⟩).map
      (fun x => (x.issued, x.sys.live)) = some ([4136, 4264, 4136], [⟨4248, 10⟩]) := by
    decide +kernel
  obtain ⟨x, hx, hxs⟩ := Option.map_eq_some_iff.mp hrun
  obtain ⟨hissued, hlive⟩ := Prod.mk.inj hxs
  have hr : Recorded page4096 x := .of_exec (.init ⟨⟨rfl, rfl, rfl, rfl⟩, rfl⟩) hx
  have hp : 4136 ∈ x.issued := hissued ▸ List.mem_cons_self ..
  refine ⟨x, hr, hp, ((double_free_caught page4096 hr hp).2 ?_).1⟩
  rw [hlive]
  decide

end Subcontexts.Alloc
