import Subcontexts.Prealloc.Model

/-! Who has the struct for the next process: it is posted, or one process has claimed it or owes a
new one, or a process has ended with it. -/

namespace Subcontexts.Prealloc

def Pc.Owes : Pc → Prop
  | .initMagic | .initRoot | .initMalloc | .initPost _ => True
  | .joinMap _ | .joinRegister _ | .joinSignals => True
  | .setupMalloc | .setupPost _ => True
  | _ => False

def Pc.Early : Pc → Prop
  | .initMagic | .initRoot | .initMalloc | .initPost _ => True
  | _ => False

def Pc.held : Pc → Option Addr
  | .initPost a | .joinMap a | .joinRegister a | .setupPost a => some a
  | _ => none

def Pc.fresh : Pc → Option Addr
  | .initPost a | .setupPost a => some a
  | _ => none

theorem Pc.Early.owes {pc : Pc} (h : pc.Early) : pc.Owes := by
  cases pc <;> trivial

theorem Pc.owes_of_held {pc : Pc} {a : Addr} (h : pc.held = some a) : pc.Owes := by
  cases pc <;> trivial

theorem Pc.held_of_fresh {pc : Pc} {a : Addr} (h : pc.fresh = some a) : pc.held = some a := by
  cases pc <;> first | exact h | cases h

structure Inv (pg : PageSize) (s : State) : Prop where
  heap : ∃ ns, Alloc.Inv pg s.heap ns
  live : ∀ a ∈ s.structs, ∃ b ∈ s.heap.live, b.ptr = a
  owes : ∀ p q, (s.pc p).Owes → (s.pc q).Owes → p = q
  empty : ∀ p, (s.pc p).Owes → s.preallocProc = none
  early : ∀ p, (s.pc p).Early → s.registered = [] ∧ s.raises = 0
  chain : s.links.Holds s.registered
  count : s.procCount = s.raises % 2 ^ 32
  first : ∀ p a, s.pc p = .initPost a → (s.procs a).next = none
  held : ∀ p a, (s.pc p).held = some a → a ∈ s.structs ∧ a ∉ s.registered
  fresh : ∀ p a, (s.pc p).fresh = some a → a ∉ s.claims.map Prod.fst
  posted : ∀ a, s.preallocProc = some a →
    a ∈ s.structs ∧ a ∉ s.registered ∧ a ∉ s.claims.map Prod.fst
  claimed : ∀ a ∈ s.claims.map Prod.fst, a ∈ s.structs
  listed : ∀ a ∈ s.registered, a ∈ s.structs
  once : (s.claims.map Prod.fst).Nodup

section Steps
variable {pg : PageSize} {n : Nat} {s t : State} {p : Pid} {a : Addr}

theorem Inv.init (h : s.init) : Inv pg s := by
  obtain ⟨-, -, hcount, hlist, hpre, hheap, ⟨p, hp, hothers⟩, hstructs, hclaims, hreg, hraises⟩ := h
  have hpc : ∀ q, q = p ∧ s.pc q = .initMagic ∨ s.pc q = .idle := by
    intro q
    by_cases hq : q = p
    · exact .inl ⟨hq, hq ▸ hp⟩
    · exact .inr (hothers q hq)
  have howes : ∀ q, (s.pc q).Owes → q = p := by
    intro q hq
    rcases hpc q with ⟨hqp, -⟩ | hidle
    · exact hqp
    · rw [hidle] at hq
      exact hq.elim
  have hheld : ∀ q a, (s.pc q).held ≠ some a := by
    intro q a hq
    rcases hpc q with ⟨-, hmagic⟩ | hidle
    · rw [hmagic] at hq
      cases hq
    · rw [hidle] at hq
      cases hq
  refine ⟨⟨[], .init hheap⟩, ?_, fun q u hq hu => (howes q hq).trans (howes u hu).symm,
    fun _ _ => hpre, fun _ _ => ⟨hreg, hraises⟩, ?_, ?_, ?_, fun q a hq => absurd hq (hheld q a),
    fun q a hq => absurd (Pc.held_of_fresh hq) (hheld q a), ?_, ?_, ?_, ?_⟩
  · rw [hstructs]
    exact fun a ha => absurd ha List.not_mem_nil
  · rw [hreg]
    exact hlist
  · simp [hcount, hraises]
  · intro q a hq
    have hsome : (s.pc q).held = some a := by
      rw [hq]
      rfl
    exact absurd hsome (hheld q a)
  · rw [hpre]
    rintro a ⟨⟩
  · rw [hclaims]
    exact fun a ha => absurd ha List.not_mem_nil
  · rw [hreg]
    exact fun a ha => absurd ha List.not_mem_nil
  · rw [hclaims]
    exact List.nodup_nil

theorem Inv.goto (I : Inv pg s) {pc : Pc} (howes : pc.Owes → (s.pc p).Owes)
    (hearly : pc.Early → (s.pc p).Early) (hheld : ∀ a, pc.held = some a → (s.pc p).held = some a)
    (hfresh : ∀ a, pc.fresh = some a → (s.pc p).fresh = some a)
    (hfirst : ∀ a, pc = .initPost a → s.pc p = .initPost a) : Inv pg (s.goto p pc) := by
  have hold : ∀ q, (Function.update s.pc p pc q).Owes → (s.pc q).Owes := by
    intro q hq
    rcases Trans.of_update (P := Pc.Owes) hq with ⟨rfl, hnew⟩ | ⟨-, hq⟩
    · exact howes hnew
    · exact hq
  refine ⟨I.heap, I.live, fun q u hq hu => I.owes q u (hold q hq) (hold u hu),
    fun q hq => I.empty q (hold q hq), fun q hq => ?_, I.chain, I.count, fun q a hq => ?_,
    fun q a hq => ?_, fun q a hq => ?_, I.posted, I.claimed, I.listed, I.once⟩
  · rcases Trans.of_update (P := Pc.Early) hq with ⟨rfl, hnew⟩ | ⟨-, hq⟩
    · exact I.early q (hearly hnew)
    · exact I.early q hq
  · rcases Trans.of_update (P := (· = Pc.initPost a)) hq with ⟨rfl, hnew⟩ | ⟨-, hq⟩
    · exact I.first q a (hfirst a hnew)
    · exact I.first q a hq
  · rcases Trans.of_update (P := fun pc : Pc => pc.held = some a) hq with ⟨rfl, hnew⟩ | ⟨-, hq⟩
    · exact I.held q a (hheld a hnew)
    · exact I.held q a hq
  · rcases Trans.of_update (P := fun pc : Pc => pc.fresh = some a) hq with ⟨rfl, hnew⟩ | ⟨-, hq⟩
    · exact I.fresh q a (hfresh a hnew)
    · exact I.fresh q a hq

theorem Inv.leave (I : Inv pg s) {pc : Pc} (hpc : ¬ pc.Owes) : Inv pg (s.goto p pc) := by
  refine I.goto (fun h => absurd h hpc) (fun h => absurd h.owes hpc)
    (fun a h => absurd (Pc.owes_of_held h) hpc)
    (fun a h => absurd (Pc.owes_of_held (Pc.held_of_fresh h)) hpc) fun a h => ?_
  subst h
  exact absurd trivial hpc

theorem Inv.only (I : Inv pg s) (hp : (s.pc p).Owes) {q : Pid} (hq : q ≠ p) : ¬ (s.pc q).Owes :=
  fun h => hq (I.owes q p h hp)

theorem Inv.initRoot (I : Inv pg s) (hp : s.pc p = .initRoot) (base : Nat) :
    Inv pg { s.goto p .initMalloc with rootDest := base, procCount := 0, procList := none } := by
  have hearly : (s.pc p).Early := by
    rw [hp]
    trivial
  obtain ⟨hreg, hraises⟩ := I.early p hearly
  have J : Inv pg (s.goto p .initMalloc) := by
    refine I.goto (fun _ => hearly.owes) (fun _ => hearly) ?_ ?_ ?_
    · intro a h
      cases h
    · intro a h
      cases h
    · intro a h
      cases h
  refine ⟨J.heap, J.live, J.owes, J.empty, J.early, ?_, ?_, J.first, J.held, J.fresh, J.posted,
    J.claimed, J.listed, J.once⟩
  · change Linked.Holds _ s.registered
    rw [hreg]
    exact rfl
  · change 0 = s.raises % 2 ^ 32
    simp [hraises]

theorem Inv.initPost (I : Inv pg s) (hp : s.pc p = .initPost a) :
    Inv pg { s.goto p .setupMalloc with
      procCount := 1
      procList := some a
      registered := a :: s.registered
      raises := s.raises + 1 } := by
  have hearly : (s.pc p).Early := by
    rw [hp]
    trivial
  obtain ⟨hreg, hraises⟩ := I.early p hearly
  have hheld := I.held p a (by rw [hp]; rfl)
  have J : Inv pg (s.goto p .setupMalloc) := by
    refine I.goto (fun _ => hearly.owes) False.elim ?_ ?_ ?_
    · intro b h
      cases h
    · intro b h
      cases h
    · intro b h
      cases h
  have hnone : ∀ q, ¬ (Function.update s.pc p .setupMalloc q).Early := by
    intro q hq
    rcases Trans.of_update (P := Pc.Early) hq with ⟨-, hq⟩ | ⟨hqp, hq⟩
    · exact hq
    · exact I.only hearly.owes hqp hq.owes
  have hother : ∀ q b, (Function.update s.pc p .setupMalloc q).held ≠ some b := by
    intro q b hq
    rcases Trans.of_update (P := fun pc : Pc => pc.held = some b) hq with ⟨-, hq⟩ | ⟨hqp, hq⟩
    · cases hq
    · exact I.only hearly.owes hqp (Pc.owes_of_held hq)
  refine ⟨J.heap, J.live, J.owes, J.empty, fun q hq => absurd hq (hnone q), ?_, ?_, J.first,
    fun q b hq => absurd hq (hother q b), J.fresh, fun b hb => ?_, J.claimed, ?_, J.once⟩
  · change Linked.Holds ⟨some a, fun b => (s.procs b).next⟩ (a :: s.registered)
    rw [hreg]
    exact ⟨rfl, I.first p a hp⟩
  · change 1 = (s.raises + 1) % 2 ^ 32
    simp [hraises]
  · have hpre : s.preallocProc = some b := hb
    rw [I.empty p hearly.owes] at hpre
    cases hpre
  · intro b hb
    rcases List.mem_cons.mp hb with rfl | hb
    · exact hheld.1
    · exact I.listed b hb

theorem Inv.claim (I : Inv pg s) : Inv pg (claim s p) := by
  unfold Prealloc.claim
  cases hpre : s.preallocProc with
  | none => exact I.leave id
  | some a =>
    obtain ⟨hstruct, hreg, hclaim⟩ := I.posted a hpre
    -- a struct is posted only while nobody owes one, so `p` is the only one that owes now
    have hfree : ∀ q, ¬ (s.pc q).Owes := by
      intro q hq
      rw [I.empty q hq] at hpre
      cases hpre
    have howes : ∀ q, (Function.update s.pc p (.joinMap a) q).Owes → q = p := by
      intro q hq
      rcases Trans.of_update (P := Pc.Owes) hq with ⟨hqp, -⟩ | ⟨-, hq⟩
      · exact hqp
      · exact absurd hq (hfree q)
    refine ⟨I.heap, I.live, fun q u hq hu => (howes q hq).trans (howes u hu).symm, fun _ _ => rfl,
      fun q hq => ?_, I.chain, I.count, fun q b hq => ?_, fun q b hq => ?_, fun q b hq => ?_, ?_, ?_,
      I.listed, ?_⟩
    · rcases Trans.of_update (P := Pc.Early) hq with ⟨-, hq⟩ | ⟨-, hq⟩
      · exact hq.elim
      · exact absurd hq.owes (hfree q)
    · rcases Trans.of_update (P := (· = Pc.initPost b)) hq with ⟨-, hq⟩ | ⟨-, hq⟩
      · cases hq
      · exact I.first q b hq
    · rcases Trans.of_update (P := fun pc : Pc => pc.held = some b) hq with ⟨-, hq⟩ | ⟨-, hq⟩
      · obtain rfl := Option.some.inj hq
        exact ⟨hstruct, hreg⟩
      · exact I.held q b hq
    · rcases Trans.of_update (P := fun pc : Pc => pc.fresh = some b) hq with ⟨-, hq⟩ | ⟨-, hq⟩
      · cases hq
      · exact absurd (Pc.owes_of_held (Pc.held_of_fresh hq)) (hfree q)
    · rintro b ⟨⟩
    · intro b hb
      rcases List.mem_cons.mp hb with rfl | hb
      · exact hstruct
      · exact I.claimed b hb
    · exact List.nodup_cons.mpr ⟨hclaim, I.once⟩

theorem Inv.fill (I : Inv pg s) {proc : ScProcess} (hreg : a ∉ s.registered)
    (hfirst : ∀ q, s.pc q ≠ .initPost a) : Inv pg (s.fill a proc) := by
  refine ⟨I.heap, I.live, I.owes, I.empty, I.early, ?_, I.count, fun q b hq => ?_, I.held, I.fresh,
    I.posted, I.claimed, I.listed, I.once⟩
  · refine I.chain.congr rfl fun b hb => ?_
    have hba : b ≠ a := fun hba => hreg (hba ▸ hb)
    exact congrArg ScProcess.next (Function.update_of_ne hba _ _)
  · have hba : b ≠ a := fun hba => hfirst q (hba ▸ hq)
    exact (congrArg ScProcess.next (Function.update_of_ne hba _ _)).trans (I.first q b hq)

theorem Inv.map (I : Inv pg s) (hp : s.pc p = .joinMap a) (ok : Bool)
    (h : step pg n s (.map p ok) = some t) : Inv pg t := by
  simp only [step, hp] at h
  obtain ⟨-, hreg⟩ := I.held p a (by rw [hp]; rfl)
  have howes : (s.pc p).Owes := by
    rw [hp]
    trivial
  have hfirst : ∀ q, s.pc q ≠ .initPost a := by
    intro q hq
    have hqo : (s.pc q).Owes := by
      rw [hq]
      trivial
    rw [I.owes q p hqo howes, hp] at hq
    cases hq
  split at h
  · obtain rfl := Option.some.inj h
    refine (I.fill hreg hfirst).goto (fun _ => howes) False.elim (fun b hb => ?_) ?_ ?_
    · change (s.pc p).held = some b
      rw [hp]
      exact hb
    · intro b hb
      cases hb
    · intro b hb
      cases hb
  · obtain rfl := Option.some.inj h
    exact I.leave id

theorem Inv.register (I : Inv pg s) (hp : s.pc p = .joinRegister a) (pending : Bool) :
    Inv pg (register s p a pending) := by
  have howes : (s.pc p).Owes := by
    rw [hp]
    trivial
  obtain ⟨hstruct, hreg⟩ := I.held p a (by rw [hp]; rfl)
  have hnone : ∀ q, ¬ (s.pc q).Early := by
    intro q hq
    have hqp := I.owes q p hq.owes howes
    rw [hqp, hp] at hq
    exact hq
  have hcount : (s.procCount + 1) % 2 ^ 32 = (s.raises + 1) % 2 ^ 32 := by
    rw [I.count, Nat.mod_add_mod]
  have R : Inv pg { s with procCount := (s.procCount + 1) % 2 ^ 32, raises := s.raises + 1 } :=
    ⟨I.heap, I.live, I.owes, I.empty, fun q hq => absurd hq (hnone q), I.chain, hcount, I.first,
      I.held, I.fresh, I.posted, I.claimed, I.listed, I.once⟩
  unfold Prealloc.register
  cases pending with
  | true => exact R.leave id
  | false =>
    have hfirst : ∀ q, s.pc q ≠ .initPost a := by
      intro q hq
      refine hnone q ?_
      rw [hq]
      trivial
    let proc : ScProcess := { s.procs a with next := s.procList }
    have F : Inv pg (State.fill _ a proc) := R.fill hreg hfirst
    have J : Inv pg (State.goto _ p .joinSignals) := F.goto (fun _ => howes) False.elim
      (fun b hb => by cases hb) (fun b hb => by cases hb) (fun b hb => by cases hb)
    have hother : ∀ q b, (Function.update s.pc p .joinSignals q).held ≠ some b := by
      intro q b hq
      rcases Trans.of_update (P := fun pc : Pc => pc.held = some b) hq with ⟨-, hq⟩ | ⟨hqp, hq⟩
      · cases hq
      · exact I.only howes hqp (Pc.owes_of_held hq)
    refine ⟨J.heap, J.live, J.owes, J.empty, fun q hq => ?_, ?_, J.count, J.first,
      fun q b hq => absurd hq (hother q b), J.fresh, fun b hb => ?_, J.claimed, fun b hb => ?_,
      J.once⟩
    · rcases Trans.of_update (P := Pc.Early) hq with ⟨-, hq⟩ | ⟨-, hq⟩
      · exact hq.elim
      · exact absurd hq (hnone q)
    · have hnext : ((s.fill a { s.procs a with next := s.procList }).procs a).next = s.procList :=
        congrArg ScProcess.next (Function.update_self a _ s.procs)
      have hempty : (State.fill _ a proc).links.Holds ([] ++ s.registered) := F.chain
      exact hempty.insert hreg hnext
    · have hpre : s.preallocProc = some b := hb
      rw [I.empty p howes] at hpre
      cases hpre
    · rcases List.mem_cons.mp hb with rfl | hb
      · exact hstruct
      · exact I.listed b hb

theorem Inv.post (I : Inv pg s) (hp : s.pc p = .setupPost a) : Inv pg (post s p a) := by
  have howes : (s.pc p).Owes := by
    rw [hp]
    trivial
  obtain ⟨hstruct, hreg⟩ := I.held p a (by rw [hp]; rfl)
  have hclaim := I.fresh p a (by rw [hp]; rfl)
  have J : Inv pg (s.goto p .background) := I.leave id
  have hnone : ∀ q, ¬ (Function.update s.pc p .background q).Owes := by
    intro q hq
    rcases Trans.of_update (P := Pc.Owes) hq with ⟨-, hq⟩ | ⟨hqp, hq⟩
    · exact hq
    · exact I.only howes hqp hq
  unfold Prealloc.post
  rw [if_pos (I.empty p howes)]
  refine ⟨J.heap, J.live, J.owes, fun q hq => absurd hq (hnone q), J.early, J.chain, J.count,
    J.first, J.held, J.fresh, ?_, J.claimed, J.listed, J.once⟩
  rintro b ⟨⟩
  exact ⟨hstruct, hreg, hclaim⟩

theorem malloc_spec {fuel : Nat} {answer : Option Nat} {heap heap' : Alloc.Sys}
    {result : Option Addr} (hinv : ∃ ns, Alloc.Inv pg heap ns)
    (h : malloc pg n fuel answer heap = some (result, heap')) :
    (∃ ns, Alloc.Inv pg heap' ns) ∧ (∀ b ∈ heap.live, b ∈ heap'.live) ∧
      ∀ a, result = some a → (∃ b ∈ heap'.live, b.ptr = a) ∧ ∀ b ∈ heap.live, b.ptr ≠ a := by
  obtain ⟨ns, hinv⟩ := hinv
  unfold malloc at h
  split at h
  · rename_i hn
    have hn' : (n : Int) < 2 ^ 63 := by exact_mod_cast hn
    split at h
    · rename_i r p h' rs hr
      obtain ⟨rfl, rfl⟩ := Prod.mk.inj (Option.some.inj h)
      have hstep : Alloc.step pg heap (.malloc n fuel answer) =
          some ⟨h', rs, ⟨p - Alloc.sizeofHeader, n⟩ :: heap.live⟩ := by
        simp only [Alloc.step, if_pos hn', hr, Int.toNat_natCast]
      obtain ⟨⟨ns', hinv', -⟩, -⟩ := hinv.step hstep
      refine ⟨⟨ns', hinv'⟩, fun b hb => List.mem_cons_of_mem _ hb, ?_⟩
      rintro a ⟨⟩
      have hnodup : (Alloc.starts (⟨p - Alloc.sizeofHeader, n⟩ :: heap.live)).Nodup :=
        (List.nodup_append.mp hinv'.layout.nodup).2.1
      have hpos : 0 < p - Alloc.sizeofHeader :=
        (hinv'.chunk_live _ (List.mem_cons_self ..)).pos
      have hptr : p - Alloc.sizeofHeader + Alloc.sizeofHeader = p :=
        Nat.sub_add_cancel (Nat.le_of_lt (Nat.lt_of_sub_pos hpos))
      refine ⟨⟨_, List.mem_cons_self .., hptr⟩, fun b hb hbp => ?_⟩
      refine (List.nodup_cons.mp hnodup).1 ?_
      have hstart : p - Alloc.sizeofHeader = b.start := by
        rw [← hbp]
        exact Nat.add_sub_cancel ..
      change p - Alloc.sizeofHeader ∈ Alloc.starts heap.live
      rw [hstart]
      exact List.mem_map_of_mem hb
    · rename_i r h' rs hr
      obtain ⟨rfl, rfl⟩ := Prod.mk.inj (Option.some.inj h)
      have hstep : Alloc.step pg heap (.malloc n fuel answer) = some ⟨h', rs, heap.live⟩ := by
        simp only [Alloc.step, if_pos hn', hr]
      obtain ⟨⟨ns', hinv', -⟩, -⟩ := hinv.step hstep
      refine ⟨⟨ns', hinv'⟩, fun b hb => hb, ?_⟩
      rintro a ⟨⟩
    · cases h
  · cases h

theorem Inv.withHeap (I : Inv pg s) {heap : Alloc.Sys} (hheap : ∃ ns, Alloc.Inv pg heap ns)
    (hlive : ∀ a ∈ s.structs, ∃ b ∈ heap.live, b.ptr = a) : Inv pg { s with heap := heap } :=
  ⟨hheap, hlive, I.owes, I.empty, I.early, I.chain, I.count, I.first, I.held, I.fresh, I.posted,
    I.claimed, I.listed, I.once⟩

theorem Inv.struct (I : Inv pg s) (howes : (s.pc p).Owes) {proc : ScProcess} {pc : Pc}
    (hlive : ∃ b ∈ s.heap.live, b.ptr = a) (hnew : a ∉ s.structs) (hpc : pc.held = some a)
    (hearly : pc.Early → (s.pc p).Early) (hnext : proc.next = none) :
    Inv pg { (s.fill a proc).goto p pc with structs := a :: s.structs } := by
  have hreg : a ∉ s.registered := fun h => hnew (I.listed a h)
  have hfirst : ∀ q, s.pc q ≠ .initPost a := by
    intro q hq
    exact hnew (I.held q a (by rw [hq]; rfl)).1
  have F : Inv pg (s.fill a proc) := I.fill hreg hfirst
  have hold : ∀ q, (Function.update s.pc p pc q).Owes → q = p := by
    intro q hq
    rcases Trans.of_update (P := Pc.Owes) hq with ⟨hqp, -⟩ | ⟨-, hq⟩
    · exact hqp
    · exact I.owes q p hq howes
  refine ⟨F.heap, fun b hb => ?_, fun q u hq hu => (hold q hq).trans (hold u hu).symm,
    fun _ _ => I.empty p howes, fun q hq => ?_, F.chain, F.count, fun q b hq => ?_,
    fun q b hq => ?_, fun q b hq => ?_, fun b hb => ?_, fun b hb => ?_, fun b hb => ?_, F.once⟩
  · rcases List.mem_cons.mp hb with rfl | hb
    · exact hlive
    · exact I.live b hb
  · rcases Trans.of_update (P := Pc.Early) hq with ⟨rfl, hnew⟩ | ⟨-, hq⟩
    · exact I.early q (hearly hnew)
    · exact I.early q hq
  · rcases Trans.of_update (P := (· = Pc.initPost b)) hq with ⟨-, hq⟩ | ⟨-, hq⟩
    · rw [hq] at hpc
      obtain rfl := Option.some.inj hpc
      exact (congrArg ScProcess.next (Function.update_self ..)).trans hnext
    · exact F.first q b hq
  · rcases Trans.of_update (P := fun pc : Pc => pc.held = some b) hq with ⟨-, hq⟩ | ⟨hqp, hq⟩
    · obtain rfl := Option.some.inj (hpc.symm.trans hq)
      exact ⟨List.mem_cons_self .., hreg⟩
    · exact absurd (Pc.owes_of_held hq) (I.only howes hqp)
  · rcases Trans.of_update (P := fun pc : Pc => pc.fresh = some b) hq with ⟨-, hq⟩ | ⟨hqp, hq⟩
    · obtain rfl := Option.some.inj (hpc.symm.trans (Pc.held_of_fresh hq))
      exact fun h => hnew (I.claimed a h)
    · exact absurd (Pc.owes_of_held (Pc.held_of_fresh hq)) (I.only howes hqp)
  · have hpre : s.preallocProc = some b := hb
    rw [I.empty p howes] at hpre
    cases hpre
  · exact List.mem_cons_of_mem _ (I.claimed b hb)
  · exact List.mem_cons_of_mem _ (I.listed b hb)

theorem Inv.allocated (I : Inv pg s) {result : Option Addr} (hresult : ∀ a, result = some a →
      (∃ b ∈ s.heap.live, b.ptr = a) ∧ a ∉ s.structs)
    (h : allocated s p result = some t) : Inv pg t := by
  unfold Prealloc.allocated at h
  split at h
  · obtain rfl := Option.some.inj h
    exact I.leave id
  · rename_i a hp
    obtain ⟨hlive, hnew⟩ := hresult a rfl
    obtain rfl := Option.some.inj h
    refine I.struct ?_ hlive hnew rfl (fun _ => ?_) rfl
    · rw [hp]
      trivial
    · rw [hp]
      trivial
  · obtain rfl := Option.some.inj h
    exact I.leave id
  · rename_i a hp
    obtain ⟨hlive, hnew⟩ := hresult a rfl
    obtain rfl := Option.some.inj h
    refine I.struct ?_ hlive hnew rfl False.elim rfl
    rw [hp]
    trivial
  · cases h

theorem live_other {heap heap' : Alloc.Sys} {c : Alloc.Call} (h : Alloc.step pg heap c = some heap')
    (hfree : c ≠ .free a) (hlive : ∃ b ∈ heap.live, b.ptr = a) : ∃ b ∈ heap'.live, b.ptr = a := by
  obtain ⟨b, hb, hba⟩ := hlive
  cases c with
  | malloc size fuel answer =>
    simp only [Alloc.step] at h
    split at h
    · split at h
      · obtain rfl := Option.some.inj h
        exact ⟨b, List.mem_cons_of_mem _ hb, hba⟩
      · obtain rfl := Option.some.inj h
        exact ⟨b, hb, hba⟩
      · cases h
    · cases h
  | free q =>
    simp only [Alloc.step] at h
    split at h
    · split at h
      · obtain rfl := Option.some.inj h
        have hbq : ¬ (decide (b.ptr = q)) = true := by
          rw [decide_eq_true_eq, hba]
          rintro rfl
          exact hfree rfl
        exact ⟨b, (List.mem_eraseP_of_neg (p := fun d : Alloc.Block => decide (d.ptr = q)) hbq).mpr hb,
          hba⟩
      · cases h
    · cases h
  | write w v =>
    simp only [Alloc.step] at h
    split at h
    · obtain rfl := Option.some.inj h
      exact ⟨b, hb, hba⟩
    · cases h

theorem Inv.other (I : Inv pg s) {c : Alloc.Call} (hfree : ∀ a ∈ s.structs, c ≠ .free a)
    {heap : Alloc.Sys} (h : Alloc.step pg s.heap c = some heap) : Inv pg { s with heap := heap } := by
  obtain ⟨ns, hinv⟩ := I.heap
  obtain ⟨⟨ns', hinv', -⟩, -⟩ := hinv.step h
  exact I.withHeap ⟨ns', hinv'⟩ fun a ha => live_other h (hfree a ha) (I.live a ha)

theorem Inv.step (I : Inv pg s) {act : Action} (h : Prealloc.step pg n s act = some t) :
    Inv pg t := by
  cases act with
  | initMagic p =>
    simp only [Prealloc.step] at h
    split at h
    · rename_i hp
      obtain rfl := Option.some.inj h
      have hearly : (s.pc p).Early := by
        rw [hp]
        trivial
      have J : Inv pg (s.goto p .initRoot) := I.goto (fun _ => hearly.owes) (fun _ => hearly)
        (fun a h => by cases h) (fun a h => by cases h) (fun a h => by cases h)
      exact ⟨J.heap, J.live, J.owes, J.empty, J.early, J.chain, J.count, J.first, J.held, J.fresh,
        J.posted, J.claimed, J.listed, J.once⟩
    · cases h
  | initRoot p base =>
    simp only [Prealloc.step] at h
    split at h
    · rename_i hp
      obtain rfl := Option.some.inj h
      exact I.initRoot hp base
    · cases h
  | initPost p =>
    simp only [Prealloc.step] at h
    split at h
    · rename_i a hp
      obtain rfl := Option.some.inj h
      exact I.initPost hp
    · cases h
  | join p =>
    simp only [Prealloc.step] at h
    split at h
    · obtain rfl := Option.some.inj h
      refine I.leave ?_
      split <;> exact id
    · cases h
  | relocate p ok =>
    simp only [Prealloc.step] at h
    split at h
    · obtain rfl := Option.some.inj h
      refine I.leave ?_
      split <;> exact id
    · cases h
  | claim p =>
    simp only [Prealloc.step] at h
    split at h
    · obtain rfl := Option.some.inj h
      exact I.claim
    · cases h
  | map p ok =>
    cases hp : s.pc p with
    | joinMap a => exact I.map hp ok h
    | _ =>
      simp only [Prealloc.step, hp] at h
      cases h
  | register p pending =>
    simp only [Prealloc.step] at h
    split at h
    · rename_i a hp
      obtain rfl := Option.some.inj h
      exact I.register hp pending
    · cases h
  | signals p ok =>
    simp only [Prealloc.step] at h
    split at h
    · rename_i hp
      obtain rfl := Option.some.inj h
      cases ok with
      | true =>
        refine I.goto (fun _ => ?_) False.elim (fun a h => by cases h) (fun a h => by cases h)
          (fun a h => by cases h)
        rw [hp]
        trivial
      | false => exact I.leave id
    · cases h
  | malloc p fuel answer =>
    simp only [Prealloc.step, Option.bind_eq_bind, Option.bind_eq_some_iff] at h
    obtain ⟨⟨result, heap⟩, hm, h⟩ := h
    obtain ⟨hheap, hkeep, hnew⟩ := malloc_spec I.heap hm
    have J : Inv pg { s with heap := heap } := by
      refine I.withHeap hheap fun a ha => ?_
      obtain ⟨b, hb, hba⟩ := I.live a ha
      exact ⟨b, hkeep b hb, hba⟩
    refine J.allocated (fun a ha => ⟨(hnew a ha).1, fun hstruct => ?_⟩) h
    obtain ⟨b, hb, hba⟩ := I.live a hstruct
    exact (hnew a ha).2 b hb hba
  | post p =>
    simp only [Prealloc.step] at h
    split at h
    · rename_i a hp
      obtain rfl := Option.some.inj h
      exact I.post hp
    · cases h
  | background p ok =>
    simp only [Prealloc.step] at h
    split at h
    · obtain rfl := Option.some.inj h
      refine I.leave ?_
      split <;> exact id
    · cases h
  | die p =>
    obtain rfl := Option.some.inj h
    exact I.leave id
  | other c =>
    cases c with
    | free a =>
      simp only [Prealloc.step] at h
      split at h
      · cases h
      · rename_i hstruct
        obtain ⟨heap, hstep, rfl⟩ := Option.map_eq_some_iff.mp h
        refine I.other (fun b hb hba => hstruct ?_) hstep
        rw [Alloc.Call.free.inj hba]
        exact hb
    | malloc size fuel answer =>
      obtain ⟨heap, hstep, rfl⟩ := Option.map_eq_some_iff.mp h
      exact I.other (fun b _ hb => by cases hb) hstep
    | write w v =>
      obtain ⟨heap, hstep, rfl⟩ := Option.map_eq_some_iff.mp h
      exact I.other (fun b _ hb => by cases hb) hstep

end Steps

/-- A struct is claimed once and is not on the list while it is posted; the list has every struct
that was put on it, and the count every time it was raised; the slot is empty for the next one. -/
structure HandedOff (pg : PageSize) (n : Nat) (s : State) : Prop where
  claimed : (s.claims.map Prod.fst).Nodup
  listed : s.links.Holds s.registered
  posted : ∀ a, s.preallocProc = some a → a ∉ s.registered
  count : s.procCount = s.raises % 2 ^ 32
  assigned : ∀ p a, s.pc p = .initPost a → s.procList = none ∧ s.procCount = 0
  slot : ∀ p t, step pg n s (.post p) = some t → s.preallocProc = none ∧ t.pc p = .background

theorem prealloc_handed_off (pg : PageSize) (n : Nat) {s : State} (h : Reachable pg n s) :
    HandedOff pg n s := by
  have I : Inv pg s :=
    Trans.Reach.inv (I := Inv pg) (fun _ => .init) (fun _ _ _ I hst => I.step hst) h
  refine ⟨I.once, I.chain, fun a ha => (I.posted a ha).2.1, I.count, fun p a hp => ?_,
    fun p t ht => ?_⟩
  · have hearly : (s.pc p).Early := by
      rw [hp]
      trivial
    obtain ⟨hreg, hraises⟩ := I.early p hearly
    have hchain := I.chain
    rw [hreg] at hchain
    have hcount := I.count
    rw [hraises] at hcount
    exact ⟨hchain, hcount⟩
  · simp only [step] at ht
    split at ht
    · rename_i a hp
      have hempty : s.preallocProc = none := I.empty p (by rw [hp]; trivial)
      obtain rfl := Option.some.inj ht
      refine ⟨hempty, ?_⟩
      unfold post
      rw [if_pos hempty]
      exact Function.update_self ..
    · cases ht

def emptyFile : State where
  magic := false
  rootDest := 0
  procCount := 0
  procList := none
  preallocProc := none
  procs := fun _ => ⟨none, .prealloc, 0⟩
  heap := Alloc.emptySys
  pc := fun p => if p = 0 then .initMagic else .idle
  structs := []
  claims := []
  registered := []
  raises := 0

theorem emptyFile_init : emptyFile.init :=
  ⟨rfl, rfl, rfl, rfl, rfl, ⟨rfl, rfl, rfl, rfl⟩, ⟨0, rfl, fun _ hq => if_neg hq⟩, rfl, rfl, rfl, rfl⟩

def twoJoiners : List Action :=
  [.initMagic 0, .join 1, .initRoot 0 4096, .relocate 1 true, .join 2, .relocate 2 true,
    .malloc 0 1 (some 8192), .initPost 0, .malloc 0 4 none, .post 0, .claim 2, .claim 1, .map 2 true,
    .register 2 false, .signals 2 true, .malloc 2 4 none, .post 2]

theorem prealloc_handed_off_two_joiners : ∃ s, Reachable page4096 40 s ∧
    s.registered.length = 2 ∧ s.claims.length = 1 ∧ HandedOff page4096 40 s := by
  have hrun : (Trans.exec (step page4096 40) twoJoiners emptyFile).map
      (fun s => (s.registered.length, s.claims.length)) = some (2, 1) := by
    decide +kernel
  obtain ⟨s, hs, hlen⟩ := Option.map_eq_some_iff.mp hrun
  have hr : Reachable page4096 40 s := .of_exec (.init emptyFile_init) hs
  obtain ⟨hregistered, hclaims⟩ := Prod.mk.inj hlen
  exact ⟨s, hr, hregistered, hclaims, prealloc_handed_off page4096 40 hr⟩

end Subcontexts.Prealloc
