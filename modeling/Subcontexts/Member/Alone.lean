import Subcontexts.Lib.Trans
import Subcontexts.Member.Guard

/-! A thread that is alone in the handler goes through `sc_signal_handler_SEGV` step by step, and
ends where the handler ends that is run in one go. -/

namespace Subcontexts.Member
open Region Holding

def Process.threads (p : Process) : Threads where
  prevVaddr := p.prevVaddr
  space := p.world.space
  busy _ := false
  held _ := []
  place _ := .idle

namespace Threads
variable {pg : PageSize} {s : Sc} {p : Process} {l : List Addr} {i : Tid} {f : Fault}
  {t u v : Threads}

def alone (i : Tid) (prevVaddr : Nat) (space : Space) (place : Place) (held : List (Lock × Mode)) :
    Threads where
  prevVaddr := prevVaddr
  space := space
  busy _ := false
  held := Function.update (fun _ => []) i held
  place := Function.update (fun _ => .idle) i place

def Leads (pg : PageSize) (s : Sc) (i : Tid) (t u : Threads) : Prop :=
  ∃ k, Trans.exec (Threads.step pg s) (List.replicate k (.run i)) t = some u

theorem Leads.refl : Leads pg s i t t := ⟨0, rfl⟩

theorem Leads.step (h : t.run pg s i = some u) (hrest : Leads pg s i u v) : Leads pg s i t v := by
  obtain ⟨k, hk⟩ := hrest
  refine ⟨k + 1, ?_⟩
  rw [List.replicate_succ, Trans.exec_cons]
  have hstep : t.step pg s (.run i) = some u := h
  rw [hstep]
  exact hk

section Steps
variable {x : Nat} {space : Space} {place new : Place} {held : List (Lock × Mode)}
  {prevLock : Lock} {curReg : Addr} {cur : Option Addr} {m : Mode} {z : Lock}

theorem alone_place : (alone i x space place held).place i = place := by
  show Function.update (fun _ => Place.idle) i place i = place
  rw [Function.update_self]

theorem alone_goto : (alone i x space place held).goto i new = alone i x space new held := by
  unfold alone goto
  rw [Function.update_idem]

theorem alone_acquire : (alone i x space place held).acquire i m z new =
    some (alone i x space new ((z, m) :: held)) := by
  simp only [acquire, goto, alone, Bool.false_eq_true, if_false, Function.update_self,
    Function.update_idem]

theorem alone_release : (alone i x space place held).release i m z new =
    alone i x space new (held.erase (z, m)) := by
  simp only [release, goto, alone, Function.update_self, Function.update_idem]

theorem alone_idle (p : Process) : alone i p.prevVaddr p.world.space .idle [] = p.threads := by
  unfold alone Process.threads
  rw [Function.update_eq_self, Function.update_eq_self]

theorem alone_check (hprev : f.vaddr ≠ x) :
    (alone i x space (.check f) held).run pg s i = some (alone i x space (.write f) held) := by
  unfold run
  rw [alone_place]
  have hmiss : ¬ f.vaddr = (alone i x space (.check f) held).prevVaddr := hprev
  dsimp only
  rw [if_neg hmiss, alone_goto]

theorem alone_write :
    (alone i x space (.write f) held).run pg s i =
      some (alone i f.vaddr space (.lockList f) held) := by
  unfold run
  rw [alone_place]
  dsimp only
  rw [alone_goto]
  rfl

theorem alone_lockList :
    (alone i x space (.lockList f) []).run pg s i =
      some (alone i x space (.unlockList f) [(.localList, .shared)]) := by
  unfold run
  rw [alone_place]
  exact alone_acquire

theorem alone_unlockList :
    (alone i x space (.unlockList f) [(.localList, .shared)]).run pg s i =
      some (alone i x space (.lockRoot f) []) := by
  unfold run
  rw [alone_place]
  dsimp only
  rw [alone_release, List.erase_cons_head]

theorem alone_lockRoot :
    (alone i x space (.lockRoot f) []).run pg s i =
      some (alone i x space (walkOn f .root s.activeRegions) [(.root, .sharedRecursive)]) := by
  unfold run
  rw [alone_place]
  exact alone_acquire

theorem alone_lockRegion :
    (alone i x space (.lockRegion f prevLock curReg) held).run pg s i =
      some (alone i x space (.unlockPrev f prevLock curReg)
        ((.region curReg, .sharedRecursive) :: held)) := by
  unfold run
  rw [alone_place]
  exact alone_acquire

theorem alone_unlockPrev :
    (alone i x space (.unlockPrev f prevLock curReg)
      [(.region curReg, .sharedRecursive), (prevLock, .sharedRecursive)]).run pg s i =
      some (alone i x space (look s f curReg) [(.region curReg, .sharedRecursive)]) := by
  unfold run
  rw [alone_place]
  dsimp only
  rw [alone_release, erase_handed]

theorem alone_mmap (hrange : fileRange pg true (s.extent curReg).vaddr (s.extent curReg).len
      (s.extent curReg).tmpfileOffset) :
    (alone i x space (.mmap f curReg) held).run pg s i =
      some (alone i x ((s.extent curReg).vma :: space) (.unlockLast f (.region curReg) true) held)
      := by
  unfold run
  rw [alone_place]
  dsimp only
  rw [if_neg (not_not_intro hrange), alone_goto]
  rfl

theorem alone_mmap_denied (hrange : ¬ fileRange pg true (s.extent curReg).vaddr
      (s.extent curReg).len (s.extent curReg).tmpfileOffset) :
    (alone i x space (.mmap f curReg) held).run pg s i =
      some (alone i x space (.dead (.exit 3)) held) := by
  unfold run
  rw [alone_place]
  dsimp only
  rw [if_pos hrange, alone_goto]

theorem alone_unlockLast {found : Bool} :
    (alone i x space (.unlockLast f prevLock found) [(prevLock, .sharedRecursive)]).run pg s i =
      some (alone i x space (if found then .reset f else .dead (.exit (-1))) []) := by
  unfold run
  rw [alone_place]
  dsimp only
  rw [alone_release, List.erase_cons_head]

theorem alone_reset :
    (alone i x space (.reset f) held).run pg s i = some (alone i 0 space .idle held) := by
  unfold run
  rw [alone_place]
  dsimp only
  rw [alone_goto]
  rfl

end Steps

section Walk
variable {x : Nat} {space : Space} {prevLock : Lock} {cur : Option Addr}

inductive AloneEnd (pg : PageSize) (p : Process) (l : List Addr) (f : Fault) (i : Tid)
    (u : Threads) : Prop where
  | served (a) (ha : a ∈ l) (hat : p.At f a) (hgrants : p.Grants pg true f a)
    (hu : u = ({ p.serve a with prevVaddr := 0 } : Process).threads) : AloneEnd pg p l f i u
  | died (why) (hplace : u.place i = .dead why)
    (hdenied : ∀ a ∈ l, p.At f a → ¬ p.Grants pg true f a) : AloneEnd pg p l f i u

theorem AloneEnd.cons {a : Addr} (h : AloneEnd pg p l f i u) (hmiss : ¬ p.At f a) :
    AloneEnd pg p (a :: l) f i u := by
  cases h with
  | served b hb hat hgrants hu => exact .served b (List.mem_cons_of_mem _ hb) hat hgrants hu
  | died why hplace hdenied =>
    exact .died why hplace (List.forall_mem_cons.mpr ⟨fun hat => absurd hat hmiss, hdenied⟩)

theorem alone_look {a : Addr} (ha : a ∈ l) (hat : p.At f a)
    (hunique : ∀ b ∈ l, p.At f b → b = a) :
    ∃ u, Leads pg p.world.sc i
      (alone i x p.world.space (look p.world.sc f a) [(.region a, .sharedRecursive)]) u ∧
      AloneEnd pg p l f i u := by
  have hdied : ∀ why (u : Threads), u.place i = .dead why → ¬ p.Grants pg true f a →
      AloneEnd pg p l f i u := by
    intro why u hplace hdenied
    apply AloneEnd.died why hplace
    intro b hb hbt
    obtain rfl := hunique b hb hbt
    exact hdenied
  unfold look
  have hholds : holds (p.world.sc.extent a) f.vaddr := hat
  rw [if_pos hholds]
  by_cases hrefused : Refused (p.world.sc.extent a) f
  · rw [if_pos hrefused]
    exact ⟨_, .refl, hdied _ _ alone_place fun hgrants => hgrants.1 hrefused⟩
  rw [if_neg hrefused]
  by_cases hrange : fileRange pg true (p.world.sc.extent a).vaddr (p.world.sc.extent a).len
      (p.world.sc.extent a).tmpfileOffset
  · refine ⟨_, .step (alone_mmap hrange) (.step alone_unlockLast (.step alone_reset .refl)),
      .served a ha hat ⟨hrefused, hrange⟩ ?_⟩
    exact alone_idle { p.serve a with prevVaddr := 0 }
  · exact ⟨_, .step (alone_mmap_denied hrange) .refl,
      hdied _ _ alone_place fun hgrants => hrange hgrants.2⟩

theorem alone_walk (hseg : Seg (fun a => (p.world.sc.mem a).next) cur l none)
    (hunique : ∀ a ∈ l, ∀ b ∈ l, p.At f a → p.At f b → a = b) :
    ∃ u, Leads pg p.world.sc i
      (alone i x p.world.space (walkOn f prevLock cur) [(prevLock, .sharedRecursive)]) u ∧
      AloneEnd pg p l f i u := by
  induction l generalizing cur prevLock with
  | nil =>
    obtain rfl := hseg
    exact ⟨_, .step alone_unlockLast .refl, .died _ alone_place nofun⟩
  | cons a rest ih =>
    obtain ⟨rfl, hrest⟩ := hseg
    by_cases hat : p.At f a
    · obtain ⟨u, hleads, hend⟩ := @alone_look pg p (a :: rest) i f x a (List.mem_cons_self ..) hat
        fun b hb hbt => hunique b hb a (List.mem_cons_self ..) hbt hat
      exact ⟨u, .step alone_lockRegion (.step alone_unlockPrev hleads), hend⟩
    · obtain ⟨u, hleads, hend⟩ := @ih (.region a) _ hrest fun b hb c hc =>
        hunique b (List.mem_cons_of_mem _ hb) c (List.mem_cons_of_mem _ hc)
      refine ⟨u, .step alone_lockRegion (.step alone_unlockPrev ?_), hend.cons hat⟩
      unfold look
      have hholds : ¬ holds (p.world.sc.extent a) f.vaddr := hat
      rw [if_neg hholds]
      exact hleads

theorem alone_handler (R : Regions pg p.world.sc l) (hlooks : f.Plausible)
    (hprev : f.vaddr ≠ p.prevVaddr) :
    ∃ k u, Trans.exec (Threads.step pg p.world.sc) (.fault i f :: List.replicate k (.run i))
        p.threads = some u ∧ AloneEnd pg p l f i u := by
  obtain ⟨u, hwalk, hend⟩ := @alone_walk pg p l i f f.vaddr .root p.world.sc.activeRegions R.active
    fun a ha b hb => R.at_unique ha hb
  have hleads : Leads pg p.world.sc i (alone i p.prevVaddr p.world.space (.check f) []) u :=
    .step (alone_check hprev) <| .step alone_write <| .step alone_lockList <|
      .step alone_unlockList <| .step alone_lockRoot hwalk
  obtain ⟨k, hk⟩ := hleads
  refine ⟨k, u, ?_, hend⟩
  rw [Trans.exec_cons]
  have hfault : p.threads.step pg p.world.sc (.fault i f) =
      some (alone i p.prevVaddr p.world.space (.check f) []) := by
    unfold Threads.step
    have hidle : p.threads.place i = .idle := rfl
    dsimp only
    rw [if_pos hidle, if_pos hlooks, ← alone_idle p, alone_goto]
  rw [hfault]
  exact hk

/-- Alone, a thread ends as `sc_signal_handler_SEGV` does: it returns with the same region mapped
and the same guard, or the process ends. -/
theorem alone_simulates {x : ScLocal} {fuel : Nat} {yields : List (Nat × Nat)}
    {r : Except Halt Unit × Thread Process Lock} (R : Regions pg p.world.sc l)
    (hlocal : p.localList = [x]) (hlooks : f.Plausible) (hprev : f.vaddr ≠ p.prevVaddr)
    (hfuel : l.length < fuel)
    (hrun : (scSignalHandlerSegv pg true yields f fuel).exec ⟨p, []⟩ = r) :
    ∃ k u, Trans.exec (Threads.step pg p.world.sc) (.fault i f :: List.replicate k (.run i))
        p.threads = some u ∧
      (r.1 = .ok () ∧ u = r.2.state.threads ∨
        (∃ e, r.1 = .error e) ∧ ∃ why, u.place i = .dead why) := by
  obtain ⟨k, u, hexec, hend⟩ := @alone_handler pg p l i f R hlooks hprev
  refine ⟨k, u, hexec, ?_⟩
  have hhandler := @scSignalHandlerSegv_ends pg true yields f fuel p x l hlocal hlooks hprev
    R.active
  rw [hrun] at hhandler
  cases hend with
  | served a ha hat hgrants hu =>
    cases hhandler with
    | fuel hshort => exact absurd hfuel (Nat.not_lt_of_le hshort)
    | outside hmiss hended => exact absurd hat (hmiss a ha)
    | died b hb hbt hdenied hended =>
      obtain rfl := R.at_unique hb ha hbt hat
      exact absurd hgrants hdenied
    | served b hb hbt hgrants' =>
      obtain rfl := R.at_unique hb ha hbt hat
      exact .inl ⟨rfl, hu⟩
  | died why hplace hdenied =>
    cases hhandler with
    | fuel hshort => exact absurd hfuel (Nat.not_lt_of_le hshort)
    | outside hmiss hended => exact .inr ⟨⟨_, rfl⟩, why, hplace⟩
    | died b hb hbt hdenied' hended => exact .inr ⟨⟨_, rfl⟩, why, hplace⟩
    | served b hb hbt hgrants => exact absurd hgrants (hdenied b hb hbt)

end Walk
end Threads
end Subcontexts.Member
