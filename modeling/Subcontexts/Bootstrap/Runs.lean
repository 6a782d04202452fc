import Subcontexts.Bootstrap.Startup

/-! Which processes come by the registry, over whole runs. -/

namespace Subcontexts.Bootstrap
open Registry (Pid findEntry names)

def Run (img : Image) : State → Prop :=
  Trans.Reach (State.init img) (Trans.Guarded Genuine (Trans.ofFun (step img)))

def Onward (img : Image) (s : State) : State → Prop :=
  Trans.Reach (· = s) (Trans.Guarded Genuine (Trans.ofFun (step img)))

/-- Every bootstrap returns `NULL` or `funcs`, no process joins the registry twice, the assertions of
`subcontext_main` hold, and the registry's own names lead to its own functions. -/
structure Booted (img : Image) (s : State) : Prop where
  returned : ∀ p root, (p, root) ∈ s.returned → root = 0 ∨ root = img.funcs
  once : ∀ p, (s.client p).locals.count .registry ≤ 1
  asserts : s.main ≠ .aborted
  found : ∀ (f : Func) sym, .find f.name sym ∈ s.registry.returns → sym = img.address f
  posted : ∀ (f : Func) sym, .post f.name sym 0 ∈ s.registry.returns → sym = img.address f

/-- The process has joined the registry and found no `user_root`, and another subcontext has come
before the registry in its list since. -/
def Stuck (s : State) (p : Pid) : Prop :=
  (s.client p).loc = .idle ∧ (s.client p).retval = 0 ∧ .registry ∈ (s.client p).locals ∧
    (s.client p).locals.head? ≠ some .registry

theorem Inv.booted {img : Image} {s : State} (I : Inv img s) : Booted img s :=
  ⟨I.clients.returned, I.clients.once, I.posts.asserts, I.posts.served.found, I.posts.served.posted⟩

theorem inv_of_run {img : Image} {s : State} (h : Run img s) : Inv img s :=
  Trans.Reach.inv (I := Inv img) (fun _ => Inv.init) (fun _ _ _ I hst => I.step hst.1 hst.2) h

section Steps
variable {img : Image} {s t : State} {a : Action} {p q : Pid}

@[simp] theorem return_client (r : Option Nat) : (s.return p r).client = s.client := by
  cases r <;> rfl

@[simp] theorem return_name (r : Option Nat) :
    (s.return p r).descriptiveName = s.descriptiveName := by
  cases r <;> rfl

inductive Moved (img : Image) (s t : State) (p : Pid) : Prop where
  | stays (hclient : t.client p = s.client p) (hreturned : t.returned = s.returned)
  | elsewhere (q : Pid) (root : Nat) (hq : q ≠ p) (hclient : t.client p = s.client p)
      (hreturned : t.returned = (q, root) :: s.returned)
  | enters (opened joined : Bool) (hidle : (s.client p).loc = .idle)
      (hclient : t.client p = (s.enter opened joined (s.client p)).1)
      (hreturned : t.returned = (s.return p (s.enter opened joined (s.client p)).2).returned)
  | asserts (hloc : (s.client p).loc = .joined)
      (hclient : t.client p = { s.client p with
        loc := if s.descriptiveName = some registryName then .checked else .dead })
      (hreturned : t.returned = s.returned)
  | reads (hloc : (s.client p).loc = .checked)
      (hclient : t.client p = { s.client p with retval := s.userRoot, loc := .idle })
      (hreturned : t.returned = (p, s.userRoot) :: s.returned)
  | joins (name : Option String) (root : Nat) (hidle : (s.client p).loc = .idle)
      (hclient : t.client p = { s.client p with locals := .other name root :: (s.client p).locals })
      (hreturned : t.returned = s.returned)

theorem moved_of_call {a : Registry.Action String} {main : Main} (h : s.call a main = some t) :
    Moved img s t p := by
  obtain ⟨r, -, rfl⟩ := Option.map_eq_some_iff.mp h
  exact .stays rfl rfl

theorem moved_of_enter {opened joined : Bool} {main : Main} (hidle : (s.client q).loc = .idle)
    (h : { (s.set q (s.enter opened joined (s.client q)).1).return q
      (s.enter opened joined (s.client q)).2 with main := main } = t) : Moved img s t p := by
  subst h
  by_cases hq : q = p
  · subst hq
    refine .enters opened joined hidle ?_ ?_
    · simp
    · cases (s.enter opened joined (s.client q)).2 <;> rfl
  · have hclient : (s.set q (s.enter opened joined (s.client q)).1).client p = s.client p :=
      s.set_client_of_ne _ (Ne.symm hq)
    cases (s.enter opened joined (s.client q)).2 with
    | none => exact .stays hclient rfl
    | some root => exact .elsewhere q root hq hclient rfl

theorem moved_of_main {opened joined : Bool} (I : Inv img s)
    (h : subcontextMain img opened joined s = some t) : Moved img s t p := by
  unfold subcontextMain at h
  split at h
  · exact moved_of_call h
  · exact moved_of_call h
  · exact moved_of_call h
  · exact moved_of_call h
  · obtain rfl := Option.some.inj h
    exact .stays rfl rfl
  · obtain rfl := Option.some.inj h
    exact .stays rfl rfl
  · exact moved_of_enter I.clients.server.2 (Option.some.inj h)
  · exact moved_of_call h
  · exact moved_of_call h
  · obtain rfl := Option.some.inj h
    exact .stays rfl rfl
  · cases h

theorem moved_of_set {c : Client} {r : Option Nat} (hq : q ≠ p)
    (h : (s.set q c).return q r = t) : Moved img s t p := by
  subst h
  have hclient : (s.set q c).client p = s.client p := s.set_client_of_ne _ (Ne.symm hq)
  cases r with
  | none => exact .stays hclient rfl
  | some root => exact .elsewhere q root hq hclient rfl

theorem moved_of_step (I : Inv img s) (h : step img s a = some t) : Moved img s t p := by
  cases a with
  | main opened joined => exact moved_of_main I h
  | bootstrap q opened joined =>
    simp only [step] at h
    split at h
    · rename_i hq
      obtain rfl := Option.some.inj h
      refine @moved_of_enter img s _ p q opened joined s.main hq.2.1 ?_
      cases (s.enter opened joined (s.client q)).2 <;> rfl
    · cases h
  | assertName q =>
    simp only [step] at h
    split at h
    · rename_i hloc
      obtain rfl := Option.some.inj h
      by_cases hq : q = p
      · subst hq
        exact .asserts hloc (s.set_client_self ..) rfl
      · exact moved_of_set (r := none) hq rfl
    · cases h
  | readRoot q =>
    simp only [step] at h
    split at h
    · rename_i hloc
      obtain rfl := Option.some.inj h
      by_cases hq : q = p
      · subst hq
        exact .reads hloc (s.set_client_self ..) rfl
      · exact moved_of_set hq rfl
    · cases h
  | join q name root =>
    simp only [step] at h
    split at h
    · rename_i hfree
      obtain rfl := Option.some.inj h
      by_cases hq : q = p
      · subst hq
        exact .joins name root hfree.2.1 (s.set_client_self ..) rfl
      · exact moved_of_set (r := none) hq rfl
    · cases h
  | registry a =>
    simp only [step] at h
    split at h
    · exact moved_of_call h
    · cases h

theorem Inv.given (I : Inv img s) (h : Bootstrap.step img s a = some t)
    (hgiven : (s.client p).retval = img.funcs) :
    (t.client p).retval = img.funcs ∧ ∃ new, t.returned = new ++ s.returned ∧
      ∀ root, (p, root) ∈ new → root = img.funcs := by
  have hne : (s.client p).retval ≠ 0 := fun h0 => img.funcs_ne_zero (hgiven.symm.trans h0)
  have hinside : (s.client p).loc = .idle := by
    by_contra hloc
    exact hne (I.clients.inside p hloc).2
  cases moved_of_step I h with
  | stays hclient hreturned =>
    rw [hclient]
    exact ⟨hgiven, [], hreturned, fun root h => absurd h List.not_mem_nil⟩
  | elsewhere q root hq hclient hreturned =>
    rw [hclient]
    refine ⟨hgiven, [(q, root)], hreturned, fun root' h => ?_⟩
    obtain ⟨rfl, -⟩ := Prod.mk.inj (List.mem_singleton.mp h)
    exact absurd rfl hq
  | enters opened joined _ hclient hreturned =>
    have henter : s.enter opened joined (s.client p) = (s.client p, some img.funcs) := by
      rw [State.enter, if_pos hne, hgiven]
    rw [henter] at hclient hreturned
    rw [hclient]
    refine ⟨hgiven, [(p, img.funcs)], hreturned, fun root h => ?_⟩
    exact (Prod.mk.inj (List.mem_singleton.mp h)).2
  | asserts hloc _ _ =>
    rw [hinside] at hloc
    cases hloc
  | reads hloc _ _ =>
    rw [hinside] at hloc
    cases hloc
  | joins name root _ hclient hreturned =>
    rw [hclient]
    exact ⟨hgiven, [], hreturned, fun root h => absurd h List.not_mem_nil⟩

theorem Inv.stuck (I : Inv img s) (h : Bootstrap.step img s a = some t) (hstuck : Stuck s p) : Stuck t p := by
  obtain ⟨hidle, hretval, hmem, hhead⟩ := hstuck
  have hsame : t.client p = s.client p → Stuck t p := by
    intro hclient
    rw [Stuck, hclient]
    exact ⟨hidle, hretval, hmem, hhead⟩
  cases moved_of_step I h with
  | stays hclient _ => exact hsame hclient
  | elsewhere q root _ hclient _ => exact hsame hclient
  | enters opened joined _ hclient _ =>
    -- `sc_join` refuses the registry, which the process has joined already
    have hname : ¬ (s.client p).locals.head?.bind s.nameOf = some registryName :=
      fun hname => hhead (I.clients.head hname)
    refine hsame (hclient.trans ?_)
    rw [State.enter, if_neg (not_not.mpr hretval), if_neg hname]
    split
    · rfl
    · rw [if_pos (.inr hmem)]
  | asserts hloc _ _ =>
    rw [hidle] at hloc
    cases hloc
  | reads hloc _ _ =>
    rw [hidle] at hloc
    cases hloc
  | joins name root _ hclient _ =>
    rw [Stuck, hclient]
    exact ⟨hidle, hretval, List.mem_cons_of_mem _ hmem, fun h => by cases h⟩

theorem named_of_call {a : Registry.Action String} {main : Main} (h : s.call a main = some t) :
    t.descriptiveName = s.descriptiveName := by
  obtain ⟨r, -, rfl⟩ := Option.map_eq_some_iff.mp h
  rfl

theorem named_of_main {opened joined : Bool} (h : subcontextMain img opened joined s = some t)
    (hnamed : s.descriptiveName = some registryName) : t.descriptiveName = some registryName := by
  unfold subcontextMain at h
  split at h
  · exact (named_of_call h).trans hnamed
  · exact (named_of_call h).trans hnamed
  · exact (named_of_call h).trans hnamed
  · exact (named_of_call h).trans hnamed
  · obtain rfl := Option.some.inj h
    rfl
  · obtain rfl := Option.some.inj h
    exact hnamed
  · obtain rfl := Option.some.inj h
    exact (return_name _).trans hnamed
  · exact (named_of_call h).trans hnamed
  · exact (named_of_call h).trans hnamed
  · obtain rfl := Option.some.inj h
    exact hnamed
  · cases h

theorem named_of_step (h : step img s a = some t)
    (hnamed : s.descriptiveName = some registryName) : t.descriptiveName = some registryName := by
  cases a with
  | main opened joined => exact named_of_main h hnamed
  | registry a =>
    simp only [step] at h
    split at h
    · exact (named_of_call h).trans hnamed
    · cases h
  | _ =>
    simp only [step] at h
    split at h
    · obtain rfl := Option.some.inj h
      simpa [State.set] using hnamed
    · cases h

theorem Inv.alive (I : Inv img s) (h : Bootstrap.step img s a = some t)
    (hnamed : s.descriptiveName = some registryName) (hdead : (t.client p).loc = .dead) :
    (s.client p).loc = .dead := by
  cases moved_of_step I h with
  | stays hclient _ => exact hclient ▸ hdead
  | elsewhere q root _ hclient _ => exact hclient ▸ hdead
  | enters opened joined hidle hclient _ =>
    have halive : (s.enter opened joined (s.client p)).1.loc ≠ .dead := by
      unfold State.enter
      split
      · simp [hidle]
      · split
        · simp [hidle]
        · split
          · simp [hidle]
          · split
            · simp [hidle]
            · simp
    exact absurd (hclient ▸ hdead) halive
  | asserts _ hclient _ =>
    rw [hclient, if_pos hnamed] at hdead
    cases hdead
  | reads _ hclient _ =>
    rw [hclient] at hdead
    cases hdead
  | joins name root _ hclient _ =>
    rw [hclient] at hdead
    exact hdead

theorem Inv.onward (I : Inv img s) (h : Onward img s t) : Inv img t := by
  induction h with
  | init h => exact h ▸ I
  | step _ hst ih => exact ih.step hst.1 hst.2

/-- What a bootstrap comes to once `user_root` is set. -/
theorem Inv.obtains (I : Inv img s) (hroot : s.userRoot = img.funcs) (hp : p ≠ img.server)
    (hfree : s.Free p) (hretval : (s.client p).retval = 0)
    (h : .registry ∉ (s.client p).locals ∨ (s.client p).locals.head? = some .registry) :
    ∃ t, Onward img s t ∧ (t.client p).retval = img.funcs := by
  have C := I.clients
  have hnamed : s.descriptiveName = some registryName := by
    refine C.named (Main.named_of_rooted fun hunrooted => ?_)
    exact img.funcs_ne_zero (hroot.symm.trans (C.unrooted hunrooted))
  have hstay : Onward img s s := .init rfl
  have henter : Bootstrap.step img s (.bootstrap p true true) =
      some ((s.set p (s.enter true true (s.client p)).1).return p
        (s.enter true true (s.client p)).2) := if_pos ⟨hp, hfree⟩
  rcases h with hnew | hhead
  · have hhead : ¬ (s.client p).locals.head?.bind s.nameOf = some registryName :=
      fun hname => hnew (List.mem_of_head? (C.head hname))
    rw [State.enter, if_neg (not_not.mpr hretval), if_neg hhead, if_neg (by simp),
      if_neg (by simp [hnew])] at henter
    generalize ht : s.set p { s.client p with
      locals := Local.registry :: (s.client p).locals, loc := .joined } = t at henter
    have h1 : Onward img s t := hstay.step (l := Action.bootstrap p true true) ⟨trivial, henter⟩
    have hclient : (t.client p).loc = .joined := by simp [← ht]
    have hname : t.descriptiveName = some registryName := by
      rw [← ht]
      exact hnamed
    have hroot' : t.userRoot = img.funcs := by
      rw [← ht]
      exact hroot
    have h2 : Onward img s (t.set p { t.client p with loc := .checked }) := by
      refine h1.step (l := Action.assertName p) ⟨trivial, ?_⟩
      show Bootstrap.step img t (.assertName p) = _
      simp only [Bootstrap.step, if_pos hclient, if_pos hname]
    have hchecked : ((t.set p { t.client p with loc := .checked }).client p).loc = .checked := by
      simp
    refine ⟨_, h2.step (l := Action.readRoot p) ⟨trivial, if_pos hchecked⟩, ?_⟩
    simpa [State.set] using hroot'
  · have hname : (s.client p).locals.head?.bind s.nameOf = some registryName := by
      rw [hhead]
      exact hnamed
    refine ⟨_, hstay.step (l := Action.bootstrap p true true) ⟨trivial, henter⟩, ?_⟩
    rw [State.enter, if_neg (not_not.mpr hretval), if_pos hname, hhead]
    simpa [State.rootOf] using hroot

end Steps

variable {img : Image} {s : State}

/-- In every run of the registry's start, with any number of processes that bootstrap, join other
subcontexts and post and find meanwhile: a bootstrap returns `NULL` or `funcs`, a process that was
given `funcs` once is given it at every call and joins nothing more, nobody faults behind the write
of the name, and with `user_root` set a process can come by the registry unless it has joined the
registry too early and another subcontext since. -/
theorem registry_bootstrap (h : Run img s) :
    Booted img s ∧
    (∀ p t, (s.client p).retval = img.funcs → Onward img s t →
      (t.client p).retval = img.funcs ∧ ∃ new, t.returned = new ++ s.returned ∧
        ∀ root, (p, root) ∈ new → root = img.funcs) ∧
    (s.descriptiveName = some registryName → ∀ p t, Onward img s t →
      (t.client p).loc = .dead → (s.client p).loc = .dead) ∧
    (s.userRoot = img.funcs → ∀ p, p ≠ img.server → s.Free p → (s.client p).retval = 0 →
      ((∃ t, Onward img s t ∧ (t.client p).retval = img.funcs) ↔
        .registry ∉ (s.client p).locals ∨ (s.client p).locals.head? = some .registry)) := by
  have I := inv_of_run h
  refine ⟨I.booted, fun p t hgiven ht => ?_, fun hnamed p t ht => ?_,
    fun hroot p hp hfree hretval => ⟨fun ⟨t, ht, hgiven⟩ => ?_, I.obtains hroot hp hfree hretval⟩⟩
  · induction ht with
    | init h =>
      subst h
      exact ⟨hgiven, [], rfl, fun root h => absurd h List.not_mem_nil⟩
    | step ht hst ih =>
      obtain ⟨hgiven, new, hnew, hall⟩ := ih
      obtain ⟨hgiven', new', hnew', hall'⟩ := (I.onward ht).given hst.2 hgiven
      refine ⟨hgiven', new' ++ new, by rw [hnew', hnew, List.append_assoc], fun root hmem => ?_⟩
      rcases List.mem_append.mp hmem with hmem | hmem
      · exact hall' root hmem
      · exact hall root hmem
  · have hall : t.descriptiveName = some registryName ∧
        ((t.client p).loc = .dead → (s.client p).loc = .dead) := by
      induction ht with
      | init h =>
        subst h
        exact ⟨hnamed, id⟩
      | step ht hst ih =>
        exact ⟨named_of_step hst.2 ih.1, fun hdead => ih.2 ((I.onward ht).alive hst.2 ih.1 hdead)⟩
    exact hall.2
  · by_contra hnot
    obtain ⟨hmem, hhead⟩ := not_or.mp hnot
    have hstuck : Stuck t p := by
      clear hgiven
      induction ht with
      | init h =>
        subst h
        exact ⟨hfree.1, hretval, not_not.mp hmem, hhead⟩
      | step ht hst ih => exact (I.onward ht).stuck hst.2 ih
    exact img.funcs_ne_zero (hgiven.symm.trans hstuck.2.1)

def loaded : Image where
  server := 0
  funcs := 4096
  address f := if f = .post then 1 else 2
  funcs_ne_zero := by decide
  ne_zero f := by cases f <;> decide

def started : State where
  registry := ⟨[], fun _ => .idle, []⟩
  main := .post functions
  descriptiveName := none
  userRoot := 0
  client p := ⟨0, if p = 0 then [.registry] else [], .idle⟩
  returned := []

def earlyAndLate : List Action :=
  List.replicate 9 (.main true true) ++
    [.bootstrap 2 true true, .assertName 2, .readRoot 2, .join 2 none 0] ++
    List.replicate 7 (.main true true) ++
    [.bootstrap 1 true true, .assertName 1, .readRoot 1]

theorem registry_bootstrap_early_and_late : ∃ s, Run loaded s ∧ s.main = .spin ∧
    s.returned = [(1, 4096), (0, 4096), (2, 0)] ∧ Booted loaded s ∧
    (∀ t, Onward loaded s t → (t.client 1).retval = 4096 ∧ (t.client 2).retval ≠ 4096) := by
  have hrun : ((Trans.exec (Trans.guard Genuine (step loaded)) earlyAndLate started).map fun s =>
      (s.main, s.returned, (s.client 1).retval)) =
        some (.spin, [(1, 4096), (0, 4096), (2, 0)], 4096) := by decide +kernel
  have hroot : ((Trans.exec (Trans.guard Genuine (step loaded)) earlyAndLate started).map fun s =>
      (s.userRoot, s.registry.pc 2, s.client 2)) =
        some (4096, .idle, ⟨0, [.other none 0, .registry], .idle⟩) := by decide +kernel
  obtain ⟨s, hs, hall⟩ := Option.map_eq_some_iff.mp hrun
  rw [hs] at hroot
  simp only [Option.map_some, Option.some.injEq, Prod.mk.injEq] at hall hroot
  obtain ⟨hmain, hreturned, hone⟩ := hall
  obtain ⟨hroot, hpc, htwo⟩ := hroot
  have hr : Run loaded s :=
    .of_exec_guard (.init ⟨⟨rfl, fun _ => rfl, rfl⟩, rfl, rfl, rfl, fun _ => rfl, rfl⟩) hs
  obtain ⟨B, hgiven, -, hobtains⟩ := registry_bootstrap hr
  refine ⟨s, hr, hmain, hreturned, B, fun t ht => ⟨(hgiven 1 t hone ht).1, fun htwo' => ?_⟩⟩
  have hiff := hobtains hroot 2 (by decide) ⟨by rw [htwo], hpc⟩ (by rw [htwo])
  rcases hiff.mp ⟨t, ht, htwo'⟩ with hnew | hhead
  · rw [htwo] at hnew
    exact absurd hnew (by decide)
  · rw [htwo] at hhead
    exact absurd hhead (by decide)

end Subcontexts.Bootstrap
