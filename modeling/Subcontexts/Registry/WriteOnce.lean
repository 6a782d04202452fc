import Subcontexts.Registry.Model

/-! When the registry is a write-once map: the duplicate check and the insertion of a post are
separate sections. -/

namespace Subcontexts.Registry
variable {Name : Type}

/-- What a call that returns later than another one may return. -/
def Follows : Return Name → Return Name → Prop
  | .post name _ rc, .post name' _ rc' => rc' = 0 → name = name' → rc = EINVAL
  | .find name sym, .post name' sym' rc' => rc' = 0 → name = name' → sym = sym'
  | _, _ => True

/-- No name twice in the list; after a post of a name has returned 0 every other one returns
`EINVAL` and every `registry_find` of the name returns its symbol. -/
structure WriteOnce (s : State Name) : Prop where
  unique : (names s.list).Nodup
  returns : s.returns.Pairwise Follows

def Pc.Inserting (name : Name) : Pc Name → Prop
  | .postMalloc name' _ | .postInsert name' _ => name' = name
  | _ => False

/-- The condition on a step: no duplicate check of a name runs while another post of the name is
between its check and its insertion. -/
def Alone (s : State Name) : Action Name → Prop
  | .check p => ∀ name sym, s.pc p = .postCheck name sym → ∀ q, ¬ (s.pc q).Inserting name
  | _ => True

def Pc.sym : Pc Name → Option Nat
  | .postCheck _ sym | .postMalloc _ sym | .postInsert _ sym => some sym
  | _ => none

structure Inv (s : State Name) : Prop where
  unique : (names s.list).Nodup
  syms : ∀ e ∈ s.list, e.sym ≠ 0
  posting : ∀ p sym, (s.pc p).sym = some sym → sym ≠ 0
  absent : ∀ p name, (s.pc p).Inserting name → name ∉ names s.list
  alone : ∀ p q name, (s.pc p).Inserting name → (s.pc q).Inserting name → p = q
  posted : ∀ name sym, .post name sym 0 ∈ s.returns → ⟨name, sym⟩ ∈ s.list
  returns : s.returns.Pairwise Follows

section Steps
variable {s t : State Name} {p : Pid} {name : Name} {sym : Nat}

theorem Inv.init (h : s.init) : Inv s := by
  obtain ⟨hlist, hpc, hreturns⟩ := h
  refine ⟨?_, ?_, ?_, ?_, ?_, ?_, ?_⟩
  · rw [hlist]
    exact List.nodup_nil
  · rw [hlist]
    exact fun e he => absurd he List.not_mem_nil
  · intro q u hq
    rw [hpc] at hq
    cases hq
  · intro q u hq
    rw [hpc] at hq
    exact hq.elim
  · intro q u v hq
    rw [hpc] at hq
    exact hq.elim
  · rw [hreturns]
    exact fun u v h => absurd h List.not_mem_nil
  · rw [hreturns]
    exact List.Pairwise.nil

theorem Inv.goto (I : Inv s) {pc : Pc Name} (hsym : ∀ u, pc.sym = some u → u ≠ 0)
    (hins : ∀ name, pc.Inserting name → name ∉ names s.list ∧
      ∀ q, q ≠ p → ¬ (s.pc q).Inserting name) : Inv (s.goto p pc) := by
  refine ⟨I.unique, I.syms, fun q u hq => ?_, fun q v hq => ?_, fun q u v hq hu => ?_, I.posted,
    I.returns⟩
  · rcases Trans.of_update (P := fun pc : Pc Name => pc.sym = some u) hq with ⟨-, hq⟩ | ⟨-, hq⟩
    · exact hsym u hq
    · exact I.posting q u hq
  · rcases Trans.of_update (P := Pc.Inserting v) hq with ⟨-, hq⟩ | ⟨-, hq⟩
    · exact (hins v hq).1
    · exact I.absent q v hq
  · rcases Trans.of_update (P := Pc.Inserting v) hq with ⟨hqp, hq⟩ | ⟨hqp, hq⟩
    · rcases Trans.of_update (P := Pc.Inserting v) hu with ⟨hup, -⟩ | ⟨hup, hu⟩
      · exact hqp.trans hup.symm
      · exact absurd hu ((hins v hq).2 u hup)
    · rcases Trans.of_update (P := Pc.Inserting v) hu with ⟨hup, hu⟩ | ⟨hup, hu⟩
      · exact absurd hq ((hins v hu).2 q hqp)
      · exact I.alone q u v hq hu

theorem Inv.leave (I : Inv s) {pc : Pc Name} (hsym : pc.sym = none)
    (hins : ∀ name, ¬ pc.Inserting name) : Inv (s.goto p pc) := by
  refine I.goto (fun u hu => ?_) fun v hv => absurd hv (hins v)
  rw [hsym] at hu
  cases hu

theorem Inv.return (I : Inv s) {r : Return Name} (hr : ∀ name sym, r ≠ .post name sym 0)
    (hfollows : ∀ r' ∈ s.returns, Follows r r') : Inv (s.return p r) := by
  have J : Inv (s.goto p .idle) := I.leave rfl fun _ h => h
  refine ⟨J.unique, J.syms, J.posting, J.absent, J.alone, fun u v h => ?_,
    List.pairwise_cons.mpr ⟨hfollows, I.returns⟩⟩
  rcases List.mem_cons.mp h with h | h
  · exact absurd h.symm (hr u v)
  · exact I.posted u v h

theorem Inv.insert (I : Inv s) (hp : s.pc p = .postInsert name sym) :
    Inv { s.return p (.post name sym 0) with list := ⟨name, sym⟩ :: s.list } := by
  have hins : (s.pc p).Inserting name := by
    rw [hp]
    rfl
  have hnew := I.absent p name hins
  have hsym : sym ≠ 0 := I.posting p sym (by rw [hp]; rfl)
  have J : Inv (s.goto p .idle) := I.leave rfl fun _ h => h
  refine ⟨List.nodup_cons.mpr ⟨hnew, I.unique⟩, List.forall_mem_cons.mpr ⟨hsym, I.syms⟩, J.posting,
    fun q v hq => ?_, J.alone, fun u v h => ?_, List.pairwise_cons.mpr ⟨fun r' hr' => ?_, I.returns⟩⟩
  · rcases Trans.of_update (P := Pc.Inserting v) hq with ⟨-, hq⟩ | ⟨hqp, hother⟩
    · exact hq.elim
    · intro hmem
      rcases List.mem_cons.mp hmem with heq | hmem
      · obtain rfl : v = name := heq
        exact hqp (I.alone q p v hother hins)
      · exact I.absent q v hother hmem
  · rcases List.mem_cons.mp h with h | h
    · obtain ⟨rfl, rfl, -⟩ := Return.post.inj h
      exact List.mem_cons_self ..
    · exact List.mem_cons_of_mem _ (I.posted u v h)
  · cases r' with
    | post u v rc =>
      rintro rfl rfl
      exact absurd (List.mem_map.mpr ⟨_, I.posted _ v hr', rfl⟩) hnew
    | find u v => trivial

variable [DecidableEq Name]

theorem Inv.check (I : Inv s) (hp : s.pc p = .postCheck name sym)
    (halone : ∀ q, ¬ (s.pc q).Inserting name) (h : step s (.check p) = some t) : Inv t := by
  simp only [step, hp] at h
  have hsym : sym ≠ 0 := I.posting p sym (by rw [hp]; rfl)
  split at h
  · obtain rfl := Option.some.inj h
    refine I.return (fun u v hr => by cases hr) fun r' _ => ?_
    cases r' with
    | post u v rc => exact fun _ _ => rfl
    | find u v => trivial
  · rename_i hfind
    obtain rfl := Option.some.inj h
    refine I.goto (fun u hu => ?_) fun v hv => ?_
    · obtain rfl := Option.some.inj hu
      exact hsym
    · obtain rfl : name = v := hv
      exact ⟨fun hmem => hfind (findEntry_ne_zero I.syms hmem), fun q _ => halone q⟩

theorem Inv.find (I : Inv s) : Inv (s.return p (.find name (findEntry s.list name))) := by
  refine I.return (fun u v hr => by cases hr) fun r' hr' => ?_
  cases r' with
  | post u v rc =>
    rintro rfl rfl
    exact findEntry_of_mem I.unique (I.posted _ v hr')
  | find u v => trivial

theorem Inv.step (I : Inv s) {a : Action Name} (hok : Alone s a) (h : Registry.step s a = some t) :
    Inv t := by
  cases a with
  | registryPost p name sym =>
    simp only [Registry.step] at h
    split at h
    · rename_i hcall
      obtain rfl := Option.some.inj h
      refine I.goto (fun u hu => ?_) fun v hv => hv.elim
      obtain rfl := Option.some.inj hu
      exact hcall.2
    · cases h
  | check p =>
    cases hp : s.pc p with
    | postCheck name sym => exact I.check hp (hok name sym hp) h
    | _ =>
      simp only [Registry.step, hp] at h
      cases h
  | malloc p =>
    simp only [Registry.step] at h
    split at h
    · rename_i name sym hp
      obtain rfl := Option.some.inj h
      have hins : (s.pc p).Inserting name := by
        rw [hp]
        rfl
      refine I.goto (fun u hu => I.posting p u (by rw [hp]; exact hu)) fun v hv => ?_
      obtain rfl : name = v := hv
      exact ⟨I.absent p name hins, fun q hqp hq => hqp (I.alone q p name hq hins)⟩
    · cases h
  | insert p =>
    simp only [Registry.step] at h
    split at h
    · rename_i name sym hp
      obtain rfl := Option.some.inj h
      exact I.insert hp
    · cases h
  | registryFind p name =>
    simp only [Registry.step] at h
    split at h
    · obtain rfl := Option.some.inj h
      exact I.leave rfl fun _ h => h
    · cases h
  | find p =>
    simp only [Registry.step] at h
    split at h
    · obtain rfl := Option.some.inj h
      exact I.find
    · cases h

end Steps

def AloneRun [DecidableEq Name] : State Name → Prop :=
  Trans.Reach State.init (Trans.Guarded Alone (Trans.ofFun step))

theorem registry_write_once [DecidableEq Name] {s : State Name} (h : AloneRun s) : WriteOnce s := by
  have I : Inv s :=
    Trans.Reach.inv (I := Inv) (fun _ => .init) (fun _ _ _ I hst => I.step hst.1 hst.2) h
  exact ⟨I.unique, I.returns⟩

def emptyRegistry : State String := ⟨[], fun _ => .idle, []⟩

theorem emptyRegistry_init : emptyRegistry.init := ⟨rfl, fun _ => rfl, rfl⟩

/-- One process posts a name, another one finds it. -/
theorem registry_write_once_posted_and_found : ∃ s, AloneRun s ∧
    s.returns = [.find "ipc" 7, .post "ipc" 7 0] ∧ WriteOnce s := by
  have h0 : AloneRun emptyRegistry := .init emptyRegistry_init
  have h1 := h0.step (l := Action.registryPost 1 "ipc" 7) ⟨trivial, rfl⟩
  have h2 := h1.step (l := Action.check 1) ⟨fun name sym _ q hq => by
    rcases Trans.of_update (P := Pc.Inserting name) hq with ⟨-, hq⟩ | ⟨-, hq⟩
    · exact hq
    · exact hq, rfl⟩
  have h3 := h2.step (l := Action.malloc 1) ⟨trivial, rfl⟩
  have h4 := h3.step (l := Action.insert 1) ⟨trivial, rfl⟩
  have h5 := h4.step (l := Action.registryFind 2 "ipc") ⟨trivial, rfl⟩
  have h6 := h5.step (l := Action.find 2) ⟨trivial, rfl⟩
  exact ⟨_, h6, rfl, registry_write_once h6⟩

/-- Two posts of one name both pass the check before either inserts. -/
theorem registry_posts_race : ¬ ∀ s : State String,
    Trans.Reach State.init (Trans.ofFun step) s → WriteOnce s := by
  intro H
  have h0 : Trans.Reach State.init (Trans.ofFun step) emptyRegistry := .init emptyRegistry_init
  obtain ⟨s, hs⟩ : ∃ s, Trans.exec step [.registryPost 1 "ipc" 7, .registryPost 2 "ipc" 8, .check 1,
      .check 2, .malloc 1, .malloc 2, .insert 1, .insert 2] emptyRegistry = some s := ⟨_, rfl⟩
  have hr := Trans.Reach.of_exec h0 hs
  obtain rfl := Option.some.inj hs
  have hnodup := (H _ hr).unique
  revert hnodup
  decide

end Subcontexts.Registry
