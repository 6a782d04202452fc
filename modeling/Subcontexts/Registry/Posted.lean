import Subcontexts.Registry.Model

/-! What is found under a name was posted under it, in whatever order the posts and the finds of
the processes run. -/

namespace Subcontexts.Registry
variable {Name : Type} {P : Name → Nat → Prop}

def Pc.Posting : Pc Name → Name → Nat → Prop
  | .postCheck n x, name, sym => n = name ∧ x = sym
  | .postMalloc n x, name, sym => n = name ∧ x = sym
  | .postInsert n x, name, sym => n = name ∧ x = sym
  | _, _, _ => False

structure Only (P : Name → Nat → Prop) (s : State Name) : Prop where
  list : ∀ e ∈ s.list, P e.name e.sym
  posting : ∀ p name sym, (s.pc p).Posting name sym → P name sym
  found : ∀ name sym, .find name sym ∈ s.returns → sym ≠ 0 → P name sym

section Steps
variable {s t : State Name} {p : Pid} {name : Name} {sym : Nat}

theorem Only.init (h : s.init) : Only P s := by
  obtain ⟨hlist, hpc, hreturns⟩ := h
  refine ⟨fun e he => ?_, fun p name sym hp => ?_, fun name sym hr => ?_⟩
  · rw [hlist] at he
    cases he
  · rw [hpc] at hp
    exact hp.elim
  · rw [hreturns] at hr
    cases hr

theorem Only.goto (O : Only P s) {pc : Pc Name}
    (hpc : ∀ name sym, pc.Posting name sym → P name sym) : Only P (s.goto p pc) := by
  refine ⟨O.list, fun q name sym hq => ?_, O.found⟩
  rcases Trans.of_update (P := fun pc : Pc Name => pc.Posting name sym) hq with ⟨-, hq⟩ | ⟨-, hq⟩
  · exact hpc name sym hq
  · exact O.posting q name sym hq

theorem Only.return (O : Only P s) {r : Return Name}
    (hr : ∀ name sym, r = .find name sym → sym ≠ 0 → P name sym) : Only P (s.return p r) := by
  have J : Only P (s.goto p .idle) := O.goto fun _ _ h => h.elim
  refine ⟨J.list, J.posting, fun name sym hmem hsym => ?_⟩
  rcases List.mem_cons.mp hmem with heq | hmem
  · exact hr name sym heq.symm hsym
  · exact O.found name sym hmem hsym

variable [DecidableEq Name]

theorem findEntry_mem {list : List (RegistryEntry Name)} (h : findEntry list name ≠ 0) :
    ⟨name, findEntry list name⟩ ∈ list := by
  induction list with
  | nil => exact absurd rfl h
  | cons entry list ih =>
    rw [findEntry] at h ⊢
    by_cases hname : entry.name = name
    · subst name
      rw [if_pos rfl]
      exact List.mem_cons_self ..
    · rw [if_neg hname] at h ⊢
      exact List.mem_cons_of_mem _ (ih h)

theorem Only.step (O : Only P s) {a : Action Name}
    (hpost : ∀ p name sym, a = .registryPost p name sym → P name sym)
    (h : Registry.step s a = some t) : Only P t := by
  cases a with
  | registryPost p name sym =>
    simp only [Registry.step] at h
    split at h
    · obtain rfl := Option.some.inj h
      refine O.goto fun n x hpc => ?_
      obtain ⟨rfl, rfl⟩ := hpc
      exact hpost p name sym rfl
    · cases h
  | check p =>
    simp only [Registry.step] at h
    split at h
    · rename_i name sym hp
      split at h
      · obtain rfl := Option.some.inj h
        exact O.return fun n x hr => by cases hr
      · obtain rfl := Option.some.inj h
        exact O.goto fun n x hpc => O.posting p n x (by rw [hp]; exact hpc)
    · cases h
  | malloc p =>
    simp only [Registry.step] at h
    split at h
    · rename_i name sym hp
      obtain rfl := Option.some.inj h
      exact O.goto fun n x hpc => O.posting p n x (by rw [hp]; exact hpc)
    · cases h
  | insert p =>
    simp only [Registry.step] at h
    split at h
    · rename_i name sym hp
      obtain rfl := Option.some.inj h
      have J : Only P (s.return p (.post name sym 0)) := O.return fun n x hr => by cases hr
      exact ⟨List.forall_mem_cons.mpr ⟨O.posting p name sym (by rw [hp]; exact ⟨rfl, rfl⟩), O.list⟩,
        J.posting, J.found⟩
    · cases h
  | registryFind p name =>
    simp only [Registry.step] at h
    split at h
    · obtain rfl := Option.some.inj h
      exact O.goto fun _ _ h => h.elim
    · cases h
  | find p =>
    simp only [Registry.step] at h
    split at h
    · rename_i name hp
      obtain rfl := Option.some.inj h
      refine O.return fun n x hr hx => ?_
      obtain ⟨rfl, rfl⟩ := Return.find.inj hr
      exact O.list _ (findEntry_mem hx)
    · cases h

end Steps
end Subcontexts.Registry
