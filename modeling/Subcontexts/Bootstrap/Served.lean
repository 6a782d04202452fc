import Subcontexts.Bootstrap.Model
import Subcontexts.Registry.WriteOnce

/-! What the registry holds and hands out under the names of its own functions, whoever calls. -/

namespace Subcontexts.Bootstrap
open Registry (Pid findEntry names)

variable {img : Image} {r r' : Registry.State String} {a : Registry.Action String}

structure Served (img : Image) (r : Registry.State String) : Prop where
  list : ∀ e ∈ r.list, ∀ f : Func, e.name = f.name → e.sym = img.address f
  inserting : ∀ p (f : Func), (r.pc p).Inserting f.name → (r.pc p).sym = some (img.address f)
  found : ∀ (f : Func) sym, .find f.name sym ∈ r.returns → sym = img.address f
  posted : ∀ (f : Func) sym, .post f.name sym 0 ∈ r.returns → sym = img.address f

theorem findEntry_name {list : List (Registry.RegistryEntry String)} {f : Func}
    (h : ∀ e ∈ list, ∀ f : Func, e.name = f.name → e.sym = img.address f)
    (hmem : f.name ∈ names list) : findEntry list f.name = img.address f := by
  induction list with
  | nil => cases hmem
  | cons e list ih =>
    rw [List.forall_mem_cons] at h
    rw [findEntry]
    by_cases hname : e.name = f.name
    · rw [if_pos hname]
      exact h.1 f hname
    · rw [if_neg hname]
      refine ih h.2 ?_
      rcases List.mem_cons.mp hmem with heq | hmem
      · exact absurd heq.symm hname
      · exact hmem

theorem Served.init (h : r.init) : Served img r := by
  obtain ⟨hlist, hpc, hreturns⟩ := h
  refine ⟨?_, ?_, ?_, ?_⟩
  · rw [hlist]
    exact fun e he => absurd he List.not_mem_nil
  · intro p f hp
    rw [hpc] at hp
    exact hp.elim
  · rw [hreturns]
    exact fun f sym h => absurd h List.not_mem_nil
  · rw [hreturns]
    exact fun f sym h => absurd h List.not_mem_nil

theorem Served.goto (S : Served img r) {p : Pid} {pc : Registry.Pc String}
    (hpc : ∀ f : Func, pc.Inserting f.name → pc.sym = some (img.address f)) :
    Served img (r.goto p pc) := by
  refine ⟨S.list, fun q f => ?_, S.found, S.posted⟩
  have hcases : (r.goto p pc).pc q = pc ∨ (r.goto p pc).pc q = r.pc q := by
    by_cases hq : q = p
    · subst hq
      exact .inl (Function.update_self ..)
    · exact .inr (Function.update_of_ne hq ..)
  rcases hcases with hq | hq
  · rw [hq]
    exact hpc f
  · rw [hq]
    exact S.inserting q f

theorem Served.return (S : Served img r) {p : Pid} {x : Registry.Return String}
    (hfind : ∀ (f : Func) sym, x = .find f.name sym → sym = img.address f)
    (hpost : ∀ (f : Func) sym, x = .post f.name sym 0 → sym = img.address f) :
    Served img (r.return p x) := by
  have J : Served img (r.goto p .idle) := S.goto fun _ h => h.elim
  refine ⟨J.list, J.inserting, fun f sym h => ?_, fun f sym h => ?_⟩
  · rcases List.mem_cons.mp h with h | h
    · exact hfind f sym h.symm
    · exact S.found f sym h
  · rcases List.mem_cons.mp h with h | h
    · exact hpost f sym h.symm
    · exact S.posted f sym h

structure Fits (img : Image) (r : Registry.State String) (a : Registry.Action String) : Prop where
  check : ∀ p (f : Func) sym, a = .check p → r.pc p = .postCheck f.name sym →
    findEntry r.list f.name = 0 → sym = img.address f
  find : ∀ p (f : Func), a = .find p → r.pc p = .find f.name → f.name ∈ names r.list

theorem Fits.of_held (S : Served img r) (h : ∀ f : Func, f.name ∈ names r.list) : Fits img r a :=
  ⟨fun _ f _ _ _ h0 => absurd (findEntry_name S.list (h f) ▸ h0) (img.ne_zero f),
    fun _ f _ _ => h f⟩

theorem Served.step (S : Served img r) (F : Fits img r a) (h : Registry.step r a = some r') :
    Served img r' := by
  cases a with
  | registryPost p name sym =>
    simp only [Registry.step] at h
    split at h
    · obtain rfl := Option.some.inj h
      exact S.goto fun f hf => hf.elim
    · cases h
  | check p =>
    simp only [Registry.step] at h
    split at h
    · rename_i name sym hp
      split at h
      · obtain rfl := Option.some.inj h
        exact S.return (fun f x hx => by cases hx) fun f x hx => by cases hx
      · rename_i hzero
        obtain rfl := Option.some.inj h
        refine S.goto fun f hf => ?_
        obtain rfl : name = f.name := hf
        rw [F.check p f sym rfl hp (not_not.mp hzero)]
        rfl
    · cases h
  | malloc p =>
    simp only [Registry.step] at h
    split at h
    · rename_i name sym hp
      obtain rfl := Option.some.inj h
      refine S.goto fun f hf => ?_
      have hins := S.inserting p f
      rw [hp] at hins
      exact hins hf
    · cases h
  | insert p =>
    simp only [Registry.step] at h
    split at h
    · rename_i name sym hp
      obtain rfl := Option.some.inj h
      have hsym : ∀ f : Func, name = f.name → sym = img.address f := by
        intro f hf
        have hins := S.inserting p f
        rw [hp] at hins
        exact Option.some.inj (hins hf)
      have J : Served img (r.return p (.post name sym 0)) := by
        refine S.return (fun f x hx => by cases hx) fun f x hx => ?_
        obtain ⟨rfl, rfl, -⟩ := Registry.Return.post.inj hx
        exact hsym f rfl
      exact ⟨List.forall_mem_cons.mpr ⟨hsym, S.list⟩, J.inserting, J.found, J.posted⟩
    · cases h
  | registryFind p name =>
    simp only [Registry.step] at h
    split at h
    · obtain rfl := Option.some.inj h
      exact S.goto fun f hf => hf.elim
    · cases h
  | find p =>
    simp only [Registry.step] at h
    split at h
    · rename_i name hp
      obtain rfl := Option.some.inj h
      refine S.return (fun f x hx => ?_) fun f x hx => by cases hx
      obtain ⟨rfl, rfl⟩ := Registry.Return.find.inj hx
      exact findEntry_name S.list (F.find p f rfl hp)
    · cases h

theorem step_frame (h : Registry.step r a = some r') :
    (∀ q, q ≠ caller a → r'.pc q = r.pc q) ∧ names r.list ⊆ names r'.list := by
  have hstay : ∀ {p : Pid} {pc : Registry.Pc String} q, q ≠ p → (r.goto p pc).pc q = r.pc q :=
    fun q hq => Function.update_of_ne hq ..
  cases a with
  | registryPost p name sym =>
    simp only [Registry.step] at h
    split at h
    · obtain rfl := Option.some.inj h
      exact ⟨hstay, List.Subset.refl _⟩
    · cases h
  | check p =>
    simp only [Registry.step] at h
    split at h
    · split at h
      · obtain rfl := Option.some.inj h
        exact ⟨hstay, List.Subset.refl _⟩
      · obtain rfl := Option.some.inj h
        exact ⟨hstay, List.Subset.refl _⟩
    · cases h
  | malloc p =>
    simp only [Registry.step] at h
    split at h
    · obtain rfl := Option.some.inj h
      exact ⟨hstay, List.Subset.refl _⟩
    · cases h
  | insert p =>
    simp only [Registry.step] at h
    split at h
    · obtain rfl := Option.some.inj h
      exact ⟨hstay, List.subset_cons_self _ _⟩
    · cases h
  | registryFind p name =>
    simp only [Registry.step] at h
    split at h
    · obtain rfl := Option.some.inj h
      exact ⟨hstay, List.Subset.refl _⟩
    · cases h
  | find p =>
    simp only [Registry.step] at h
    split at h
    · obtain rfl := Option.some.inj h
      exact ⟨hstay, List.Subset.refl _⟩
    · cases h

end Subcontexts.Bootstrap
