import Subcontexts.Bootstrap.Served

/-! The start of the registry with clients at its heels: what holds in every state of every run. -/

namespace Subcontexts.Bootstrap
open Registry (Pid findEntry names)

def Main.Unnamed : Main → Prop
  | .post _ => True
  | _ => False

def Main.Unrooted : Main → Prop
  | .post _ | .root => True
  | _ => False

def Main.At (img : Image) : Main → Registry.Pc String → Prop
  | .post _, pc => pc = .idle ∨ ∃ f : Func, pc.Posting f.name (img.address f)
  | .found f _, pc => pc = .find f.name
  | _, pc => pc = .idle

structure Clients (img : Image) (s : State) : Prop where
  named : ¬ s.main.Unnamed → s.descriptiveName = some registryName
  rooted : ¬ s.main.Unrooted → s.userRoot = img.funcs
  unrooted : s.main.Unrooted → s.userRoot = 0
  retval : ∀ p, (s.client p).retval = 0 ∨
    (s.client p).retval = img.funcs ∧ s.userRoot = img.funcs ∧ .registry ∈ (s.client p).locals
  genuine : ∀ p name root, .other name root ∈ (s.client p).locals → name ≠ some registryName
  once : ∀ p, (s.client p).locals.count .registry ≤ 1
  inside : ∀ p, (s.client p).loc ≠ .idle → .registry ∈ (s.client p).locals ∧ (s.client p).retval = 0
  server : (s.client img.server).locals = [.registry] ∧ (s.client img.server).loc = .idle
  returned : ∀ p root, (p, root) ∈ s.returned → root = 0 ∨ root = img.funcs

structure Posts (img : Image) (s : State) : Prop where
  served : Served img s.registry
  posted : ∀ f : Func, f.name ∈ names s.registry.list ∨ ∃ left, s.main = .post left ∧
    (f ∈ left ∨ (s.registry.pc img.server).Posting f.name (img.address f))
  main_at : s.main.At img (s.registry.pc img.server)
  quiet : s.main.Unrooted → ∀ p, p ≠ img.server → s.registry.pc p = .idle
  asserts : s.main ≠ .aborted

structure Inv (img : Image) (s : State) : Prop where
  clients : Clients img s
  posts : Posts img s

section Steps
variable {img : Image} {s t : State}

theorem Inv.init (h : s.init img) : Inv img s := by
  obtain ⟨hregistry, hmain, hname, hroot, hclient, hreturned⟩ := h
  have hpc := hregistry.2.1
  refine ⟨⟨?_, ?_, fun _ => hroot, fun p => .inl ?_, ?_, ?_, ?_, ?_, ?_⟩,
    ⟨Served.init hregistry, fun f => .inr ⟨functions, hmain, .inl ?_⟩, ?_, fun _ p _ => hpc p, ?_⟩⟩
  · rw [hmain]
    exact fun h => absurd trivial h
  · rw [hmain]
    exact fun h => absurd trivial h
  · rw [hclient]
  · intro p name root h
    rw [hclient] at h
    by_cases hp : p = img.server
    · rw [if_pos hp] at h
      cases List.mem_singleton.mp h
    · rw [if_neg hp] at h
      cases h
  · intro p
    rw [hclient]
    by_cases hp : p = img.server
    · rw [if_pos hp]
      exact Nat.le_refl 1
    · rw [if_neg hp]
      exact Nat.zero_le 1
  · intro p h
    rw [hclient] at h
    exact absurd rfl h
  · rw [hclient, if_pos rfl]
    exact ⟨rfl, rfl⟩
  · rw [hreturned]
    exact fun p root h => absurd h List.not_mem_nil
  · cases f
    · exact List.mem_cons_self ..
    · exact List.mem_cons_of_mem _ (List.mem_cons_self ..)
  · rw [hmain, hpc]
    exact .inl rfl
  · rw [hmain]
    exact fun h => by cases h

theorem Posts.held (P : Posts img s) (h : ¬ s.main.Unnamed) (f : Func) :
    f.name ∈ names s.registry.list := by
  rcases P.posted f with hf | ⟨left, hmain, -⟩
  · exact hf
  · rw [hmain] at h
    exact absurd trivial h

theorem Main.named_of_rooted {m : Main} (h : ¬ m.Unrooted) : ¬ m.Unnamed := by
  cases m with
  | post left => exact absurd trivial h
  | _ => exact id

theorem Clients.userRoot_cases (C : Clients img s) : s.userRoot = 0 ∨ s.userRoot = img.funcs := by
  by_cases h : s.main.Unrooted
  · exact .inl (C.unrooted h)
  · exact .inr (C.rooted h)

theorem Clients.rooted_of_retval (C : Clients img s) {p : Pid}
    (h : (s.client p).retval = img.funcs) : ¬ s.main.Unrooted := by
  intro hroot
  rcases C.retval p with h0 | ⟨-, hfuncs, -⟩
  · exact img.funcs_ne_zero (h.symm.trans h0)
  · exact img.funcs_ne_zero (hfuncs.symm.trans (C.unrooted hroot))

theorem Clients.congr (C : Clients img s) {registry : Registry.State String} {main : Main}
    (hnamed : main.Unnamed ↔ s.main.Unnamed) (hrooted : main.Unrooted ↔ s.main.Unrooted) :
    Clients img { s with registry := registry, main := main } :=
  ⟨fun h => C.named (fun hn => h (hnamed.mpr hn)), fun h => C.rooted (fun hr => h (hrooted.mpr hr)),
    fun h => C.unrooted (hrooted.mp h), C.retval, C.genuine, C.once, C.inside, C.server, C.returned⟩

structure Client.Fine (img : Image) (s : State) (c : Client) : Prop where
  retval : c.retval = 0 ∨ c.retval = img.funcs ∧ s.userRoot = img.funcs ∧ .registry ∈ c.locals
  genuine : ∀ name root, .other name root ∈ c.locals → name ≠ some registryName
  once : c.locals.count .registry ≤ 1
  inside : c.loc ≠ .idle → .registry ∈ c.locals ∧ c.retval = 0

theorem Clients.fine (C : Clients img s) (p : Pid) : (s.client p).Fine img s :=
  ⟨C.retval p, C.genuine p, C.once p, C.inside p⟩

theorem Clients.set (C : Clients img s) {p : Pid} {c : Client} (hc : c.Fine img s)
    (hserver : p = img.server → c.locals = [.registry] ∧ c.loc = .idle) :
    Clients img (s.set p c) := by
  have hfine : ∀ q, ((s.set p c).client q).Fine img s := by
    intro q
    by_cases hq : q = p
    · subst hq
      rw [s.set_client_self]
      exact hc
    · rw [s.set_client_of_ne c hq]
      exact C.fine q
  refine ⟨C.named, C.rooted, C.unrooted, fun q => (hfine q).retval, fun q => (hfine q).genuine,
    fun q => (hfine q).once, fun q => (hfine q).inside, ?_, C.returned⟩
  by_cases hp : img.server = p
  · subst hp
    rw [s.set_client_self]
    exact hserver rfl
  · rw [s.set_client_of_ne c hp]
    exact C.server

theorem Clients.return (C : Clients img s) {p : Pid} {r : Option Nat}
    (hr : ∀ root, r = some root → root = 0 ∨ root = img.funcs) : Clients img (s.return p r) := by
  cases r with
  | none => exact C
  | some root =>
    refine ⟨C.named, C.rooted, C.unrooted, C.retval, C.genuine, C.once, C.inside, C.server,
      fun q root' h => ?_⟩
    rcases List.mem_cons.mp h with h | h
    · obtain ⟨-, rfl⟩ := Prod.mk.inj h
      exact hr _ rfl
    · exact C.returned q root' h

theorem Clients.head (C : Clients img s) {p : Pid}
    (h : (s.client p).locals.head?.bind s.nameOf = some registryName) :
    (s.client p).locals.head? = some .registry := by
  obtain ⟨cur, hcur, hname⟩ := Option.bind_eq_some_iff.mp h
  cases cur with
  | registry => exact hcur
  | other name root =>
    exact absurd hname (C.genuine p name root (List.mem_of_head? hcur))

theorem Clients.enter (C : Clients img s) {p : Pid} (hidle : (s.client p).loc = .idle)
    (opened joined : Bool) :
    (s.enter opened joined (s.client p)).1.Fine img s ∧
      ∀ root, (s.enter opened joined (s.client p)).2 = some root → root = 0 ∨ root = img.funcs := by
  have F := C.fine p
  unfold State.enter
  split
  · refine ⟨F, fun root hroot => ?_⟩
    obtain rfl := Option.some.inj hroot
    exact F.retval.imp_right And.left
  · rename_i hzero
    have hzero := not_not.mp hzero
    split
    · rename_i hhead
      have hhead := C.head hhead
      rw [hhead]
      refine ⟨⟨?_, F.genuine, F.once, fun h => absurd hidle h⟩, fun root hroot => ?_⟩
      · exact C.userRoot_cases.imp_right fun hfuncs => ⟨hfuncs, hfuncs, List.mem_of_head? hhead⟩
      · obtain rfl := Option.some.inj hroot
        exact C.userRoot_cases
    · split
      · exact ⟨F, fun root hroot => .inl (Option.some.inj hroot).symm⟩
      · split
        · exact ⟨F, fun root hroot => .inl (Option.some.inj hroot).symm⟩
        · rename_i hnew
          have hnew := (not_or.mp hnew).2
          refine ⟨⟨.inl hzero, fun name root h => ?_, ?_, fun _ => ⟨List.mem_cons_self .., hzero⟩⟩,
            fun root hroot => by cases hroot⟩
          · rcases List.mem_cons.mp h with h | h
            · cases h
            · exact F.genuine name root h
          · show List.count Local.registry (Local.registry :: (s.client p).locals) ≤ 1
            have hzero : List.count Local.registry (s.client p).locals = 0 :=
              List.count_eq_zero.mpr hnew
            rw [List.count_cons_self]
            omega

theorem Inv.rooted_of_call (I : Inv img s) {a : Registry.Action String} {r : Registry.State String}
    (h : Registry.step s.registry a = some r) (hcaller : caller a ≠ img.server)
    (hbegins : Begins a → (s.client (caller a)).retval = img.funcs) : ¬ s.main.Unrooted := by
  intro hroot
  have hidle := I.posts.quiet hroot _ hcaller
  by_cases hb : Begins a
  · exact I.clients.rooted_of_retval (hbegins hb) hroot
  · cases a with
    | registryPost p name sym => exact hb trivial
    | registryFind p name => exact hb trivial
    | check p =>
      have hidle : s.registry.pc p = .idle := hidle
      simp only [Registry.step, hidle, reduceCtorEq] at h
    | malloc p =>
      have hidle : s.registry.pc p = .idle := hidle
      simp only [Registry.step, hidle, reduceCtorEq] at h
    | insert p =>
      have hidle : s.registry.pc p = .idle := hidle
      simp only [Registry.step, hidle, reduceCtorEq] at h
    | find p =>
      have hidle : s.registry.pc p = .idle := hidle
      simp only [Registry.step, hidle, reduceCtorEq] at h

theorem Inv.registry (I : Inv img s) {a : Registry.Action String} {r : Registry.State String}
    (h : Registry.step s.registry a = some r) (hcaller : caller a ≠ img.server)
    (hbegins : Begins a → (s.client (caller a)).retval = img.funcs) :
    Inv img { s with registry := r } := by
  have hroot := I.rooted_of_call h hcaller hbegins
  have hheld := I.posts.held (Main.named_of_rooted hroot)
  obtain ⟨hpc, hlist⟩ := step_frame h
  refine ⟨I.clients.congr Iff.rfl Iff.rfl,
    ⟨I.posts.served.step (.of_held I.posts.served hheld) h, fun f => .inl (hlist (hheld f)), ?_,
      fun hr => absurd hr hroot, I.posts.asserts⟩⟩
  show s.main.At img (r.pc img.server)
  rw [hpc _ hcaller.symm]
  exact I.posts.main_at

theorem Posts.fits (P : Posts img s) {left : List Func} (hmain : s.main = .post left)
    {a : Registry.Action String} (ha : caller a = img.server) : Fits img s.registry a := by
  have hat := P.main_at
  rw [hmain] at hat
  refine ⟨fun p f sym hcheck hp _ => ?_, fun p f hfind hp => ?_⟩
  · subst hcheck
    obtain rfl : p = img.server := ha
    rw [hp] at hat
    rcases hat with h | ⟨g, hname, rfl⟩
    · cases h
    · rw [Func.name_injective hname]
  · subst hfind
    obtain rfl : p = img.server := ha
    rw [hp] at hat
    rcases hat with h | ⟨g, h⟩
    · cases h
    · exact h.elim

theorem Inv.post (I : Inv img s) {left left' : List Func} {a : Registry.Action String}
    {r : Registry.State String} (hmain : s.main = .post left) (ha : caller a = img.server)
    (h : Registry.step s.registry a = some r)
    (hat : r.pc img.server = .idle ∨ ∃ f : Func, (r.pc img.server).Posting f.name (img.address f))
    (hleft : ∀ f ∈ left, f ∈ left' ∨ (r.pc img.server).Posting f.name (img.address f))
    (hposting : ∀ f : Func, (s.registry.pc img.server).Posting f.name (img.address f) →
      f.name ∈ names r.list ∨ (r.pc img.server).Posting f.name (img.address f)) :
    Inv img { s with registry := r, main := .post left' } := by
  obtain ⟨hpc, hlist⟩ := step_frame h
  have hunrooted : s.main.Unrooted := by
    rw [hmain]
    trivial
  refine ⟨I.clients.congr (by rw [hmain]; exact Iff.rfl) (by rw [hmain]; exact Iff.rfl),
    ⟨I.posts.served.step (I.posts.fits hmain ha) h, fun f => ?_, hat, fun _ p hp => ?_,
      fun h => by cases h⟩⟩
  · rcases I.posts.posted f with hf | ⟨left₀, hmain₀, hf⟩
    · exact .inl (hlist hf)
    · obtain rfl := Main.post.inj (hmain.symm.trans hmain₀)
      rcases hf with hf | hf
      · exact .inr ⟨left', rfl, hleft f hf⟩
      · exact (hposting f hf).imp_right fun hf => ⟨left', rfl, .inr hf⟩
  · exact (hpc p (ha ▸ hp)).trans (I.posts.quiet hunrooted p hp)

theorem Inv.assertion (I : Inv img s) {main : Main} {a : Registry.Action String}
    {r : Registry.State String} (hroot : ¬ s.main.Unrooted) (hroot' : ¬ main.Unrooted)
    (h : Registry.step s.registry a = some r) (hat : main.At img (r.pc img.server))
    (hasserts : main ≠ .aborted) : Inv img { s with registry := r, main := main } := by
  have hheld := I.posts.held (Main.named_of_rooted hroot)
  exact ⟨I.clients.congr (iff_of_false (Main.named_of_rooted hroot') (Main.named_of_rooted hroot))
      (iff_of_false hroot' hroot),
    ⟨I.posts.served.step (.of_held I.posts.served hheld) h,
      fun f => .inl ((step_frame h).2 (hheld f)), hat, fun hr => absurd hr hroot', hasserts⟩⟩

theorem Inv.own_bootstrap (I : Inv img s) (hroot : ¬ s.main.Unrooted) (opened joined : Bool) :
    (s.enter opened joined (s.client img.server)).2 = some img.funcs ∧
      (s.enter opened joined (s.client img.server)).1.locals = [.registry] ∧
      (s.enter opened joined (s.client img.server)).1.loc = .idle := by
  have C := I.clients
  obtain ⟨hlocals, hidle⟩ := C.server
  have hname := C.named (Main.named_of_rooted hroot)
  unfold State.enter
  split
  · rename_i hretval
    refine ⟨?_, hlocals, hidle⟩
    rcases C.retval img.server with h0 | ⟨hfuncs, -⟩
    · exact absurd h0 hretval
    · rw [hfuncs]
  · rw [hlocals]
    have hhead : [Local.registry].head?.bind s.nameOf = some registryName := hname
    rw [if_pos hhead]
    refine ⟨?_, rfl, hidle⟩
    show some s.userRoot = _
    rw [C.rooted hroot]

theorem Inv.main (I : Inv img s) {opened joined : Bool}
    (h : subcontextMain img opened joined s = some t) : Inv img t := by
  have C := I.clients
  have P := I.posts
  have hat := P.main_at
  unfold subcontextMain at h
  split at h
  · -- the next post begins
    rename_i f left hmain hpc
    obtain ⟨r, hr, rfl⟩ := Option.map_eq_some_iff.mp h
    have hcall := hr
    simp only [Registry.step] at hcall
    split at hcall
    · obtain rfl := Option.some.inj hcall
      have hnew : (s.registry.goto img.server (.postCheck f.name (img.address f))).pc img.server =
          .postCheck f.name (img.address f) := Function.update_self ..
      refine I.post hmain rfl hr (.inr ⟨f, ?_⟩) (fun g hg => ?_) fun g hg => ?_
      · rw [hnew]
        exact ⟨rfl, rfl⟩
      · rcases List.mem_cons.mp hg with rfl | hg
        · rw [hnew]
          exact .inr ⟨rfl, rfl⟩
        · exact .inl hg
      · rw [hpc] at hg
        exact hg.elim
    · cases hcall
  · -- the duplicate check
    rename_i left name sym hmain hpc
    obtain ⟨r, hr, rfl⟩ := Option.map_eq_some_iff.mp h
    have hcall := hr
    rw [hmain, hpc] at hat
    obtain ⟨f, hname, hsym⟩ := hat.resolve_left (by simp)
    simp only [Registry.step, hpc] at hcall
    split at hcall
    · rename_i hfound
      obtain rfl := Option.some.inj hcall
      refine I.post hmain rfl hr (.inl (Function.update_self ..)) (fun g hg => .inl hg) fun g hg => ?_
      rw [hpc] at hg
      refine .inl (List.mem_map.mpr ⟨_, Registry.findEntry_mem hfound, hg.1⟩)
    · obtain rfl := Option.some.inj hcall
      have hnew : (s.registry.goto img.server (.postMalloc name sym)).pc img.server =
          .postMalloc name sym := Function.update_self ..
      refine I.post hmain rfl hr (.inr ⟨f, ?_⟩) (fun g hg => .inl hg) fun g hg => .inr ?_
      · rw [hnew]
        exact ⟨hname, hsym⟩
      · rw [hnew]
        rw [hpc] at hg
        exact hg
  · rename_i left name sym hmain hpc
    obtain ⟨r, hr, rfl⟩ := Option.map_eq_some_iff.mp h
    have hcall := hr
    rw [hmain, hpc] at hat
    obtain ⟨f, hname, hsym⟩ := hat.resolve_left (by simp)
    simp only [Registry.step, hpc] at hcall
    obtain rfl := Option.some.inj hcall
    have hnew : (s.registry.goto img.server (.postInsert name sym)).pc img.server =
        .postInsert name sym := Function.update_self ..
    refine I.post hmain rfl hr (.inr ⟨f, ?_⟩) (fun g hg => .inl hg) fun g hg => .inr ?_
    · rw [hnew]
      exact ⟨hname, hsym⟩
    · rw [hnew]
      rw [hpc] at hg
      exact hg
  · -- the entry is inserted
    rename_i left name sym hmain hpc
    obtain ⟨r, hr, rfl⟩ := Option.map_eq_some_iff.mp h
    have hcall := hr
    simp only [Registry.step, hpc] at hcall
    obtain rfl := Option.some.inj hcall
    refine I.post hmain rfl hr (.inl (Function.update_self ..)) (fun g hg => .inl hg) fun g hg => ?_
    rw [hpc] at hg
    exact .inl (List.mem_map.mpr ⟨_, List.mem_cons_self .., hg.1⟩)
  · -- the name is set behind the last post
    rename_i hmain hpc
    obtain rfl := Option.some.inj h
    have hunrooted : s.main.Unrooted := by
      rw [hmain]
      trivial
    refine ⟨⟨fun _ => rfl, fun h => absurd trivial h, fun _ => C.unrooted hunrooted, C.retval,
      C.genuine, C.once, C.inside, C.server, C.returned⟩,
      ⟨P.served, fun f => .inl ?_, hpc, fun _ => P.quiet hunrooted, fun h => by cases h⟩⟩
    rcases P.posted f with hf | ⟨left, hmain₀, hf⟩
    · exact hf
    · obtain rfl := Main.post.inj (hmain.symm.trans hmain₀)
      rw [hpc] at hf
      rcases hf with hf | hf
      · cases hf
      · exact hf.elim
  · -- `user_root` is set
    rename_i hmain
    obtain rfl := Option.some.inj h
    have hunrooted : s.main.Unrooted := by
      rw [hmain]
      trivial
    have hnamed : ¬ s.main.Unnamed := by
      rw [hmain]
      exact id
    have hretval : ∀ p, (s.client p).retval = 0 := by
      intro p
      rcases C.retval p with h0 | ⟨hfuncs, -⟩
      · exact h0
      · exact absurd hunrooted (C.rooted_of_retval hfuncs)
    rw [hmain] at hat
    exact ⟨⟨fun _ => C.named hnamed, fun _ => rfl, fun h => h.elim, fun p => .inl (hretval p),
      C.genuine, C.once, C.inside, C.server, C.returned⟩,
      ⟨P.served, fun f => .inl (P.held hnamed f), hat, fun h => h.elim, fun h => by cases h⟩⟩
  · -- the registry's own bootstrap
    rename_i hmain
    have hroot : ¬ s.main.Unrooted := by
      rw [hmain]
      exact id
    obtain ⟨hown, hlocals, hidle⟩ := I.own_bootstrap hroot opened joined
    obtain ⟨hfine, hreturned⟩ := C.enter C.server.2 opened joined
    generalize s.enter opened joined (s.client img.server) = cr at h hown hlocals hidle hfine hreturned
    obtain ⟨c, r⟩ := cr
    obtain rfl : r = some img.funcs := hown
    obtain rfl := Option.some.inj h
    have J : Clients img ((s.set img.server c).return img.server (some img.funcs)) :=
      (C.set hfine fun _ => ⟨hlocals, hidle⟩).return hreturned
    rw [if_pos rfl]
    rw [hmain] at hat
    have hheld := P.held (Main.named_of_rooted hroot)
    exact ⟨J.congr (iff_of_false id (Main.named_of_rooted hroot)) (iff_of_false id hroot),
      ⟨P.served, fun f => .inl (hheld f), hat, fun h => h.elim, fun h => by cases h⟩⟩
  · -- the next assertion begins
    rename_i f left hmain hpc
    obtain ⟨r, hr, rfl⟩ := Option.map_eq_some_iff.mp h
    have hcall := hr
    simp only [Registry.step, hpc, if_true] at hcall
    obtain rfl := Option.some.inj hcall
    refine I.assertion (by rw [hmain]; exact id) id hr ?_ (fun h => by cases h)
    exact Function.update_self ..
  · -- the function is found under its name
    rename_i f left name hmain hpc
    obtain ⟨r, hr, rfl⟩ := Option.map_eq_some_iff.mp h
    have hcall := hr
    simp only [Registry.step, hpc] at hcall
    obtain rfl := Option.some.inj hcall
    have hroot : ¬ s.main.Unrooted := by
      rw [hmain]
      exact id
    rw [hmain, hpc] at hat
    obtain rfl := Registry.Pc.find.inj hat
    rw [if_pos (findEntry_name P.served.list (P.held (Main.named_of_rooted hroot) f))]
    exact I.assertion hroot id hr (Function.update_self ..) fun h => by cases h
  · rename_i hmain hpc
    obtain rfl := Option.some.inj h
    have hroot : ¬ s.main.Unrooted := by
      rw [hmain]
      exact id
    have hheld := P.held (Main.named_of_rooted hroot)
    exact ⟨C.congr (iff_of_false id (Main.named_of_rooted hroot)) (iff_of_false id hroot),
      ⟨P.served, fun f => .inl (hheld f), hpc, fun h => h.elim, fun h => by cases h⟩⟩
  · cases h

theorem Inv.client (I : Inv img s) {p : Pid} {c : Client} {r : Option Nat} (hp : p ≠ img.server)
    (hc : c.Fine img s) (hr : ∀ root, r = some root → root = 0 ∨ root = img.funcs) :
    Inv img ((s.set p c).return p r) := by
  have J : Clients img ((s.set p c).return p r) :=
    (I.clients.set hc fun h => absurd h hp).return hr
  have P := I.posts
  refine ⟨J, ?_⟩
  cases r <;> exact ⟨P.served, P.posted, P.main_at, P.quiet, P.asserts⟩

theorem Inv.not_server (I : Inv img s) {p : Pid} (h : (s.client p).loc ≠ .idle) :
    p ≠ img.server := by
  rintro rfl
  exact h I.clients.server.2

theorem Inv.step (I : Inv img s) {a : Action} (hok : Genuine s a)
    (h : Bootstrap.step img s a = some t) : Inv img t := by
  cases a with
  | main opened joined => exact I.main h
  | bootstrap p opened joined =>
    simp only [Bootstrap.step] at h
    split at h
    · rename_i hp
      obtain rfl := Option.some.inj h
      obtain ⟨hfine, hreturned⟩ := I.clients.enter hp.2.1 opened joined
      exact I.client hp.1 hfine hreturned
    · cases h
  | assertName p =>
    simp only [Bootstrap.step] at h
    split at h
    · rename_i hloc
      obtain rfl := Option.some.inj h
      have hbusy : (s.client p).loc ≠ .idle := by
        rw [hloc]
        exact fun h => by cases h
      have F := I.clients.fine p
      exact I.client (I.not_server hbusy) ⟨F.retval, F.genuine, F.once, fun _ => F.inside hbusy⟩
        (r := none) fun _ h => by cases h
    · cases h
  | readRoot p =>
    simp only [Bootstrap.step] at h
    split at h
    · rename_i hloc
      obtain rfl := Option.some.inj h
      have hbusy : (s.client p).loc ≠ .idle := by
        rw [hloc]
        exact fun h => by cases h
      have F := I.clients.fine p
      refine I.client (I.not_server hbusy) ⟨?_, F.genuine, F.once, fun h => absurd rfl h⟩
        fun root h => ?_
      · exact I.clients.userRoot_cases.imp_right fun hfuncs => ⟨hfuncs, hfuncs, (F.inside hbusy).1⟩
      · obtain rfl := Option.some.inj h
        exact I.clients.userRoot_cases
    · cases h
  | join p name root =>
    simp only [Bootstrap.step] at h
    split at h
    · rename_i hp
      obtain rfl := Option.some.inj h
      have F := I.clients.fine p
      refine I.client hp.1 ⟨?_, fun name' root' h => ?_, ?_, fun h => absurd hp.2.1 h⟩
        (r := none) fun _ h => by cases h
      · exact F.retval.imp_right fun ⟨hfuncs, hroot, hmem⟩ =>
          ⟨hfuncs, hroot, List.mem_cons_of_mem _ hmem⟩
      · rcases List.mem_cons.mp h with h | h
        · obtain ⟨rfl, -⟩ := Local.other.inj h
          exact hok
        · exact F.genuine name' root' h
      · show List.count Local.registry (Local.other name root :: (s.client p).locals) ≤ 1
        rw [List.count_cons_of_ne (fun h => by cases h)]
        exact F.once
    · cases h
  | registry a =>
    simp only [Bootstrap.step] at h
    split at h
    · rename_i hp
      obtain ⟨r, hr, rfl⟩ := Option.map_eq_some_iff.mp h
      exact I.registry hr hp.1 fun hb => (hp.2 hb).2
    · cases h

end Steps
end Subcontexts.Bootstrap
