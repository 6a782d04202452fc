import Subcontexts.Loader.Program

/-! What the passes do, and what the program finds when `app_main` is called. -/

namespace Subcontexts.Loader
open Region
variable {pg : PageSize} {fp : FirstPage pg} {parse : ParseProcMaps}

section Table
variable {before after : Priv} {cs : List Callback}

/-- A pass puts the lines without access behind the first region, the last line foremost, and the
others at the end of the list, one behind the other in the file. -/
theorem pass_regions (W : parse.Walks) (h : Ran fp parse before cs after) :
    ∃ first rest hidden copied,
      (before.world.sc.links before.world.sc.activeRegions).Holds (first :: rest) ∧
      (after.world.sc.links after.world.sc.activeRegions).Holds
        (first :: (hidden ++ rest ++ copied)) ∧
      hidden.map after.world.sc.extent =
        ((hiddenLines (before.kept cs)).reverse).map Line.hidden ∧
      copied.map after.world.sc.extent =
        placed before.world.sc.tmpfileSize (copiedLines (before.kept cs)) ∧
      (∀ a ∈ first :: rest, after.world.sc.extent a = before.world.sc.extent a) ∧
      after.world.sc.tmpfileSize =
        placedEnd before.world.sc.tmpfileSize (copiedLines (before.kept cs)) ∧
      after.importCount = before.importCount + (before.kept cs).length := by
  obtain ⟨l, f, L, htwo⟩ := h.lists W
  obtain ⟨T, hcount⟩ := (h.imports W).tabled L htwo
  obtain ⟨first, rest, hidden, copied, f', rfl, -, L', hhidden, hcopied⟩ := T.lists
  exact ⟨first, rest, hidden, copied, L.active, L'.active, hhidden, hcopied, T.old, T.size, hcount⟩

end Table

section Memory
variable {before after : Priv} {cs : List Callback}

instance : Std.Symm Line.Beside := ⟨fun _ _ => Or.symm⟩

theorem Fresh.not_hidden {s : Sc} {l : List Addr} {rsv : Addr} {lines : List Line}
    (F : Fresh s l rsv lines) {line : Line} (hline : line ∈ copiedLines lines) {x : Nat}
    (hlo : line.start ≤ x) (hhi : x < line.end) :
    ∀ line' ∈ hiddenLines lines, ¬ (line'.start ≤ x ∧ x < line'.end) := by
  intro line' hline' hx
  obtain ⟨hmem, hread⟩ := List.mem_filter.mp hline
  obtain ⟨hmem', hread'⟩ := List.mem_filter.mp hline'
  have hne : line ≠ line' := fun h => by
    subst h
    rw [of_decide_eq_true hread] at hread'
    exact absurd hread' (by decide)
  have hbeside := F.apart.forall hmem hmem' hne
  unfold Line.Beside at hbeside
  omega

theorem Ready.joined {w : World} {l f : List Addr} {rsv : Addr} (R : Ready fp w l f rsv) {x b : Nat}
    {a : Addr} (ha : a ∈ l) (hback : FileBacked (w.sc.extent a)) (hlo : (w.sc.extent a).vaddr ≤ x)
    (hhi : x < (w.sc.extent a).vaddr + (w.sc.extent a).len)
    (hread : (w.sc.extent a).prot &&& protRead ≠ 0) (hx : read fp w w.space x = some b)
    {answers : JoinAnswers} {fuel : Nat} {own space : Space}
    (hjoin : scJoin pg answers fuel w.sc own = .ok (some space)) :
    load pg w.file w.fileSize space x = some b := by
  have T := R.sharing.shared
  have V : View w.sc l rsv w.space := T.views w.space (List.mem_cons_self ..)
  have hx' : Backs (w.sc.extent a) x _ := ⟨hback, hlo, hhi, rfl⟩
  have hbyte := V.read T.lists T.files T.unlocked T.fileSize ha hx' hread
  rw [← hx, hbyte]
  exact ((scJoin_maps T.lists T.files hjoin).1 a ha).load T.files T.fileSize ha hx' hread

/-- A pass changes no byte that the program can read, but for the lines it must not read; and of
the lines it imports, every process that joins reads what the program read there. -/
theorem pass_keeps_memory (W : parse.Walks) (h : Passed fp parse before cs after) :
    (∀ x b, before.world.load pg x = some b →
      (∀ line ∈ hiddenLines (before.kept cs), ¬ (line.start ≤ x ∧ x < line.end)) →
      after.world.load pg x = some b) ∧
    ∀ line ∈ copiedLines (before.kept cs), ∀ x b, line.start ≤ x → x < line.end →
      before.world.load pg x = some b →
      ∀ answers fuel own space,
        scJoin pg answers fuel after.world.sc own = .ok (some space) →
        load pg after.world.file after.world.fileSize space x = some b := by
  obtain ⟨l, f, rsv, R, F⟩ := h.ready W
  have I := h.imports W
  refine ⟨fun x b hx hhidden => I.load R F hx hhidden, fun line hline x b hlo hhi hx answers fuel own
    space hjoin => ?_⟩
  have hafter := I.load R F hx (F.not_hidden hline hlo hhi)
  obtain ⟨l', f', R', -, hstored⟩ := I.ready R F
  obtain ⟨a, ha, hread, offset, hoffset, hext⟩ := hstored line hline
  have hend := (F.user line (List.mem_filter.mp hline).1).len.2.2
  have hreads : read fp after.world after.world.space x = some b := by
    unfold Region.read
    unfold World.load at hafter
    rw [hafter]
  refine R'.joined ha ?_ ?_ ?_ ?_ hreads hjoin
  · rw [hext]
    exact hoffset
  · rw [hext]
    exact hlo
  · rw [hext]
    exact hend ▸ hhi
  · rw [hext]
    exact hread

end Memory

section Main
variable (fp parse)

def KeptSecond : Priv → List Found → Prop
  | _, [] => True
  | mid, found :: rest =>
    let before := mid.start true found.space
    Undisturbed mid.world found.space ∧ Listed (before.kept found.lines) ∧
      Private found.space (before.kept found.lines) ∧
      ∀ after, pass fp parse mid true found = .ok after → KeptSecond after rest

/-- The kernel keeps its promises for a run of `main`. -/
structure Kept (answers : MainAnswers) (fuel : Nat) (w₀ : World) (first : Found)
    (second : List Found) : Prop where
  granted : Granted fp answers.init w₀
  passes : ∀ w ignoreFile1 ignoreFile2, scInit fp answers.init fuel w₀ = .ok (some w) →
    answers.stat1 = some ignoreFile1 → answers.stat2 = some ignoreFile2 →
    let mid : Priv := ⟨w, false, ignoreFile1, ignoreFile2, 0, false⟩
    let before := mid.start false first.space
    Undisturbed w first.space ∧ Listed (before.kept first.lines) ∧
      Mapped w₀.space (before.kept first.lines) ∧
      ∀ after, pass fp parse mid false first = .ok after → KeptSecond fp parse after second

variable {fp parse}

def Finished (fp : FirstPage pg) (parse : ParseProcMaps) (priv : Priv) : Prop :=
  ∃ before cs, Passed fp parse before cs priv ∧ before.rwPOnly = true ∧ before.kept cs = []

theorem secondPasses_finished (W : parse.Walks) {second : List Found} {before mid priv : Priv}
    {cs : List Callback} (hmid : Passed fp parse before cs mid)
    (hkept : KeptSecond fp parse mid second)
    (h : secondPasses fp parse second mid = .ok (some priv)) : Finished fp parse priv := by
  induction second generalizing before mid cs with
  | nil => cases h
  | cons found rest ih =>
    obtain ⟨hspace, hlisted, hprivate, hrest⟩ := hkept
    rw [secondPasses] at h
    obtain ⟨after, hpass, h⟩ := bind_eq_ok.mp h
    split at h
    · cases h
    rename_i hkill
    have hafter := Passed.next hmid hspace rfl hlisted hprivate hpass (Bool.eq_false_iff.mpr hkill)
    split at h
    · exact ih hafter (hrest after hpass) h
    · rename_i hcount
      obtain rfl := Option.some.inj (Except.ok.inj h)
      obtain ⟨l, f, rsv, R, -⟩ := hafter.ready W
      obtain ⟨-, hnumber⟩ := (hafter.imports W).tabled R.sharing.shared.lists R.sharing.two
      have hzero : (mid.start true found.space).importCount = 0 := rfl
      refine ⟨_, _, hafter, rfl, List.length_eq_zero_iff.mp ?_⟩
      omega

theorem main_finished (W : parse.Walks) {answers : MainAnswers} {fuel : Nat} {w₀ : World}
    {argv argv' : List String} {first : Found} {second : List Found} {priv : Priv}
    (hkept : Kept fp parse answers fuel w₀ first second)
    (h : main fp parse answers fuel w₀ argv first second = .ok (.app priv argv')) :
    Finished fp parse priv ∧ argv' = (dropFileOption argv).tail := by
  unfold main at h
  dsimp only at h
  split at h
  · cases h
  split at h
  · cases h
  split at h
  · cases h
  split at h
  · cases h
  obtain ⟨started, hinit, h⟩ := bind_eq_ok.mp h
  cases started with
  | none => cases h
  | some w =>
    unfold importProgram at h
    dsimp only at h
    split at h
    · rename_i ignoreFile1 ignoreFile2 hstat1 hstat2
      obtain ⟨hspace, hlisted, hmapped, hrest⟩ := hkept.passes w _ _ hinit hstat1 hstat2
      split at h
      · cases h
      obtain ⟨mid, hpass, h⟩ := bind_eq_ok.mp h
      split at h
      · cases h
      rename_i hkill
      have hfirst := Passed.first hinit hkept.granted hspace rfl hlisted hmapped hpass
        (Bool.eq_false_iff.mpr hkill)
      obtain ⟨last, hsecond, h⟩ := bind_eq_ok.mp h
      cases last with
      | none => cases h
      | some priv' =>
        obtain ⟨rfl, rfl⟩ := Outcome.app.inj (Except.ok.inj h)
        exact ⟨secondPasses_finished W hfirst (hrest mid hpass) hsecond, rfl⟩
    · cases h

/-- When `app_main` is called the root is unlocked, no two regions share an address or a byte of the
file, a process that joins reads what the program reads, and the last maps file had nothing left. -/
theorem main_shares_program (W : parse.Walks) {answers : MainAnswers} {fuel : Nat} {w₀ : World}
    {argv argv' : List String} {first : Found} {second : List Found} {priv : Priv}
    (hkept : Kept fp parse answers fuel w₀ first second)
    (h : main fp parse answers fuel w₀ argv first second = .ok (.app priv argv')) :
    argv' = (dropFileOption argv).tail ∧ priv.world.sc.lock = false ∧
    Finished fp parse priv ∧
    ∃ l rsv, (priv.world.sc.links priv.world.sc.activeRegions).Holds l ∧
      priv.world.sc.reservedRegions = some rsv ∧
      (∀ a ∈ l, Apart (priv.world.sc.extent a) (priv.world.sc.extent rsv)) ∧
      (∀ a ∈ l, ∀ b ∈ l, a ≠ b → Apart (priv.world.sc.extent a) (priv.world.sc.extent b) ∧
        (FileBacked (priv.world.sc.extent a) → FileBacked (priv.world.sc.extent b) →
          FileApart (priv.world.sc.extent a) (priv.world.sc.extent b))) ∧
      ∀ a ∈ l, FileBacked (priv.world.sc.extent a) →
        (priv.world.sc.extent a).prot &&& protRead ≠ 0 →
        ∀ x b, (priv.world.sc.extent a).vaddr ≤ x →
          x < (priv.world.sc.extent a).vaddr + (priv.world.sc.extent a).len →
          read fp priv.world priv.world.space x = some b →
          ∀ answers fuel own space,
            scJoin pg answers fuel priv.world.sc own = .ok (some space) →
            load pg priv.world.file priv.world.fileSize space x = some b := by
  obtain ⟨hfinished, hargv⟩ := main_finished W hkept h
  obtain ⟨before, cs, hlast, -, -⟩ := id hfinished
  obtain ⟨l, f, rsv, R, F⟩ := hlast.ready W
  obtain ⟨l', f', R', -, -⟩ := (hlast.imports W).ready R F
  have T := R'.sharing.shared
  refine ⟨hargv, T.unlocked, hfinished, l', rsv, T.lists.active, T.files.reserved, T.files.free,
    fun a ha b hb hab => ⟨T.files.apart a ha b hb hab, T.files.fileApart a ha b hb hab⟩,
    fun a ha hback hread x b hlo hhi hx answers fuel own space hjoin => ?_⟩
  exact R'.joined ha hback hlo hhi hread hx hjoin

end Main

section Run

/-- `russ_parseProcMaps` as the sources use it. -/
def callEach : ParseProcMaps
  | [], _, priv => .ok (0, priv)
  | c :: cs, cb, priv => do
    let (go, priv) ← cb c priv
    if go then
      let (n, priv) ← callEach cs cb priv
      return (n + 1, priv)
    else return (1, priv)

theorem callEach_walks : ParseProcMaps.Walks callEach := by
  refine ⟨fun cb priv r h => ?_, fun c cs cb priv r h => ?_⟩
  · rw [← Except.ok.inj h]
  · obtain ⟨⟨go, priv'⟩, hcb, h⟩ := bind_eq_ok.mp h
    refine ⟨go, priv', hcb, ?_⟩
    cases go with
    | false =>
      rw [← Except.ok.inj h]
      rfl
    | true =>
      obtain ⟨⟨n, last⟩, hrest, h⟩ := bind_eq_ok.mp h
      refine ⟨(n, last), hrest, ?_⟩
      rw [← Except.ok.inj h]

def narrowPage64 : FirstPage page64 :=
  ⟨0x10000, 16, 4, 8, firstPage64.aligned, firstPage64.below, Nat.zero_lt_succ 3,
    Nat.le_of_ble_eq_true rfl⟩

def programWorld : World :=
  { emptyWorld with space := [⟨0x400000, 64, .anon 3 fun i => i⟩, ⟨0x400040, 64, .noAccess⟩] }

def exeLine : Line := ⟨0x1000, 0x2000, true, false, true, true, 8, 100, none⟩

def dataLine : Line := ⟨0x400000, 0x400040, true, true, false, true, 8, 7, none⟩

def guardLine : Line := ⟨0x400040, 0x400080, false, false, false, true, 8, 7, none⟩

def stackLine : Line := ⟨0x7000000, 0x7001000, true, true, false, true, 0, 0, some [91, 115]⟩

def backingLine : Line := ⟨0x400000, 0x400040, true, true, false, false, 8, 200, none⟩

def firstFound : Found where
  space := ⟨0x100000, reservedLen, .noAccess⟩ :: ⟨0x10000, 64, .file 3 0⟩ :: programWorld.space
  lines := [exeLine, dataLine, guardLine, stackLine].map (·, granted)

def secondFound : Found where
  space := ⟨0x400040, 64, .noAccess⟩ :: ⟨0x400000, 64, .file 3 192⟩ :: firstFound.space
  lines := [exeLine, backingLine, guardLine, stackLine].map (·, granted)

def mainAnswers : MainAnswers :=
  ⟨true, true, true, initAnswers, some ⟨8, 100, true⟩, some ⟨8, 200, true⟩⟩

theorem program_granted : Granted narrowPage64 mainAnswers.init programWorld := by
  refine ⟨by decide, fun area h => ?_⟩
  obtain rfl := Option.some.inj h
  exact ⟨⟨by decide, by decide, .inl (by decide)⟩, by decide⟩

theorem undisturbed_of_eq {w : World} {space : Space} (h : w.space = space) : Undisturbed w space :=
  fun _ _ _ _ x _ => congrArg (AddressSpace.cell · x) h.symm

theorem listed_program : Listed [dataLine, guardLine] := by
  refine ⟨fun line h => ?_, List.pairwise_pair.mpr (.inl (Nat.le_refl _))⟩
  rcases List.mem_cons.mp h with rfl | h
  · exact ⟨by decide, by decide⟩
  · obtain rfl := List.mem_singleton.mp h
    exact ⟨by decide, by decide⟩

theorem mapped_program : Mapped programWorld.space [dataLine, guardLine] := by
  intro line h x hlo hhi
  rcases List.mem_cons.mp h with rfl | h
  · exact AddressSpace.cell_ne_none (List.mem_cons_self ..) ⟨hlo, hhi⟩
  · obtain rfl := List.mem_singleton.mp h
    exact AddressSpace.cell_ne_none (List.mem_cons_of_mem _ (List.mem_cons_self ..)) ⟨hlo, hhi⟩

theorem program_passed : ∃ w after, scInit narrowPage64 initAnswers 10 programWorld = .ok (some w) ∧
    w.space = firstFound.space ∧ pass narrowPage64 callEach
      ⟨w, false, ⟨8, 100, true⟩, ⟨8, 200, true⟩, 0, false⟩ false firstFound = .ok after ∧
    after.kill = false ∧ after.world.space = secondFound.space ∧
    (after.start true secondFound.space).kept secondFound.lines = [] ∧
    (∃ space, scJoin page64 joinGranted 12 after.world.sc [] = .ok (some space)) ∧
    Passed narrowPage64 callEach
      (Priv.start ⟨w, false, ⟨8, 100, true⟩, ⟨8, 200, true⟩, 0, false⟩ false firstFound.space)
      firstFound.lines after := by
  obtain ⟨w, hinit, hspace, after, hpass, hkill, hspace', hkept, hjoin⟩ :
      ∃ w, scInit narrowPage64 initAnswers 10 programWorld = .ok (some w) ∧
        w.space = firstFound.space ∧ ∃ after, pass narrowPage64 callEach
          ⟨w, false, ⟨8, 100, true⟩, ⟨8, 200, true⟩, 0, false⟩ false firstFound = .ok after ∧
        after.kill = false ∧ after.world.space = secondFound.space ∧
        (after.start true secondFound.space).kept secondFound.lines = [] ∧
        ∃ space, scJoin page64 joinGranted 12 after.world.sc [] = .ok (some space) :=
    ⟨_, rfl, rfl, _, rfl, rfl, rfl, rfl, _, rfl⟩
  exact ⟨w, after, hinit, hspace, hpass, hkill, hspace', hkept, hjoin,
    .first hinit program_granted (undisturbed_of_eq hspace) rfl listed_program mapped_program hpass
      hkill⟩

theorem pass_regions_program : ∃ before cs after, Ran narrowPage64 callEach before cs after ∧
    before.kept cs = [dataLine, guardLine] ∧ after.importCount = 2 := by
  obtain ⟨w, after, hinit, -, hpass, hkill, -⟩ := program_passed
  have hranges : ∀ area, initAnswers.area = some area → Ranges narrowPage64 area := fun area h =>
    (program_granted.area area h).1
  have hran : Ran narrowPage64 callEach _ _ after :=
    .first ⟨initAnswers, 10, programWorld, hranges, hinit⟩ hpass hkill
  obtain ⟨-, -, -, -, -, -, -, -, -, -, hcount⟩ := pass_regions callEach_walks hran
  exact ⟨_, _, after, hran, rfl, hcount⟩

/-- A process that joins reads the data of the program. -/
theorem pass_keeps_memory_program : ∃ before cs after space,
    Passed narrowPage64 callEach before cs after ∧
    scJoin page64 joinGranted 12 after.world.sc [] = .ok (some space) ∧
    load page64 after.world.file after.world.fileSize space 0x400007 = some 7 := by
  obtain ⟨w, after, -, hspace, -, -, -, -, ⟨space, hjoin⟩, hpassed⟩ := program_passed
  refine ⟨_, _, after, space, hpassed, hjoin, ?_⟩
  have hline : dataLine ∈ copiedLines [dataLine, guardLine] := List.mem_cons_self ..
  exact (pass_keeps_memory callEach_walks hpassed).2 dataLine hline 0x400007 7 (by decide)
    (by decide) rfl _ _ _ _ hjoin

theorem main_shares_program_program : ∃ priv argv',
    main narrowPage64 callEach mainAnswers 10 programWorld ["init", "libapp.so", "x"] firstFound
      [secondFound] = .ok (.app priv argv') ∧
    argv' = ["libapp.so", "x"] ∧ priv.world.sc.lock = false := by
  obtain ⟨priv, argv', hmain⟩ : ∃ priv argv', main narrowPage64 callEach mainAnswers 10 programWorld
      ["init", "libapp.so", "x"] firstFound [secondFound] = .ok (.app priv argv') := ⟨_, _, rfl⟩
  have hkept : Kept narrowPage64 callEach mainAnswers 10 programWorld firstFound [secondFound] := by
    refine ⟨program_granted, fun w _ _ hinit hstat1 hstat2 => ?_⟩
    obtain rfl := Option.some.inj hstat1
    obtain rfl := Option.some.inj hstat2
    obtain ⟨w', after, hinit', hspace, hpass, -, hspace', hnone, -, -⟩ := program_passed
    obtain rfl := Option.some.inj (Except.ok.inj (hinit'.symm.trans hinit))
    refine ⟨undisturbed_of_eq hspace, listed_program, mapped_program, fun after' hpass' => ?_⟩
    obtain rfl := Except.ok.inj (hpass.symm.trans hpass')
    refine ⟨undisturbed_of_eq hspace', hnone ▸ ⟨?_, List.Pairwise.nil⟩, hnone ▸ ?_, fun _ _ => trivial⟩
    · exact fun line h => absurd h List.not_mem_nil
    · exact fun line h => absurd h List.not_mem_nil
  obtain ⟨hargv, hlock, -⟩ := main_shares_program callEach_walks hkept hmain
  exact ⟨priv, argv', hmain, hargv, hlock⟩

end Run
end Subcontexts.Loader
