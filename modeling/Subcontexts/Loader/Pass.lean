import Subcontexts.Loader.Model
import Subcontexts.Region.Sharing

/-! What one pass over the maps file does to the region table: which lines it imports, in which
order their regions stand on the active list, and where their bytes go in the backing file. -/

namespace Subcontexts.Loader
open Region
variable {pg : PageSize} {fp : FirstPage pg}

def Priv.skips (priv : Priv) (line : Line) : Prop :=
  line.isOf priv.ignoreFile1 ∨ line.isOf priv.ignoreFile2 ∨ line.isBracketed ∨
    priv.rwPOnly ∧ (line.isR = false ∨ line.isW = false ∨ line.isX ∨ line.isP = false)

instance (priv : Priv) (line : Line) : Decidable (priv.skips line) :=
  inferInstanceAs (Decidable (_ ∨ _))

def Priv.kept (priv : Priv) (cs : List Callback) : List Line :=
  (cs.map Prod.fst).filter fun line => ¬ priv.skips line

def hiddenLines (lines : List Line) : List Line := lines.filter fun line => line.isR = false

def copiedLines (lines : List Line) : List Line := lines.filter fun line => line.isR = true

def Line.hidden (line : Line) : Extent := ⟨line.start, line.len, protNone, noOffset⟩

/-- The regions of the lines, one behind the other in the file. -/
def placed : Nat → List Line → List Extent
  | _, [] => []
  | offset, line :: lines =>
    ⟨line.start, line.len, line.prot, offset⟩ :: placed (u64 (offset + line.len)) lines

def placedEnd (offset : Nat) (lines : List Line) : Nat :=
  lines.foldl (fun offset line => u64 (offset + line.len)) offset

inductive Imports (fp : FirstPage pg) : List Callback → Priv → Priv → Prop where
  | nil (priv : Priv) : Imports fp [] priv priv
  | skip {line : Line} {answers : Answers} {cs : List Callback} {priv priv' : Priv} :
    priv.skips line → Imports fp cs priv priv' → Imports fp ((line, answers) :: cs) priv priv'
  | hide {line : Line} {answers : Answers} {cs : List Callback} {priv priv' : Priv} {world : World} :
    ¬ priv.skips line → line.isR = false →
    scImportProtNone fp answers priv.world line.start line.len = .ok (0, world) →
    Imports fp cs { priv with world := world, importCount := priv.importCount + 1 } priv' →
    Imports fp ((line, answers) :: cs) priv priv'
  | copy {line : Line} {answers : Answers} {cs : List Callback} {priv priv' : Priv} {world : World} :
    ¬ priv.skips line → line.isR = true →
    scImport fp answers (fp.regionsCount + 1) priv.world line.start line.len line.prot =
      .ok (0, world) →
    Imports fp cs { priv with world := world, importCount := priv.importCount + 1 } priv' →
    Imports fp ((line, answers) :: cs) priv priv'

section Callback
variable {line : Line} {answers : Answers} {priv priv' : Priv} {go : Bool}

theorem mapScanCallback_cases (h : mapScanCallback fp (line, answers) priv = .ok (go, priv')) :
    priv.skips line ∧ go = true ∧ priv' = priv ∨
      ¬ priv.skips line ∧ ∃ rc world, (go, priv') = priv.imported rc world ∧
        (line.isR = false ∧
            scImportProtNone fp answers priv.world line.start line.len = .ok (rc, world) ∨
          line.isR = true ∧ scImport fp answers (fp.regionsCount + 1) priv.world line.start
            line.len line.prot = .ok (rc, world)) := by
  unfold mapScanCallback at h
  dsimp only at h
  split at h
  · rename_i hfile
    obtain ⟨-, -, h⟩ := bind_eq_ok.mp h
    obtain ⟨rfl, rfl⟩ := Prod.mk.inj (Except.ok.inj h)
    exact .inl ⟨.inl hfile, rfl, rfl⟩
  rename_i hfile1
  split at h
  · rename_i hfile
    obtain ⟨-, -, h⟩ := bind_eq_ok.mp h
    obtain ⟨rfl, rfl⟩ := Prod.mk.inj (Except.ok.inj h)
    exact .inl ⟨.inr (.inl hfile), rfl, rfl⟩
  rename_i hfile2
  obtain ⟨-, -, h⟩ := bind_eq_ok.mp h
  split at h
  · rename_i hbracket
    obtain ⟨rfl, rfl⟩ := Prod.mk.inj (Except.ok.inj h)
    exact .inl ⟨.inr (.inr (.inl hbracket)), rfl, rfl⟩
  rename_i hbracket
  split at h
  · rename_i hrw
    obtain ⟨rfl, rfl⟩ := Prod.mk.inj (Except.ok.inj h)
    exact .inl ⟨.inr (.inr (.inr hrw)), rfl, rfl⟩
  rename_i hrw
  have hkept : ¬ priv.skips line := fun hskips => by
    rcases hskips with h | h | h | h
    · exact hfile1 h
    · exact hfile2 h
    · exact hbracket h
    · exact hrw h
  split at h
  · rename_i hread
    obtain ⟨-, -, h⟩ := bind_eq_ok.mp h
    obtain ⟨-, -, h⟩ := bind_eq_ok.mp h
    obtain ⟨⟨rc, world⟩, himport, h⟩ := bind_eq_ok.mp h
    exact .inr ⟨hkept, rc, world, (Except.ok.inj h).symm, .inl ⟨hread, himport⟩⟩
  · rename_i hread
    obtain ⟨⟨rc, world⟩, himport, h⟩ := bind_eq_ok.mp h
    exact .inr ⟨hkept, rc, world, (Except.ok.inj h).symm, .inr ⟨by simpa using hread, himport⟩⟩

theorem Priv.imported_go {rc : Int} {world : World} (h : (true, priv') = priv.imported rc world) :
    rc = 0 ∧ priv' = { priv with world := world, importCount := priv.importCount + 1 } := by
  unfold Priv.imported at h
  split at h
  · cases h
  · rename_i hrc
    exact ⟨Decidable.of_not_not hrc, (Prod.mk.inj h).2⟩

theorem Priv.imported_stop {rc : Int} {world : World} (h : (false, priv') = priv.imported rc world) :
    priv'.kill = true := by
  unfold Priv.imported at h
  split at h
  · rw [(Prod.mk.inj h).2]
  · cases h

theorem ParseProcMaps.Walks.imports {parse : ParseProcMaps} (W : parse.Walks) {cs : List Callback}
    {r : Int × Priv} (h : parse cs (mapScanCallback fp) priv = .ok r) (hkill : r.2.kill = false) :
    Imports fp cs priv r.2 := by
  induction cs generalizing priv r with
  | nil =>
    rw [W.nil _ _ _ h]
    exact .nil priv
  | cons c cs ih =>
    obtain ⟨go, priv', hcb, hrest⟩ := W.cons _ _ _ _ _ h
    obtain ⟨line, answers⟩ := c
    cases go with
    | false =>
      have hlast : r.2 = priv' := hrest
      rcases mapScanCallback_cases hcb with ⟨-, hgo, -⟩ | ⟨-, rc, world, himported, -⟩
      · cases hgo
      · rw [hlast, Priv.imported_stop himported] at hkill
        cases hkill
    | true =>
      obtain ⟨r', hrun, hlast⟩ : ∃ r', parse cs (mapScanCallback fp) priv' = .ok r' ∧ r.2 = r'.2 :=
        hrest
      rw [hlast] at hkill ⊢
      have hrest := ih hrun hkill
      rcases mapScanCallback_cases hcb with
        ⟨hskips, -, rfl⟩ | ⟨hkept, rc, world, himported, hcall⟩
      · exact .skip hskips hrest
      · obtain ⟨rfl, rfl⟩ := Priv.imported_go himported
        rcases hcall with ⟨hread, hcall⟩ | ⟨hread, hcall⟩
        · exact .hide hkept hread hcall hrest
        · exact .copy hkept hread hcall hrest

end Callback

section Kept
variable {priv : Priv} {line : Line} {answers : Answers} {cs : List Callback}

theorem Priv.kept_skip (h : priv.skips line) : priv.kept ((line, answers) :: cs) = priv.kept cs :=
  List.filter_cons_of_neg (by simpa using h)

theorem Priv.kept_cons (h : ¬ priv.skips line) :
    priv.kept ((line, answers) :: cs) = line :: priv.kept cs :=
  List.filter_cons_of_pos (by simpa using h)

variable {lines : List Line}

theorem hiddenLines_hide (h : line.isR = false) :
    hiddenLines (line :: lines) = line :: hiddenLines lines := by
  unfold hiddenLines
  rw [List.filter_cons_of_pos (by simpa using h)]

theorem hiddenLines_copy (h : line.isR = true) : hiddenLines (line :: lines) = hiddenLines lines := by
  unfold hiddenLines
  rw [List.filter_cons_of_neg (by simp [h])]

theorem copiedLines_hide (h : line.isR = false) : copiedLines (line :: lines) = copiedLines lines := by
  unfold copiedLines
  rw [List.filter_cons_of_neg (by simp [h])]

theorem copiedLines_copy (h : line.isR = true) :
    copiedLines (line :: lines) = line :: copiedLines lines := by
  unfold copiedLines
  rw [List.filter_cons_of_pos (by simpa using h)]

end Kept

section Table
variable {cs : List Callback} {priv priv' : Priv} {l f : List Addr}

structure Tabled (fp : FirstPage pg) (s t : Sc) (l f : List Addr) (lines : List Line) : Prop where
  lists : ∃ first rest hidden copied f', l = first :: rest ∧ f.length = f'.length + lines.length ∧
    Lists fp t (first :: (hidden ++ rest ++ copied)) f' ∧
    hidden.map t.extent = ((hiddenLines lines).reverse).map Line.hidden ∧
    copied.map t.extent = placed s.tmpfileSize (copiedLines lines)
  size : t.tmpfileSize = placedEnd s.tmpfileSize (copiedLines lines)
  old : ∀ a ∈ l, t.extent a = s.extent a

theorem Lists.exists_cons (L : Lists fp priv.world.sc l f) : ∃ first rest, l = first :: rest := by
  cases l with
  | nil => exact absurd L.first (Option.some_ne_none _).symm
  | cons first rest => exact ⟨first, rest, rfl⟩

theorem Imports.tabled (h : Imports fp cs priv priv') (L : Lists fp priv.world.sc l f)
    (htwo : 2 ≤ l.length) :
    Tabled fp priv.world.sc priv'.world.sc l f (priv.kept cs) ∧
      priv'.importCount = priv.importCount + (priv.kept cs).length := by
  induction h generalizing l f with
  | nil priv =>
    obtain ⟨first, rest, rfl⟩ := Lists.exists_cons L
    refine ⟨⟨⟨first, rest, [], [], f, rfl, rfl, ?_, rfl, rfl⟩, rfl, fun _ _ => rfl⟩, rfl⟩
    rw [List.nil_append, List.append_nil]
    exact L
  | skip hskips _ ih =>
    rw [Priv.kept_skip hskips]
    exact ih L htwo
  | @hide line answers cs priv priv' world hkept hread hcall _ ih =>
    rw [Priv.kept_cons hkept]
    rcases scImportProtNone_spec L htwo hcall with
      ⟨hr, -⟩ | ⟨first, reg, rest, f', rfl, rfl, -, -, H, L'⟩
    · exact absurd rfl hr
    have hreg : reg ∉ first :: rest := L.free_notMem
    have hold : ∀ a ∈ first :: rest, world.sc.extent a = priv.world.sc.extent a := fun a ha =>
      H.others a fun h => hreg (h ▸ ha)
    obtain ⟨T, hcount⟩ := ih L' (Nat.le_succ_of_le htwo)
    obtain ⟨first', rest', hidden, copied, f'', heq, hlen, L'', hhidden, hcopied⟩ := T.lists
    obtain ⟨rfl, rfl⟩ := List.cons.inj heq
    have hreg' : priv'.world.sc.extent reg = line.hidden :=
      (T.old reg (List.mem_cons_of_mem _ (List.mem_cons_self ..))).trans H.region
    have hkeep : ∀ a ∈ first :: rest, a ∈ first :: reg :: rest := fun a ha =>
      (List.mem_cons.mp ha).elim (fun h => h ▸ List.mem_cons_self ..) fun h =>
        List.mem_cons_of_mem _ (List.mem_cons_of_mem _ h)
    refine ⟨⟨⟨first, rest, hidden ++ [reg], copied, f'', rfl, ?_, ?_, ?_, ?_⟩, ?_, fun a ha => ?_⟩, ?_⟩
    · rw [List.length_cons, hlen]
      rfl
    · rw [List.append_assoc hidden, List.singleton_append]
      exact L''
    · rw [hiddenLines_hide hread, List.reverse_cons, List.map_append, List.map_append, hhidden,
        List.map_singleton, List.map_singleton, hreg']
      rfl
    · rw [copiedLines_hide hread, ← H.size]
      exact hcopied
    · rw [copiedLines_hide hread, ← H.size]
      exact T.size
    · rw [T.old a (hkeep a ha), hold a ha]
    · rw [hcount, List.length_cons, Nat.add_assoc, Nat.add_comm 1]
      rfl
  | @copy line answers cs priv priv' world hkept hread hcall _ ih =>
    rw [Priv.kept_cons hkept]
    rcases scImport_spec L hcall with ⟨hr, -⟩ | ⟨reg, f', rfl, M, L', -⟩
    · exact absurd rfl hr
    have hreg : reg ∉ l := L.free_notMem
    have hold : ∀ a ∈ l, world.sc.extent a = priv.world.sc.extent a := fun a ha =>
      M.others a fun h => hreg (h ▸ ha)
    have hlen' : 2 ≤ (l ++ [reg]).length := by
      rw [List.length_append]
      exact Nat.le_add_right_of_le htwo
    obtain ⟨T, hcount⟩ := ih L' hlen'
    obtain ⟨first', rest', hidden, copied, f'', heq, hlen, L'', hhidden, hcopied⟩ := T.lists
    obtain ⟨first, rest, rfl⟩ := Lists.exists_cons L
    obtain ⟨rfl, rfl⟩ := List.cons.inj heq
    have hreg' : priv'.world.sc.extent reg = ⟨line.start, line.len, line.prot, priv.world.sc.tmpfileSize⟩ :=
      (T.old reg (List.mem_append_right _ (List.mem_singleton_self reg))).trans M.region
    refine ⟨⟨⟨first, rest, hidden, reg :: copied, f'', rfl, ?_, ?_, ?_, ?_⟩, ?_, fun a ha => ?_⟩, ?_⟩
    · rw [List.length_cons, hlen]
      rfl
    · have hassoc : hidden ++ rest ++ reg :: copied = hidden ++ (rest ++ [reg]) ++ copied := by simp
      rw [hassoc]
      exact L''
    · rw [hiddenLines_copy hread]
      exact hhidden
    · rw [copiedLines_copy hread, placed, List.map_cons, hreg', ← M.size]
      exact congrArg (_ :: ·) hcopied
    · rw [copiedLines_copy hread, placedEnd, List.foldl_cons, ← M.size]
      exact T.size
    · rw [T.old a (List.mem_append_left _ ha), hold a ha]
    · rw [hcount, List.length_cons, Nat.add_assoc, Nat.add_comm 1]
      rfl

end Table
end Subcontexts.Loader
