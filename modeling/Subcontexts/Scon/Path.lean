import Subcontexts.Lib.CString
import Mathlib.Data.UInt

/-! The path that `scon_create` hands to `dlopen`: how `abspath` is filled and what a reader of it
finds. -/

namespace Subcontexts.Scon

def pathMax : Nat := 4096

def slash : CString UInt8 := ⟨[47], by decide⟩

/-- `getcwd(abspath, sizeof(abspath))`; a path that does not fit leaves the buffer as it was. The call
succeeds where the path fits: a working directory that was removed is left out. -/
def getcwd (cwd : CString UInt8) (abspath : Block UInt8) : Block UInt8 :=
  (abspath.write? 0 (cwd.chars ++ [0])).getD abspath

/-- `abspath` as `scon_create` fills it; `none` where a function leaves the buffer. -/
def fillAbspath (cwd libpath : CString UInt8) (abspath : Block UInt8) : Option (Block UInt8) :=
  if libpath.chars.head? = some 47 then
    -- `memcpy(abspath, libpath, strlen(libpath))`
    abspath.write? 0 libpath.chars
  else
    ((getcwd cwd abspath).strcat slash).bind fun buffer => buffer.strcat libpath

def dlopenPath (cwd libpath : CString UInt8) (abspath : Block UInt8) : Option (List UInt8) :=
  (fillAbspath cwd libpath abspath).bind Block.cstring

def requestedPath (cwd libpath : CString UInt8) : List UInt8 :=
  if libpath.chars.head? = some 47 then libpath.chars else cwd.chars ++ slash.chars ++ libpath.chars

section Paths
variable {cwd libpath : CString UInt8} {abspath : Block UInt8}

theorem getcwd_isString (hfit : cwd.chars.length < abspath.room) :
    (getcwd cwd abspath).room = abspath.room ∧ (getcwd cwd abspath).IsString cwd.chars := by
  obtain ⟨c, hc, hroom, hstr⟩ : ∃ c, abspath.write? 0 (cwd.chars ++ [0]) = some c ∧
      c.room = abspath.room ∧ c.IsString ([] ++ cwd.chars) := by
    apply Block.IsString.append rfl List.not_mem_nil
    · exact fun k hk => absurd hk (Nat.not_lt_zero k)
    · rwa [List.length_nil, Nat.zero_add]
  unfold getcwd
  rw [hc]
  exact ⟨hroom, hstr⟩

theorem dlopenPath_relative (hrel : libpath.chars.head? ≠ some 47)
    (hfit : (requestedPath cwd libpath).length < abspath.room) :
    dlopenPath cwd libpath abspath = some (requestedPath cwd libpath) := by
  unfold requestedPath at hfit ⊢
  rw [if_neg hrel] at hfit ⊢
  simp only [List.length_append] at hfit
  obtain ⟨hroom, hcwd⟩ := @getcwd_isString cwd abspath (by omega)
  obtain ⟨b, hb, hbroom, hbstr⟩ := hcwd.strcat slash (by omega)
  obtain ⟨c, hc, -, hcstr⟩ := hbstr.strcat libpath (by rw [List.length_append]; omega)
  unfold dlopenPath fillAbspath
  rw [if_neg hrel, hb, Option.bind_some, hc, Option.bind_some]
  exact Block.cstring_eq_some_iff.mpr hcstr

theorem dlopenPath_absolute_iff (habs : libpath.chars.head? = some 47)
    (hfit : libpath.chars.length < abspath.room) :
    dlopenPath cwd libpath abspath = some libpath.chars ↔
      abspath.entry libpath.chars.length = 0 := by
  obtain ⟨c, hc, -⟩ := Block.write?_of_le (b := abspath) (i := 0) libpath.chars (by omega)
  unfold dlopenPath fillAbspath
  rw [if_pos habs, hc, Option.bind_some, Block.cstring_eq_some_iff]
  exact Block.isString_write_iff hc hfit

end Paths

/-- `dlopen` reads the path asked for unless that is absolute and the byte of the buffer behind it
is not zero. -/
theorem dlopen_path_iff (cwd libpath : CString UInt8) (abspath : Block UInt8)
    (hroom : abspath.room = pathMax)
    (hfit : (requestedPath cwd libpath).length + 1 ≤ pathMax) :
    dlopenPath cwd libpath abspath = some (requestedPath cwd libpath) ↔
      (libpath.chars.head? = some 47 → abspath.entry libpath.chars.length = 0) := by
  rw [← hroom] at hfit
  by_cases habs : libpath.chars.head? = some 47
  · have hreq : requestedPath cwd libpath = libpath.chars := if_pos habs
    rw [hreq] at hfit ⊢
    rw [dlopenPath_absolute_iff habs hfit]
    exact ⟨fun h _ => h, fun h => h habs⟩
  · exact iff_of_true (dlopenPath_relative habs hfit) fun h => absurd h habs

def testLibrary : CString UInt8 := ⟨[46, 47, 108, 105, 98], by decide⟩

def testDirectory : CString UInt8 := ⟨[47, 116, 109, 112], by decide⟩

def oldStack : Block UInt8 := ⟨pathMax, fun _ => 65⟩

theorem dlopen_path_iff_relative :
    dlopenPath testDirectory testLibrary oldStack =
      some (requestedPath testDirectory testLibrary) := by
  refine (dlopen_path_iff testDirectory testLibrary oldStack rfl ?_).mpr ?_ <;> decide

/-- The path `/tmp` in a buffer of old bytes. -/
theorem dlopen_path_fails :
    ¬ ∀ (cwd libpath : CString UInt8) (abspath : Block UInt8), libpath.chars ≠ [] →
      abspath.room = pathMax → (requestedPath cwd libpath).length + 1 ≤ pathMax →
      dlopenPath cwd libpath abspath = some (requestedPath cwd libpath) := by
  intro H
  have hpath := H testDirectory testDirectory oldStack (by decide) rfl (by decide)
  have hnul : oldStack.entry testDirectory.chars.length = 0 :=
    (dlopenPath_absolute_iff rfl (by decide)).mp hpath
  exact absurd hnul (by decide)

end Subcontexts.Scon
