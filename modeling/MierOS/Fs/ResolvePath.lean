/-
  MierOS.Fs.ResolvePath
  **THE DIRECTORY AND THE NAME OF A PATH**: `VFS::resolve_path` of `vfs.cpp`,
  over `get_file`.

  The character behind the last separator is looked at BEFORE the pointer to
  it is compared with null, so a path with no separator is read at address 1
  and the branch that was written for it is never reached.

  Main results: `resolvePath_eq`, `resolve_path_splits_iff`.
-/
import MierOS.Fs.Vfs
import Mathlib.Data.List.Basic

namespace MierOS.Fs

/-! ## §1. The code. -/

/-- The loop of `strlchr` behind the first `i` characters, with its `ret`. -/
def strlchrLoop (c : Char) : Path → Nat → Option Nat → Option Nat
  | [], _, ret => ret
  | x :: str, i, ret => strlchrLoop c str (i + 1) (if x = c then some i else ret)

/-- `strlchr`: the index of the last `c`, or the null pointer. -/
def strlchr (str : Path) (c : Char) : Option Nat := strlchrLoop c str 0 none

/-- `p[k]` for a pointer into a string with its terminator; nothing can be read
through the null pointer. -/
def charAt (str : Path) (p : Option Nat) (k : Nat) : Option Char :=
  p.map fun i => (str[i + k]?).getD '\x00'

namespace Tree

variable {N : Type} (t : Tree N)

/-- `VFS::resolve_path(root, path, flags)`; `none` is a read through null. -/
def resolvePath (root : Option N) (path : Path) (flags : FilesystemFlags) :
    Option (Except Errno (Option N × Path)) := do
  let lastSeparator := strlchr path '/'
  let next ← charAt path lastSeparator 1
  -- "Empty file name"
  if next = '\x00' then return .error .EINVAL
  match lastSeparator with
  | none => return .ok (root, path)
  | some separator =>
      return (t.getFile root (path.take separator) flags 0).map
        fun node => (some node, path.drop (separator + 1))

/-! ## §2. What it should do. -/

/-- `EINVAL` for a path that ends in a separator; else the node of the part before
the last one, the start node if there is none, with the name behind it. -/
structure Splits (root : Option N) (path : Path) (flags : FilesystemFlags)
    (r : Option (Except Errno (Option N × Path))) : Prop where
  noNullRead : r ≠ none
  emptyName : r = some (.error .EINVAL) ↔ path.getLast? = some '/'
  noSeparator : '/' ∉ path → r = some (.ok (root, path))
  lastSeparator : ∀ dir name, path = dir ++ '/' :: name → '/' ∉ name → name ≠ [] →
    r = some ((t.getFile root dir flags 0).map fun node => (some node, name))

end Tree

/-! ## §3. The last separator. -/

theorem strlchrLoop_of_notMem {c : Char} {s : Path} (h : c ∉ s) (i : Nat) (ret : Option Nat) :
    strlchrLoop c s i ret = ret := by
  induction s generalizing i with
  | nil => rfl
  | cons x s ih =>
      have hx : x ≠ c := fun heq => h (heq ▸ List.mem_cons_self)
      show strlchrLoop c s (i + 1) (if x = c then some i else ret) = ret
      rw [if_neg hx]
      exact ih (fun hmem => h (List.mem_cons_of_mem x hmem)) (i + 1)

/-- The loop keeps the last place it saw `c` at. -/
theorem strlchrLoop_append {c : Char} (dir : Path) {name : Path} (h : c ∉ name) (i : Nat)
    (ret : Option Nat) : strlchrLoop c (dir ++ c :: name) i ret = some (i + dir.length) := by
  induction dir generalizing i ret with
  | nil =>
      show strlchrLoop c name (i + 1) (if c = c then some i else ret) = some i
      rw [if_pos rfl]
      exact strlchrLoop_of_notMem h (i + 1) (some i)
  | cons x dir ih =>
      show strlchrLoop c (dir ++ c :: name) (i + 1) _ = _
      rw [ih, List.length_cons]
      congr 1
      omega

theorem strlchr_of_notMem {c : Char} {s : Path} (h : c ∉ s) : strlchr s c = none :=
  strlchrLoop_of_notMem h 0 none

theorem strlchr_append {c : Char} (dir : Path) {name : Path} (h : c ∉ name) :
    strlchr (dir ++ c :: name) c = some dir.length := by
  unfold strlchr
  rw [strlchrLoop_append dir h, Nat.zero_add]

/-- A path with a separator, cut at the last one. -/
theorem exists_lastSeparator {path : Path} (h : '/' ∈ path) :
    ∃ dir name, path = dir ++ '/' :: name ∧ '/' ∉ name := by
  obtain ⟨front, back, heq, hfront⟩ :=
    List.eq_append_cons_of_mem (List.mem_reverse.mpr h)
  refine ⟨back.reverse, front.reverse, ?_, fun hmem => hfront (List.mem_reverse.mp hmem)⟩
  rw [← List.reverse_reverse path, heq]
  simp

namespace Tree

variable {N : Type} {t : Tree N}

/-! ## §4. `get_file` never answers `EINVAL`. -/

section Errors

variable {resolver : N → Except Errno N} (hres : ∀ n, resolver n ≠ .error .EINVAL)
include hres

theorem loopBody_ne_einval (flags : FilesystemFlags) (root : N) (part : Path) :
    t.loopBody resolver flags root part ≠ .error .EINVAL := by
  have hdescend : ∀ n, t.descend n part ≠ .error .EINVAL := by
    intro n
    unfold descend fsGetFile
    repeat' split
    all_goals simp
  intro h
  unfold loopBody at h
  cases henter : t.enter resolver flags root with
  | ok next =>
      rw [henter] at h
      exact hdescend next h
  | error e =>
      rw [henter] at h
      obtain rfl : e = .EINVAL := Except.error.inj h
      unfold enter at henter
      split at henter
      · split at henter
        · exact hres root henter
        · simp at henter
      · simp at henter

theorem walk_ne_einval (flags : FilesystemFlags) (root : N) (ps : List Path) :
    t.walk resolver flags root ps ≠ .error .EINVAL := by
  induction ps generalizing root with
  | nil =>
      rw [walk_nil]
      unfold finish
      split
      · exact hres root
      · simp
  | cons part ps ih =>
      rw [walk_cons]
      cases hbody : t.loopBody resolver flags root part with
      | ok next => exact ih next
      | error e =>
          intro h
          obtain rfl : e = .EINVAL := Except.error.inj h
          exact loopBody_ne_einval hres flags root part hbody

end Errors

theorem resolveLinkLevels_ne_einval (levels : Nat) (link : N) :
    t.resolveLinkLevels levels link ≠ .error .EINVAL := by
  induction levels generalizing link with
  | zero =>
      unfold resolveLinkLevels
      split <;> simp
  | succ levels ih =>
      unfold resolveLinkLevels
      split
      · simp
      · exact walk_ne_einval ih _ _ _

theorem getFile_ne_einval (root : Option N) (path : Path) (flags : FilesystemFlags) (depth : Int) :
    t.getFile root path flags depth ≠ .error .EINVAL :=
  walk_ne_einval (resolveLinkLevels_ne_einval _) flags _ _

/-! ## §5. `resolve_path`. -/

/-- **With no separator** the first thing done is a read through null. -/
theorem resolvePath_of_notMem {path : Path} (h : '/' ∉ path) (root : Option N)
    (flags : FilesystemFlags) : t.resolvePath root path flags = none := by
  simp [resolvePath, strlchr_of_notMem h, charAt]

/-- **The call on `dir/name`.** -/
theorem resolvePath_eq {dir name : Path} (hname : '/' ∉ name) (hnul : '\x00' ∉ name)
    (root : Option N) (flags : FilesystemFlags) :
    t.resolvePath root (dir ++ '/' :: name) flags =
      if name = [] then some (.error .EINVAL)
      else some ((t.getFile root dir flags 0).map fun node => (some node, name)) := by
  have hnext : charAt (dir ++ '/' :: name) (some dir.length) 1 = some ((name[0]?).getD '\x00') := by
    unfold charAt
    rw [Option.map_some, List.getElem?_append_right (Nat.le_succ _)]
    simp
  unfold resolvePath
  rw [strlchr_append dir hname]
  dsimp only
  rw [hnext]
  cases name with
  | nil => simp
  | cons c name =>
      have hc : c ≠ '\x00' := fun heq => hnul (heq ▸ List.mem_cons_self)
      simp [hc]

/-- **`resolve_path` splits a path exactly when** the path has a separator. -/
theorem resolve_path_splits_iff {N : Type} (t : Tree N) (root : Option N) (path : Path)
    (flags : FilesystemFlags) (hnul : '\x00' ∉ path) :
    t.Splits root path flags (t.resolvePath root path flags) ↔ '/' ∈ path := by
  constructor
  · intro h
    by_contra hno
    exact h.noNullRead (resolvePath_of_notMem hno root flags)
  · intro hmem
    obtain ⟨dir, name, hpath, hname⟩ := exists_lastSeparator hmem
    have hcut : ∀ dir name, path = dir ++ '/' :: name → '/' ∉ name →
        t.resolvePath root path flags =
          if name = [] then some (.error .EINVAL)
          else some ((t.getFile root dir flags 0).map fun node => (some node, name)) := by
      intro dir name hpath hname
      have hnul' : '\x00' ∉ name := fun h => hnul (by rw [hpath]; simp [h])
      rw [hpath]
      exact resolvePath_eq hname hnul' root flags
    refine ⟨?_, ?_, fun hno => absurd hmem hno, ?_⟩
    · rw [hcut dir name hpath hname]
      split <;> simp
    · rw [hcut dir name hpath hname, hpath]
      by_cases hempty : name = []
      · simp [hempty]
      · -- the last character is one of the name's, and `get_file` has other errors
        rw [if_neg hempty]
        constructor
        · intro h
          cases hfile : t.getFile root dir flags 0 with
          | ok node => simp [hfile, Except.map] at h
          | error e =>
              rw [hfile] at h
              obtain rfl : e = .EINVAL := by simpa [Except.map] using h
              exact absurd hfile (getFile_ne_einval root dir flags 0)
        · intro h
          rw [List.getLast?_append_of_ne_nil _ (by simp), List.getLast?_cons_of_ne_nil hempty] at h
          exact absurd (List.mem_of_getLast? h) hname
    · intro dir name hpath hname hne
      rw [hcut dir name hpath hname, if_neg hne]

/-- The link of the example tree, in the root directory. -/
theorem resolve_path_splits_iff_root :
    selfLink.Splits (some 0) "/a".toList .all (selfLink.resolvePath (some 0) "/a".toList .all)
      ↔ '/' ∈ "/a".toList :=
  resolve_path_splits_iff selfLink (some 0) "/a".toList .all (by decide)

/-- The same link by its bare name. -/
theorem resolve_path_reads_null :
    ¬ selfLink.Splits (some 0) "a".toList .all
        (selfLink.resolvePath (some 0) "a".toList .all) := by
  intro h
  exact h.noNullRead (resolvePath_of_notMem (by decide) (some 0) .all)

end Tree

end MierOS.Fs
