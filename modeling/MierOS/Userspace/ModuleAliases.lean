/-
  MierOS.Userspace.ModuleAliases
  **WHERE ALIASES LEAD** (`modprobe`): `load_module_aliases` and the recursion of `probe`.

  `probe` asks itself again with the target of the alias it finds, and remembers no
  name.  A target may be an alias too or match a pattern, so the names it asks for
  form a chain through the tables.

  Main results: `probe_eq_run`, `probe_returns_iff`, `alias_resolution_iff`.
-/
import MierOS.Lib.LoopCycle
import MierOS.Userspace.Modprobe

namespace MierOS.Userspace.Modprobe

open Lib Relation

/-! ## §1. `modules.alias`. -/

/-- The lines that `std::getline` reads; nothing behind the last newline is no line. -/
def getlines : Str → List Str
  | [] => []
  | c :: rest =>
      if c = 10 then [] :: getlines rest
      else
        match getlines rest with
        | [] => [[c]]
        | line :: lines => (c :: line) :: lines

/-- `*` (42) or `?` (63) is in the alias. -/
def hasWildcard (aliasName : Str) : Bool := aliasName.contains 42 || aliasName.contains 63

namespace Tables

/-- `hashed_aliases.insert`: an alias that is there keeps its target. -/
def insertHashed (t : Tables) (aliasName modName : Str) : Tables :=
  if (t.hashedAliases.lookup aliasName).isSome then t
  else { t with hashedAliases := t.hashedAliases ++ [(aliasName, modName)] }

/-- One round of `load_module_aliases`; 35 is `#`, and the separator is the first blank. -/
def loadAlias (t : Tables) (line : Str) : Tables :=
  if line.head? = some 35 then t
  else if line.contains 32 = false then t
  else
    let aliasName := line.takeWhile (· ≠ 32)
    let modName := (line.dropWhile (· ≠ 32)).tail
    if hasWildcard aliasName then
      { t with patternAliases := t.patternAliases ++ [(aliasName, modName)] }
    else t.insertHashed aliasName modName

/-- `load_module_aliases`, of the text of the file. -/
def loadModuleAliases (t : Tables) (file : Str) : Tables := (getlines file).foldl loadAlias t

/-! ## §2. The chain of names. -/

/-- What the name is an alias of: the exact alias first, then the first pattern that matches. -/
def aliasOf (t : Tables) (name : Str) : Option Str :=
  match t.hashedAliases.lookup name with
  | some modName => some modName
  | none => (t.patternAliases.find? fun entry => strmatch entry.1 name).map Prod.snd

/-- The name is in `module_map`. -/
def IsModule (t : Tables) (name : Str) : Prop := (t.moduleMap.lookup name).isSome = true

instance (t : Tables) (name : Str) : Decidable (t.IsModule name) :=
  inferInstanceAs (Decidable (_ = true))

/-- `probe` asks for `b` when it is asked for `a`. -/
def Follows (t : Tables) (a b : Str) : Prop := ¬ t.IsModule a ∧ t.aliasOf a = some b

/-- Following the aliases from the name leads to a module. -/
def LeadsToModule (t : Tables) (name : Str) : Prop :=
  ∃ m, ReflTransGen (fun a b => t.aliasOf a = some b) name m ∧ t.IsModule m

/-- **The condition**: no name that `probe` asks for comes up again. -/
def NoAliasCycle (t : Tables) (name : Str) : Prop :=
  ∀ a, ReflTransGen t.Follows name a → ¬ TransGen t.Follows a a

/-- `probe` comes to an end, with a module exactly when the aliases lead to one. -/
def ResolvesAliases (t : Tables) (name : Str) : Prop :=
  ∃ bound r, (∀ fuel ≥ bound, t.probe fuel name = some r) ∧ (r ≠ none ↔ t.LeadsToModule name)

/-- One call of `probe`: the name it calls itself with, or what it returns. -/
def probeRound (t : Tables) (name : Str) : Str ⊕ Option ModulePtr :=
  if t.IsModule name then .inr (some name)
  else
    match t.aliasOf name with
    | some modName => .inl modName
    | none => .inr none

end Tables

/-! ## §3. `probe` as a loop. -/

variable {t : Tables} {name a b m : Str} {fuel : Nat} {r : Option ModulePtr}

/-- **`probe` is a loop over names.** -/
theorem probe_eq_run : t.probe fuel name = Loop.run t.probeRound fuel name := by
  induction fuel generalizing name with
  | zero => rfl
  | succ fuel ih =>
      by_cases hmodule : t.IsModule name
      · obtain ⟨module, hlookup⟩ := Option.isSome_iff_exists.mp hmodule
        simp [Tables.probe, Loop.run, Tables.probeRound, hmodule, hlookup]
      · have hlookup : t.moduleMap.lookup name = none := Option.not_isSome_iff_eq_none.mp hmodule
        unfold Tables.probe Loop.run Tables.probeRound Tables.aliasOf
        rw [hlookup, if_neg hmodule]
        -- an alias is followed by the same call on its target, so `ih` closes both
        cases hhashed : t.hashedAliases.lookup name with
        | some modName => exact ih
        | none =>
            cases hpattern : t.patternAliases.find? fun entry => strmatch entry.1 name with
            | some entry => exact ih
            | none => rfl

theorem probe_returns : Loop.Returns t.probeRound name r ↔ ∃ fuel, t.probe fuel name = some r := by
  simp only [probe_eq_run]
  exact Iff.rfl

/-- A call goes on along `Follows`. -/
theorem next_iff_follows : Loop.Next t.probeRound a b ↔ t.Follows a b := by
  unfold Loop.Next Tables.probeRound Tables.Follows
  by_cases hmodule : t.IsModule a
  · simp [hmodule]
  · cases halias : t.aliasOf a <;> simp [hmodule]

theorem next_eq_follows : Loop.Next t.probeRound = t.Follows := by
  funext a b
  exact propext next_iff_follows

/-- What a name is an alias of is written in one of the tables. -/
theorem aliasOf_mem (h : t.aliasOf a = some b) :
    b ∈ (t.hashedAliases ++ t.patternAliases).map Prod.snd := by
  unfold Tables.aliasOf at h
  rw [List.map_append, List.mem_append]
  cases hhashed : t.hashedAliases.lookup a with
  | some modName =>
      rw [hhashed] at h
      obtain ⟨before, after, heq, _⟩ := List.lookup_eq_some_iff.mp hhashed
      left
      rw [heq, ← Option.some.inj h]
      simp
  | none =>
      rw [hhashed] at h
      obtain ⟨entry, hfind, hb⟩ := Option.map_eq_some_iff.mp h
      right
      rw [← hb]
      exact List.mem_map_of_mem (List.mem_of_find?_eq_some hfind)

/-- **`probe` comes to an end** unless a name comes up again: the tables have
finitely many targets. -/
theorem probe_returns_iff : (∃ fuel r, t.probe fuel name = some r) ↔ t.NoAliasCycle name := by
  have htargets : ∀ a b, Loop.Next t.probeRound a b →
      b ∈ (t.hashedAliases ++ t.patternAliases).map Prod.snd :=
    fun a b hnext => aliasOf_mem (next_iff_follows.mp hnext).2
  have hcycle := Loop.returns_iff_noCycle (s := name) _ htargets
  unfold Loop.NoCycle at hcycle
  rw [next_eq_follows] at hcycle
  unfold Tables.NoAliasCycle
  rw [← hcycle]
  simp only [probe_returns]
  exact exists_comm

/-- **The module `probe` returns** is the one its chain of names comes to. -/
theorem resolves_iff : t.Resolves name m ↔ ReflTransGen t.Follows name m ∧ t.IsModule m := by
  unfold Tables.Resolves
  rw [← probe_returns, Loop.returns_iff_reaches, next_eq_follows]
  constructor
  · intro ⟨x, hreach, hround⟩
    unfold Tables.probeRound at hround
    -- the loop left with a module, so the last name is one
    split_ifs at hround with hmodule
    · injection hround with hx
      injection hx with hx
      exact hx ▸ ⟨hreach, hmodule⟩
    · cases halias : t.aliasOf x with
      | some modName =>
          rw [halias] at hround
          cases hround
      | none =>
          rw [halias] at hround
          cases hround
  · intro ⟨hreach, hmodule⟩
    exact ⟨m, hreach, if_pos hmodule⟩

/-- Aliases that lead to a module lead `probe` to one, at the latest there. -/
theorem leadsToModule_iff : t.LeadsToModule name ↔ ∃ m, t.Resolves name m := by
  simp only [resolves_iff]
  constructor
  · intro ⟨m, hreach, hm⟩
    induction hreach using ReflTransGen.head_induction_on with
    | refl => exact ⟨m, ReflTransGen.refl, hm⟩
    | @head a b hab _ ih =>
        by_cases ha : t.IsModule a
        · -- `probe` stops at the first module on the way
          exact ⟨a, ReflTransGen.refl, ha⟩
        · obtain ⟨x, hbx, hx⟩ := ih
          exact ⟨x, ReflTransGen.head ⟨ha, hab⟩ hbx, hx⟩
  · intro ⟨m, hreach, hm⟩
    have hle : t.Follows ≤ fun a b => t.aliasOf a = some b := fun _ _ h => h.2
    exact ⟨m, ReflTransGen.mono hle _ _ hreach, hm⟩

/-! ## §4. Alias resolution. -/

/-- **ALIAS RESOLUTION**: `probe` comes to an end, with a module exactly when the
aliases lead to one, if and only if no name that it asks for comes up again. -/
theorem alias_resolution_iff (t : Tables) (name : Str) :
    t.ResolvesAliases name ↔ t.NoAliasCycle name := by
  rw [← probe_returns_iff]
  constructor
  · intro ⟨bound, r, hprobe, _⟩
    exact ⟨bound, r, hprobe bound (Nat.le_refl bound)⟩
  · intro ⟨fuel, r, hprobe⟩
    refine ⟨fuel, r, fun _ hle => probe_mono hprobe hle, ?_⟩
    rw [leadsToModule_iff]
    constructor
    · intro hr
      obtain ⟨m, hm⟩ := Option.ne_none_iff_exists'.mp hr
      exact ⟨m, fuel, hm ▸ hprobe⟩
    · intro ⟨m, fuel', hprobe'⟩ hnone
      -- both runs end, so they end with the same
      have hrun := probe_returns.mpr ⟨fuel, hprobe⟩
      have heq := hrun.unique (probe_returns.mpr ⟨fuel', hprobe'⟩)
      rw [hnone] at heq
      cases heq

/-- The file says `a b` and `b a`, and there is no module of either name. -/
theorem alias_cycle_never_ends :
    ¬ (Tables.loadModuleAliases ⟨[], [], []⟩
      [97, 32, 98, 10, 98, 32, 97, 10]).ResolvesAliases [97] := by
  have hload : Tables.loadModuleAliases ⟨[], [], []⟩ [97, 32, 98, 10, 98, 32, 97, 10]
      = ⟨[], [([97], [98]), ([98], [97])], []⟩ := rfl
  rw [hload]
  intro ⟨bound, r, hprobe, _⟩
  have hno := probe_returns_iff.mp ⟨bound, r, hprobe bound (Nat.le_refl bound)⟩
  have hab : Tables.Follows ⟨[], [([97], [98]), ([98], [97])], []⟩ [97] [98] := ⟨by decide, rfl⟩
  have hba : Tables.Follows ⟨[], [([97], [98]), ([98], [97])], []⟩ [98] [97] := ⟨by decide, rfl⟩
  exact hno [97] ReflTransGen.refl ((TransGen.single hab).tail hba)

end MierOS.Userspace.Modprobe
