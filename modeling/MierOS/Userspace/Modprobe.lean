/-
  MierOS.Userspace.Modprobe
  **THE LOAD ORDER OF `modprobe`**: `probe`, `handle_dependencies` and the loop of `main`.

  The list is a `std::list` that every call of the recursion edits.  Its iterators
  are node numbers: an insertion takes a new one, and using one that has been
  erased is an error of the model.  A `Module*` is the key of its node in
  `module_map`.

  While `handle_dependencies` runs, the list is `done ++ stack ++ rest`: modules in
  dependency order, then the modules of the calls under way, innermost first and
  right behind one another, then what has been requested and not been reached.

  Main result: `modprobe_load_order`.
-/
import MierOS.Lib.DependencyOrder
import Mathlib.Data.List.Nodup

namespace MierOS.Userspace.Modprobe

open Lib Relation

/-! ## §1. The tables. -/

/-- The bytes of a `std::string`. -/
abbrev Str := List UInt8

/-- A `Module*`: the key of the module in `module_map`. -/
abbrev ModulePtr := Str

/-- `struct Module`. -/
structure Module where
  moduleName : Str
  moduleFile : Str
  dependencies : List Str
  deriving Repr, DecidableEq

/-- `module_map`, `hashed_aliases` and `pattern_aliases`. -/
structure Tables where
  moduleMap : List (Str × Module)
  hashedAliases : List (Str × Str)
  patternAliases : List (Str × Str)

/-- `c_str()`, in front of its terminator. -/
def cStr (s : Str) : Str := s.takeWhile (· ≠ 0)

/-- `text_backup` and `wild_backup`: the text at the last `*`, and the pattern behind it. -/
structure Backup where
  wild : Str
  text : Str

/-- What the loop of `strmatch` makes smaller, before the texts. -/
def wildRank (wildcard : Str) : Option Backup → Nat
  | none => wildcard.length + 1
  | some backup => max backup.wild.length wildcard.length

def textRank : Option Backup → Nat
  | none => 0
  | some backup => backup.text.length

theorem lex_of_le {a a' b b' c c' : Nat} (ha : a ≤ a') (hbc : a < a' ∨ b < b' ∨ b ≤ b' ∧ c < c') :
    Prod.Lex (· < ·) (Prod.Lex (· < ·) (· < ·)) (a, b, c) (a', b', c') := by
  rcases Nat.lt_or_eq_of_le ha with hlt | rfl
  · exact Prod.Lex.left _ _ hlt
  · refine Prod.Lex.right _ ?_
    rcases hbc with hlt | hlt | ⟨hb, hc⟩
    · exact absurd hlt (Nat.lt_irrefl _)
    · exact Prod.Lex.left _ _ hlt
    · rcases Nat.lt_or_eq_of_le hb with hlt | rfl
      · exact Prod.Lex.left _ _ hlt
      · exact Prod.Lex.right _ hc

/-- The loop of `strmatch`; 42 is `*` and 63 is `?`.  A backup's text is never shorter than
the text itself, so it is never empty where it is taken up again. -/
def strmatchLoop (wildcard str : Str) (backup : Option Backup) : Bool :=
  match str with
  | [] => (wildcard.dropWhile (· = 42)).isEmpty
  | c :: rest =>
      match wildcard with
      | w :: wildRest =>
          if w = 42 then strmatchLoop wildRest (c :: rest) (some ⟨wildRest, c :: rest⟩)
          else if w = 63 ∨ w = c then strmatchLoop wildRest rest backup
          else
            match backup with
            | some ⟨wild, _ :: text⟩ => strmatchLoop wild text (some ⟨wild, text⟩)
            | _ => false
      | [] =>
          match backup with
          | some ⟨wild, _ :: text⟩ => strmatchLoop wild text (some ⟨wild, text⟩)
          | _ => false
termination_by (wildRank wildcard backup, textRank backup, str.length)
decreasing_by
  · cases backup <;> apply lex_of_le <;> simp [wildRank, textRank]
    all_goals omega
  · cases backup <;> apply lex_of_le <;> simp [wildRank, textRank]
    all_goals omega
  · apply lex_of_le <;> simp [wildRank, textRank]
  · apply lex_of_le <;> simp [wildRank, textRank]

/-- `strmatch`, of the two strings' `c_str()`. -/
def strmatch (wildcard str : Str) : Bool := strmatchLoop (cStr wildcard) (cStr str) none

namespace Tables

/-- `probe`: `some none` is the null pointer, `none` that the aliases have not come to an end. -/
def probe (t : Tables) : Nat → Str → Option (Option ModulePtr)
  | 0, _ => none
  | fuel + 1, name =>
      match t.moduleMap.lookup name with
      | some _ => some (some name)
      | none =>
          match t.hashedAliases.lookup name with
          | some modName => t.probe fuel modName
          | none =>
              match t.patternAliases.find? (fun entry => strmatch entry.1 name) with
              | some entry => t.probe fuel entry.2
              | none => some none

/-- `module->f_dependencies`. -/
def dependencies (t : Tables) (module : ModulePtr) : List Str :=
  ((t.moduleMap.lookup module).map (·.dependencies)).getD []

/-- `module->f_moduleName`. -/
def moduleName (t : Tables) (module : ModulePtr) : Str :=
  ((t.moduleMap.lookup module).map (·.moduleName)).getD []

end Tables

/-! ## §2. The list. -/

/-- A node of `orderedModules`, and the iterator that points to it. -/
structure Node where
  iter : Nat
  mod : ModulePtr
  deriving Repr, DecidableEq

/-- `std::list<Module*>`; `fresh` is the next node's iterator. -/
structure ModuleList where
  nodes : List Node
  fresh : Nat
  deriving Repr, DecidableEq

/-- The nodes with a new one in front of `location`; `none` when that points to no node. -/
def insertBefore (location : Nat) (new : Node) : List Node → Option (List Node)
  | [] => none
  | n :: nodes =>
      if n.iter = location then some (new :: n :: nodes)
      else (insertBefore location new nodes).map (n :: ·)

def eraseAt (location : Nat) : List Node → Option (List Node)
  | [] => none
  | n :: nodes => if n.iter = location then some nodes else (eraseAt location nodes).map (n :: ·)

/-- The node at `location` and the iterator after it, where `end()` is `none`. -/
def derefNext (location : Nat) : List Node → Option (ModulePtr × Option Nat)
  | [] => none
  | n :: nodes =>
      if n.iter = location then some (n.mod, nodes.head?.map Node.iter)
      else derefNext location nodes

/-- The search of `handle_dependencies`: `foundIter`, `none` for `end()`, and `before`. -/
def search (modDep : ModulePtr) (insertLocation : Nat) : List Node → Bool → Option Nat × Bool
  | [], before => (none, before)
  | n :: nodes, before =>
      if n.iter = insertLocation then search modDep insertLocation nodes false
      else if modDep = n.mod then (some n.iter, before)
      else search modDep insertLocation nodes before

namespace ModuleList

def insert (l : ModuleList) (location : Nat) (module : ModulePtr) : Option (ModuleList × Nat) :=
  (insertBefore location ⟨l.fresh, module⟩ l.nodes).map fun nodes =>
    (⟨nodes, l.fresh + 1⟩, l.fresh)

def erase (l : ModuleList) (location : Nat) : Option ModuleList :=
  (eraseAt location l.nodes).map fun nodes => ⟨nodes, l.fresh⟩

def pushBack (l : ModuleList) (module : ModulePtr) : ModuleList :=
  ⟨l.nodes ++ [⟨l.fresh, module⟩], l.fresh + 1⟩

end ModuleList

/-! ## §3. The algorithm. -/

/-- How a run ends without an order: the two messages, an iterator that points to no node,
and a run that is not over. -/
inductive Stop where
  | dependencyNotFound (dep moduleName : Str)
  | moduleNotFound (mod : Str)
  | invalidIterator
  | unfinished
  deriving Repr, DecidableEq

namespace Tables

/-- One round of the loop of `handle_dependencies`; `recurse` is the recursive call. -/
def handleDependency (t : Tables)
    (recurse : ModulePtr → ModuleList → Nat → Except Stop ModuleList) (fuel : Nat)
    (module : ModulePtr) (insertLocation : Nat) (l : ModuleList) (dep : Str) :
    Except Stop ModuleList :=
  match t.probe fuel dep with
  | none => .error .unfinished
  | some none => .error (.dependencyNotFound dep (t.moduleName module))
  | some (some modDep) =>
      match search modDep insertLocation l.nodes true with
      | (none, _) =>
          match l.insert insertLocation modDep with
          | none => .error .invalidIterator
          | some (l, newLocation) => recurse modDep l newLocation
      | (some _, true) => .ok l
      | (some foundIter, false) =>
          match l.erase foundIter with
          | none => .error .invalidIterator
          | some l =>
              match l.insert insertLocation modDep with
              | none => .error .invalidIterator
              | some (l, newLocation) => recurse modDep l newLocation

/-- `handle_dependencies`. -/
def handleDependencies (t : Tables) : Nat → ModulePtr → ModuleList → Nat → Except Stop ModuleList
  | 0, _, _, _ => .error .unfinished
  | fuel + 1, module, l, insertLocation =>
      (t.dependencies module).foldlM
        (t.handleDependency (t.handleDependencies fuel) fuel module insertLocation) l

/-- The loop of `main` over the requested names. -/
def resolveRequested (t : Tables) (fuel : Nat) (l : ModuleList) (mod : Str) :
    Except Stop ModuleList :=
  match t.probe fuel mod with
  | none => .error .unfinished
  | some none => .error (.moduleNotFound mod)
  | some (some modStruct) => .ok (l.pushBack modStruct)

/-- The loop of `main` over the list. -/
def orderLoop (t : Tables) : Nat → Option Nat → ModuleList → Except Stop ModuleList
  | _, none, l => .ok l
  | 0, some _, _ => .error .unfinished
  | fuel + 1, some iter, l =>
      match derefNext iter l.nodes with
      | none => .error .invalidIterator
      | some (mod, _) =>
          match t.handleDependencies fuel mod l iter with
          | .error stop => .error stop
          | .ok l =>
              match derefNext iter l.nodes with
              | none => .error .invalidIterator
              | some (_, next) => t.orderLoop fuel next l

/-- The modules `main` loads, in this order. -/
def main (t : Tables) (fuel : Nat) (modList : List Str) : Except Stop (List ModulePtr) := do
  let l ← modList.foldlM (t.resolveRequested fuel) ⟨[], 0⟩
  let l ← t.orderLoop fuel (l.nodes.head?.map Node.iter) l
  return l.nodes.map Node.mod

/-! ## §4. What names stand for. -/

/-- The name resolves to this module. -/
def Resolves (t : Tables) (name : Str) (module : ModulePtr) : Prop :=
  ∃ fuel, t.probe fuel name = some (some module)

/-- One of the module's dependencies resolves to `dep`. -/
def DependsOn (t : Tables) (module dep : ModulePtr) : Prop :=
  ∃ name ∈ t.dependencies module, t.Resolves name dep

end Tables

/-! ## §5. More fuel changes nothing. -/

variable {t : Tables} {fuel fuel' : Nat} {l l' : ModuleList}

theorem probe_mono : ∀ {fuel : Nat} {name : Str} {r : Option ModulePtr},
    t.probe fuel name = some r → fuel ≤ fuel' → t.probe fuel' name = some r := by
  induction fuel' with
  | zero =>
      intro fuel name r h hle
      obtain rfl : fuel = 0 := by omega
      exact h
  | succ fuel' ih =>
      intro fuel name r h hle
      cases fuel with
      | zero => cases h
      | succ fuel =>
          unfold Tables.probe at h ⊢
          split
          · simp_all
          · rename_i hmap
            rw [hmap] at h
            simp only at h
            split
            · rename_i modName halias
              rw [halias] at h
              exact ih h (by omega)
            · rename_i halias
              rw [halias] at h
              simp only at h
              split
              · rename_i entry hpattern
                rw [hpattern] at h
                exact ih h (by omega)
              · rename_i hpattern
                rw [hpattern] at h
                exact h

theorem Tables.Resolves.unique {name : Str} {m m' : ModulePtr} (h : t.Resolves name m)
    (h' : t.Resolves name m') : m = m' := by
  obtain ⟨fuel, hfuel⟩ := h
  obtain ⟨fuel', hfuel'⟩ := h'
  have heq := (probe_mono hfuel (Nat.le_max_left fuel fuel')).symm.trans
    (probe_mono hfuel' (Nat.le_max_right fuel fuel'))
  exact Option.some.inj (Option.some.inj heq)

theorem foldlM_mono {α σ : Type} {f g : σ → α → Except Stop σ}
    (h : ∀ s a s', f s a = .ok s' → g s a = .ok s') (as : List α) :
    ∀ {s s' : σ}, as.foldlM f s = .ok s' → as.foldlM g s = .ok s' := by
  induction as with
  | nil => intro s s' hfold; exact hfold
  | cons a as ih =>
      intro s s' hfold
      rw [List.foldlM_cons] at hfold ⊢
      cases hstep : f s a with
      | error stop =>
          rw [hstep] at hfold
          cases hfold
      | ok m =>
          rw [hstep] at hfold
          rw [h s a m hstep]
          exact ih hfold

theorem handleDependency_mono
    {recurse recurse' : ModulePtr → ModuleList → Nat → Except Stop ModuleList}
    (hrec : ∀ m l loc l', recurse m l loc = .ok l' → recurse' m l loc = .ok l')
    (hle : fuel ≤ fuel') {module : ModulePtr} {location : Nat} {dep : Str}
    (h : t.handleDependency recurse fuel module location l dep = .ok l') :
    t.handleDependency recurse' fuel' module location l dep = .ok l' := by
  unfold Tables.handleDependency at h ⊢
  cases hprobe : t.probe fuel dep with
  | none =>
      rw [hprobe] at h
      cases h
  | some found =>
      rw [hprobe] at h
      rw [probe_mono hprobe hle]
      cases found with
      | none => cases h
      | some modDep =>
          simp only at h ⊢
          split at h
          · split at h
            · cases h
            · simp_all
          · simp_all
          · split at h
            · cases h
            · split at h
              · cases h
              · simp_all

theorem handleDependencies_mono : ∀ {fuel : Nat} {module : ModulePtr} {l : ModuleList}
    {location : Nat} {l' : ModuleList}, t.handleDependencies fuel module l location = .ok l' →
      fuel ≤ fuel' → t.handleDependencies fuel' module l location = .ok l' := by
  induction fuel' with
  | zero =>
      intro fuel module l location l' h hle
      obtain rfl : fuel = 0 := by omega
      exact h
  | succ fuel' ih =>
      intro fuel module l location l' h hle
      cases fuel with
      | zero => cases h
      | succ fuel =>
          refine foldlM_mono (fun s dep s' hdep => ?_) _ h
          exact handleDependency_mono (fun m l loc l' hrec => ih hrec (by omega)) (by omega) hdep

theorem resolveRequested_mono {mod : Str} (h : t.resolveRequested fuel l mod = .ok l')
    (hle : fuel ≤ fuel') : t.resolveRequested fuel' l mod = .ok l' := by
  unfold Tables.resolveRequested at h ⊢
  cases hprobe : t.probe fuel mod with
  | none =>
      rw [hprobe] at h
      cases h
  | some found =>
      rw [hprobe] at h
      rw [probe_mono hprobe hle]
      exact h

theorem orderLoop_mono : ∀ {fuel : Nat} {iter : Option Nat} {l l' : ModuleList},
    t.orderLoop fuel iter l = .ok l' → fuel ≤ fuel' → t.orderLoop fuel' iter l = .ok l' := by
  induction fuel' with
  | zero =>
      intro fuel iter l l' h hle
      obtain rfl : fuel = 0 := by omega
      exact h
  | succ fuel' ih =>
      intro fuel iter l l' h hle
      cases iter with
      | none =>
          cases fuel <;> exact h
      | some iter =>
          cases fuel with
          | zero => cases h
          | succ fuel =>
              unfold Tables.orderLoop at h ⊢
              split at h
              · cases h
              · split at h
                · cases h
                · rename_i hhandle
                  rw [handleDependencies_mono hhandle (by omega)]
                  simp only
                  split at h
                  · cases h
                  · exact ih h (by omega)

/-! ## §6. The operations on a list split at a node. -/

variable {before rest : List Node} {top n : Node} {location : Nat} {modDep : ModulePtr}

theorem insertBefore_append (new : Node) (after : List Node)
    (hbefore : ∀ n ∈ before, n.iter ≠ top.iter) :
    insertBefore top.iter new (before ++ top :: after) = some (before ++ new :: top :: after) := by
  induction before with
  | nil => simp [insertBefore]
  | cons n before ih =>
      have hn := hbefore n List.mem_cons_self
      have hrest := ih fun n hn => hbefore n (List.mem_cons_of_mem _ hn)
      simp [insertBefore, hn, hrest]

theorem eraseAt_append (after : List Node) (hbefore : ∀ n ∈ before, n.iter ≠ top.iter) :
    eraseAt top.iter (before ++ top :: after) = some (before ++ after) := by
  induction before with
  | nil => simp [eraseAt]
  | cons n before ih =>
      have hn := hbefore n List.mem_cons_self
      have hrest := ih fun n hn => hbefore n (List.mem_cons_of_mem _ hn)
      simp [eraseAt, hn, hrest]

theorem derefNext_append (after : List Node) (hbefore : ∀ n ∈ before, n.iter ≠ top.iter) :
    derefNext top.iter (before ++ top :: after)
      = some (top.mod, after.head?.map Node.iter) := by
  induction before with
  | nil => simp [derefNext]
  | cons n before ih =>
      have hn := hbefore n List.mem_cons_self
      have hrest := ih fun n hn => hbefore n (List.mem_cons_of_mem _ hn)
      simp [derefNext, hn, hrest]

/-- The search goes over nodes that hold something else. -/
theorem search_skip (b : Bool) (after : List Node) (hbefore : ∀ n ∈ before, n.iter ≠ location)
    (hmod : modDep ∉ before.map Node.mod) :
    search modDep location (before ++ after) b = search modDep location after b := by
  induction before with
  | nil => rfl
  | cons n before ih =>
      rw [List.map_cons, List.mem_cons, not_or] at hmod
      have hn := hbefore n List.mem_cons_self
      have hrest := ih (fun n hn => hbefore n (List.mem_cons_of_mem _ hn)) hmod.2
      simp [search, hn, hmod.1, hrest]

/-- It ends at a node that holds the module. -/
theorem search_found (b : Bool) (after : List Node) (hbefore : ∀ n ∈ before, n.iter ≠ location)
    (hmod : modDep ∈ before.map Node.mod) :
    ∃ found, search modDep location (before ++ after) b = (some found, b) := by
  induction before with
  | nil => cases hmod
  | cons n before ih =>
      have hn := hbefore n List.mem_cons_self
      by_cases heq : modDep = n.mod
      · exact ⟨n.iter, by simp [search, hn, heq]⟩
      · rw [List.map_cons, List.mem_cons, or_iff_right heq] at hmod
        obtain ⟨found, hfound⟩ := ih (fun n hn => hbefore n (List.mem_cons_of_mem _ hn)) hmod
        exact ⟨found, by simp [search, hn, heq, hfound]⟩

theorem search_at (b : Bool) (after : List Node) : search modDep top.iter (top :: after) b
    = search modDep top.iter after false := by
  simp [search]

/-! ## §7. The list during the recursion. -/

variable {after : List Node}

/-- Iterators are distinct and taken, and no module is listed twice. -/
structure ModuleList.WF (l : ModuleList) : Prop where
  iters : (l.nodes.map Node.iter).Nodup
  fresh : ∀ n ∈ l.nodes, n.iter < l.fresh
  mods : (l.nodes.map Node.mod).Nodup

/-- The other nodes have other iterators. -/
theorem ModuleList.WF.iter_ne (h : l.WF) (hnodes : l.nodes = before ++ top :: after) :
    ∀ n ∈ before ++ after, n.iter ≠ top.iter := by
  have hiters := h.iters
  rw [hnodes, (List.perm_middle.map Node.iter).nodup_iff, List.map_cons, List.nodup_cons] at hiters
  exact fun n hn heq => hiters.1 (heq ▸ List.mem_map_of_mem hn)

theorem ModuleList.WF.insert (h : l.WF) (hnodes : l.nodes = before ++ top :: after)
    (hmod : modDep ∉ l.nodes.map Node.mod) :
    ∃ l', l.insert top.iter modDep = some (l', l.fresh)
      ∧ l'.nodes = before ++ ⟨l.fresh, modDep⟩ :: top :: after ∧ l'.WF := by
  have hins := insertBefore_append ⟨l.fresh, modDep⟩ after fun n hn =>
    h.iter_ne hnodes n (List.mem_append_left _ hn)
  rw [← hnodes] at hins
  refine ⟨⟨before ++ ⟨l.fresh, modDep⟩ :: top :: after, l.fresh + 1⟩, ?_, rfl, ?_, ?_, ?_⟩
  · unfold ModuleList.insert
    rw [hins]
    rfl
  · rw [(List.perm_middle.map Node.iter).nodup_iff, ← hnodes, List.map_cons, List.nodup_cons]
    refine ⟨fun hmem => ?_, h.iters⟩
    obtain ⟨n, hn, heq⟩ := List.mem_map.mp hmem
    exact Nat.ne_of_lt (h.fresh n hn) heq
  · intro n hn
    rw [List.perm_middle.mem_iff, ← hnodes, List.mem_cons] at hn
    rcases hn with rfl | hn
    · exact Nat.lt_succ_self _
    · exact Nat.lt_succ_of_lt (h.fresh n hn)
  · rw [(List.perm_middle.map Node.mod).nodup_iff, ← hnodes, List.map_cons, List.nodup_cons]
    exact ⟨hmod, h.mods⟩

theorem ModuleList.WF.erase (h : l.WF) (hnodes : l.nodes = before ++ n :: after) :
    ∃ l', l.erase n.iter = some l' ∧ l'.nodes = before ++ after ∧ l'.WF
      ∧ n.mod ∉ l'.nodes.map Node.mod := by
  have herase := eraseAt_append after fun m hm =>
    h.iter_ne hnodes m (List.mem_append_left _ hm)
  have hsub : (before ++ after).Sublist l.nodes := by
    rw [hnodes]
    exact (List.Sublist.refl _).append (List.sublist_cons_self _ _)
  have hmods := h.mods
  rw [hnodes, (List.perm_middle.map Node.mod).nodup_iff, List.map_cons, List.nodup_cons] at hmods
  rw [← hnodes] at herase
  refine ⟨⟨before ++ after, l.fresh⟩, ?_, rfl, ⟨?_, ?_, hmods.2⟩, hmods.1⟩
  · unfold ModuleList.erase
    rw [herase]
    rfl
  · exact h.iters.sublist (hsub.map _)
  · exact fun n hn => h.fresh n (hsub.subset hn)

/-- The list while `handle_dependencies` runs for `top`: `before` is in order, `rest` are the
calls that wait for this one, and `after` has not been reached. -/
structure Arranged (t : Tables) (l : ModuleList) (before : List Node) (top : Node)
    (rest after : List Node) : Prop where
  wf : l.WF
  nodes : l.nodes = before ++ top :: (rest ++ after)
  order : DependencyOrder t.DependsOn (before.map Node.mod)
  stack : ∀ n ∈ rest, TransGen t.DependsOn n.mod top.mod

/-- What a call for `m` does to the two ends of the list. -/
structure Reached (t : Tables) (m : ModulePtr) (before after before' after' : List Node) :
    Prop where
  kept : ∀ x ∈ before.map Node.mod, x ∈ before'.map Node.mod
  after_sub : after'.Sublist after
  moved : ∀ x ∈ after.map Node.mod, x ∈ before'.map Node.mod ∨ x ∈ after'.map Node.mod
  new : ∀ x ∈ before'.map Node.mod, x ∈ before.map Node.mod ∨ TransGen t.DependsOn m x

variable {before' after' before'' after'' : List Node} {m : ModulePtr}

theorem Reached.refl : Reached t m before after before after :=
  ⟨fun _ h => h, List.Sublist.refl _, fun _ h => Or.inr h, fun _ h => Or.inl h⟩

theorem Reached.trans (h : Reached t m before after before' after')
    (h' : Reached t m before' after' before'' after'') :
    Reached t m before after before'' after'' where
  kept x hx := h'.kept x (h.kept x hx)
  after_sub := h'.after_sub.trans h.after_sub
  moved x hx := (h.moved x hx).elim (fun hx => Or.inl (h'.kept x hx)) (h'.moved x)
  new x hx := (h'.new x hx).elim (h.new x) Or.inr

/-- The call for `m` puts `d` itself behind what the call for `d` has put there. -/
theorem Reached.concat (h : Reached t modDep before after before' after')
    (hdep : t.DependsOn m modDep) (hn : n.mod = modDep) :
    Reached t m before after (before' ++ [n]) after' := by
  have hmem : ∀ x, x ∈ (before' ++ [n]).map Node.mod ↔ x ∈ before'.map Node.mod ∨ x = modDep := by
    intro x
    rw [List.map_append, List.mem_append, List.map_singleton, List.mem_singleton, hn]
  refine ⟨fun x hx => (hmem x).mpr (Or.inl (h.kept x hx)), h.after_sub, fun x hx => ?_,
    fun x hx => ?_⟩
  · rw [hmem]
    exact (h.moved x hx).imp Or.inl id
  · rcases (hmem x).mp hx with hx | rfl
    · exact (h.new x hx).imp id fun htrans => TransGen.head hdep htrans
    · exact Or.inr (TransGen.single hdep)

/-- A module taken out of the end of the list and put in front is not lost. -/
theorem Reached.erased {after₁ after₂ : List Node}
    (h : Reached t m before (after₁ ++ after₂) before' after') (hn : n.mod ∈ before'.map Node.mod) :
    Reached t m before (after₁ ++ n :: after₂) before' after' := by
  refine ⟨h.kept, ?_, fun x hx => ?_, h.new⟩
  · exact h.after_sub.trans ((List.Sublist.refl _).append (List.sublist_cons_self _ _))
  · rw [List.map_append, List.map_cons, List.perm_middle.mem_iff, List.mem_cons,
      ← List.map_append] at hx
    rcases hx with rfl | hx
    · exact Or.inl hn
    · exact h.moved x hx

/-- **Entering the call for a dependency** that is not in the list. -/
theorem Arranged.enter (h : Arranged t l before top rest after) (hdep : t.DependsOn top.mod modDep)
    (hmod : modDep ∉ l.nodes.map Node.mod) :
    ∃ l', l.insert top.iter modDep = some (l', l.fresh)
      ∧ Arranged t l' before ⟨l.fresh, modDep⟩ (top :: rest) after := by
  obtain ⟨l', hins, hnodes, hwf⟩ := h.wf.insert h.nodes hmod
  refine ⟨l', hins, hwf, hnodes, h.order, fun n hn => ?_⟩
  rcases List.mem_cons.mp hn with rfl | hn
  · exact TransGen.single hdep
  · exact (h.stack n hn).tail hdep

/-- A module that has not been reached is taken out of the list. -/
theorem Arranged.erase {after₁ after₂ : List Node}
    (h : Arranged t l before top rest (after₁ ++ n :: after₂)) :
    ∃ l', l.erase n.iter = some l' ∧ Arranged t l' before top rest (after₁ ++ after₂)
      ∧ n.mod ∉ l'.nodes.map Node.mod := by
  have hsplit : l.nodes = (before ++ top :: (rest ++ after₁)) ++ n :: after₂ := by
    rw [h.nodes]
    simp
  obtain ⟨l', herase, hnodes, hwf, hmod⟩ := h.wf.erase hsplit
  refine ⟨l', herase, ⟨hwf, ?_, h.order, h.stack⟩, hmod⟩
  rw [hnodes]
  simp

/-- **Returning from the call for a dependency**, all of whose dependencies are there. -/
theorem Arranged.leave (h : Arranged t l before n (top :: rest) after)
    (hdeps : ∀ d, t.DependsOn n.mod d → d ∈ before.map Node.mod)
    (hstack : ∀ n ∈ rest, TransGen t.DependsOn n.mod top.mod) :
    Arranged t l (before ++ [n]) top rest after := by
  refine ⟨h.wf, ?_, ?_, hstack⟩
  · rw [h.nodes]
    simp
  · rw [List.map_append, List.map_singleton]
    exact h.order.concat hdeps

/-! ## §8. What the calls do. -/

/-- What a call for `m` does, from any list arranged for it. -/
def HandlesDependencies (t : Tables) (m : ModulePtr) : Prop :=
  ∀ (l : ModuleList) (before : List Node) (top : Node) (rest after : List Node), top.mod = m →
    Arranged t l before top rest after →
      ∃ fuel l' before' after', t.handleDependencies fuel m l top.iter = .ok l'
        ∧ Arranged t l' before' top rest after' ∧ Reached t m before after before' after'
        ∧ ∀ d, t.DependsOn m d → d ∈ before'.map Node.mod

/-- **Inserting a dependency in front of `top` and calling for it.** -/
theorem Arranged.call (h : Arranged t l before top rest after) (hdep : t.DependsOn top.mod modDep)
    (hmod : modDep ∉ l.nodes.map Node.mod) (hrec : HandlesDependencies t modDep) :
    ∃ fuel inserted l' before' after', l.insert top.iter modDep = some (inserted, l.fresh)
      ∧ t.handleDependencies fuel modDep inserted l.fresh = .ok l'
      ∧ Arranged t l' before' top rest after' ∧ Reached t top.mod before after before' after'
      ∧ modDep ∈ before'.map Node.mod := by
  obtain ⟨inserted, hins, hinside⟩ := h.enter hdep hmod
  obtain ⟨fuel, l', before', after', hcall, harranged, hreached, hdeps⟩ :=
    hrec inserted before ⟨l.fresh, modDep⟩ (top :: rest) after rfl hinside
  refine ⟨fuel, inserted, l', before' ++ [⟨l.fresh, modDep⟩], after', hins, hcall,
    harranged.leave hdeps h.stack, hreached.concat hdep rfl, ?_⟩
  simp

/-- **One round of the loop.** -/
theorem handleDependency_spec (hacyclic : ∀ m, ¬ TransGen t.DependsOn m m) {dep : Str}
    (hdep : dep ∈ t.dependencies top.mod) (hresolves : t.Resolves dep modDep)
    (hrec : HandlesDependencies t modDep) (h : Arranged t l before top rest after) :
    ∃ fuel l' before' after',
      t.handleDependency (t.handleDependencies fuel) fuel top.mod top.iter l dep = .ok l'
        ∧ Arranged t l' before' top rest after' ∧ Reached t top.mod before after before' after'
        ∧ modDep ∈ before'.map Node.mod := by
  obtain ⟨fuelProbe, hprobe⟩ := hresolves
  have hdepends : t.DependsOn top.mod modDep := ⟨dep, hdep, fuelProbe, hprobe⟩
  have hiters := h.wf.iter_ne h.nodes
  have hbefore : ∀ n ∈ before, n.iter ≠ top.iter := fun n hn => hiters n (List.mem_append_left _ hn)
  by_cases hdone : modDep ∈ before.map Node.mod
  · -- it is there already, and so is all it depends on
    obtain ⟨found, hfound⟩ := search_found true (top :: (rest ++ after)) hbefore hdone
    rw [← h.nodes] at hfound
    refine ⟨fuelProbe, l, before, after, ?_, h, Reached.refl, hdone⟩
    unfold Tables.handleDependency
    rw [hprobe]
    simp only [hfound]
  -- it is none of the calls under way
  have htop : modDep ≠ top.mod := fun heq => hacyclic top.mod (TransGen.single (heq ▸ hdepends))
  have hrest : modDep ∉ rest.map Node.mod := by
    intro hmem
    obtain ⟨n, hn, hmod⟩ := List.mem_map.mp hmem
    have hcycle := (h.stack n hn).tail hdepends
    rw [hmod] at hcycle
    exact hacyclic modDep hcycle
  have hsearch : search modDep top.iter l.nodes true = search modDep top.iter after false := by
    rw [h.nodes, search_skip true _ hbefore hdone, search_at,
      search_skip false _ (fun n hn =>
        hiters n (List.mem_append_right _ (List.mem_append_left _ hn))) hrest]
  by_cases hafter : modDep ∈ after.map Node.mod
  · -- it has been requested: it is moved
    obtain ⟨n, hmem, rfl⟩ := List.mem_map.mp hafter
    obtain ⟨after₁, after₂, rfl⟩ := List.append_of_mem hmem
    have hafter₁ : n.mod ∉ after₁.map Node.mod := by
      have hmods := h.wf.mods
      rw [h.nodes] at hmods
      simp only [List.map_append, List.map_cons, List.nodup_append, List.nodup_cons] at hmods
      exact fun hfirst => hmods.2.1.2.2.1.2.2 n.mod hfirst n.mod List.mem_cons_self rfl
    have hinside : ∀ m ∈ after₁ ++ n :: after₂, m.iter ≠ top.iter := fun m hm =>
      hiters m (List.mem_append_right _ (List.mem_append_right _ hm))
    have hfound : search n.mod top.iter (after₁ ++ n :: after₂) false = (some n.iter, false) := by
      rw [search_skip false _ (fun m hm => hinside m (List.mem_append_left _ hm)) hafter₁]
      simp [search, hinside n (List.mem_append_right _ List.mem_cons_self)]
    obtain ⟨erased, herase, harranged, hmod⟩ := h.erase
    obtain ⟨fuel, inserted, l', before', after', hins, hcall, hl', hreached, hin⟩ :=
      harranged.call hdepends hmod hrec
    refine ⟨max fuelProbe fuel, l', before', after', ?_, hl', hreached.erased hin, hin⟩
    unfold Tables.handleDependency
    rw [probe_mono hprobe (Nat.le_max_left _ _)]
    simp only [hsearch, hfound, herase, hins]
    exact handleDependencies_mono hcall (Nat.le_max_right _ _)
  · -- it is new
    have hmod : modDep ∉ l.nodes.map Node.mod := by
      rw [h.nodes]
      simp only [List.map_append, List.map_cons, List.mem_append, List.mem_cons, not_or]
      exact ⟨hdone, htop, hrest, hafter⟩
    have hskip := search_skip false []
      (fun n hn => hiters n (List.mem_append_right _ (List.mem_append_right _ hn))) hafter
    rw [List.append_nil] at hskip
    obtain ⟨fuel, inserted, l', before', after', hins, hcall, hresult⟩ :=
      h.call hdepends hmod hrec
    refine ⟨max fuelProbe fuel, l', before', after', ?_, hresult⟩
    unfold Tables.handleDependency
    rw [probe_mono hprobe (Nat.le_max_left _ _)]
    simp only [hsearch, hskip, search, hins]
    exact handleDependencies_mono hcall (Nat.le_max_right _ _)

/-- **The whole loop**, over any of the module's dependencies. -/
theorem handleDependencies_fold (hacyclic : ∀ m, ¬ TransGen t.DependsOn m m) (deps : List Str) :
    ∀ {l : ModuleList} {before after : List Node},
      (∀ dep ∈ deps, dep ∈ t.dependencies top.mod
        ∧ ∃ d, t.Resolves dep d ∧ HandlesDependencies t d) →
      Arranged t l before top rest after →
        ∃ fuel l' before' after',
          deps.foldlM (t.handleDependency (t.handleDependencies fuel) fuel top.mod top.iter) l
            = .ok l'
          ∧ Arranged t l' before' top rest after' ∧ Reached t top.mod before after before' after'
          ∧ ∀ dep ∈ deps, ∀ d, t.Resolves dep d → d ∈ before'.map Node.mod := by
  induction deps with
  | nil =>
      intro l before after _ h
      exact ⟨0, l, before, after, rfl, h, Reached.refl,
        fun dep hdep => absurd hdep List.not_mem_nil⟩
  | cons dep deps ih =>
      intro l before after hdeps h
      obtain ⟨hmem, d, hresolves, hrec⟩ := hdeps dep List.mem_cons_self
      obtain ⟨fuel₁, l₁, before₁, after₁, hround, h₁, hreached₁, hin⟩ :=
        handleDependency_spec hacyclic hmem hresolves hrec h
      obtain ⟨fuel₂, l₂, before₂, after₂, hrounds, h₂, hreached₂, hall⟩ :=
        ih (fun dep hdep => hdeps dep (List.mem_cons_of_mem _ hdep)) h₁
      refine ⟨max fuel₁ fuel₂, l₂, before₂, after₂, ?_, h₂, hreached₁.trans hreached₂, ?_⟩
      · rw [List.foldlM_cons, handleDependency_mono (fun m l loc l' hrec =>
          handleDependencies_mono hrec (Nat.le_max_left _ _)) (Nat.le_max_left _ _) hround]
        refine foldlM_mono (fun s dep s' hdep => ?_) _ hrounds
        exact handleDependency_mono (fun m l loc l' hrec =>
          handleDependencies_mono hrec (Nat.le_max_right _ _)) (Nat.le_max_right _ _) hdep
      · intro dep' hdep' d' hd'
        rcases List.mem_cons.mp hdep' with rfl | hdep'
        · rw [Tables.Resolves.unique hd' hresolves]
          exact hreached₂.kept d hin
        · exact hall dep' hdep' d' hd'

/-- Every dependency of every module of the map resolves. -/
def Tables.DependenciesResolve (t : Tables) : Prop :=
  ∀ module, ∀ dep ∈ t.dependencies module, ∃ d, t.Resolves dep d

/-- Only keys of the map have dependencies. -/
theorem dependsOn_mem_keys (h : t.DependsOn m modDep) : m ∈ t.moduleMap.map Prod.fst := by
  obtain ⟨dep, hdep, -⟩ := h
  unfold Tables.dependencies at hdep
  cases hlookup : t.moduleMap.lookup m with
  | none =>
      rw [hlookup] at hdep
      cases hdep
  | some module =>
      obtain ⟨before, after, heq, -⟩ := List.lookup_eq_some_iff.mp hlookup
      rw [heq]
      simp

/-- **`handle_dependencies` ends**, with everything the module depends on in front of it. -/
theorem handleDependencies_spec (hresolve : t.DependenciesResolve)
    (hacyclic : ∀ m, ¬ TransGen t.DependsOn m m) : ∀ m, HandlesDependencies t m := by
  have hwf : WellFounded fun d m => t.DependsOn m d :=
    wellFounded_of_acyclic _ (fun _ _ h => dependsOn_mem_keys h) hacyclic
  intro m
  induction m using hwf.induction with
  | _ m ih =>
      intro l before top rest after htop h
      subst htop
      obtain ⟨fuel, l', before', after', hfold, h', hreached, hall⟩ :=
        handleDependencies_fold hacyclic (t.dependencies top.mod) (fun dep hdep => by
          obtain ⟨d, hd⟩ := hresolve top.mod dep hdep
          exact ⟨hdep, d, hd, ih d ⟨dep, hdep, hd⟩⟩) h
      exact ⟨fuel + 1, l', before', after', hfold, h', hreached,
        fun d ⟨dep, hdep, hd⟩ => hall dep hdep d hd⟩

/-! ## §9. `main`. -/

/-- Requested, or a requested module depends on it. -/
def Tables.Wanted (t : Tables) (requested : List ModulePtr) (m : ModulePtr) : Prop :=
  ∃ r ∈ requested, ReflTransGen t.DependsOn r m

/-- The list in front of the round for `top`. -/
structure LoopInv (t : Tables) (requested : List ModulePtr) (l : ModuleList)
    (before : List Node) (top : Node) (after : List Node) : Prop where
  arranged : Arranged t l before top [] after
  wanted : ∀ x ∈ before.map Node.mod, t.Wanted requested x
  left : ∀ x ∈ (top :: after).map Node.mod, x ∈ requested
  listed : ∀ r ∈ requested, r ∈ l.nodes.map Node.mod

/-- The list `main` comes to. -/
structure LoadOrder (t : Tables) (requested order : List ModulePtr) : Prop where
  nodup : order.Nodup
  behind : DependencyOrder t.DependsOn order
  wanted : ∀ x ∈ order, t.Wanted requested x
  listed : ∀ r ∈ requested, r ∈ order

variable {requested : List ModulePtr}

/-- **One round**: all is in order up to the node, or the next round may begin. -/
theorem LoopInv.round (h : LoopInv t requested l before top after)
    (harranged : Arranged t l' before' top [] after')
    (hreached : Reached t top.mod before after before' after')
    (hdeps : ∀ d, t.DependsOn top.mod d → d ∈ before'.map Node.mod) :
    (after' = [] → LoadOrder t requested (l'.nodes.map Node.mod))
      ∧ ∀ next after'', after' = next :: after'' →
        LoopInv t requested l' (before' ++ [top]) next after'' := by
  have htop : top.mod ∈ requested := h.left _ (by simp)
  have horder : DependencyOrder t.DependsOn ((before' ++ [top]).map Node.mod) := by
    rw [List.map_append, List.map_singleton]
    exact harranged.order.concat hdeps
  have hwanted : ∀ x ∈ (before' ++ [top]).map Node.mod, t.Wanted requested x := by
    intro x hx
    rw [List.map_append, List.mem_append, List.map_singleton, List.mem_singleton] at hx
    rcases hx with hx | rfl
    · rcases hreached.new x hx with hx | hx
      · exact h.wanted x hx
      · exact ⟨top.mod, htop, hx.to_reflTransGen⟩
    · exact ⟨top.mod, htop, ReflTransGen.refl⟩
  have hlisted : ∀ r ∈ requested, r ∈ l'.nodes.map Node.mod := by
    intro r hr
    have hmem := h.listed r hr
    rw [h.arranged.nodes] at hmem
    rw [harranged.nodes]
    simp only [List.nil_append, List.map_append, List.map_cons, List.mem_append, List.mem_cons]
      at hmem ⊢
    rcases hmem with hmem | hmem | hmem
    · exact Or.inl (hreached.kept r hmem)
    · exact Or.inr (Or.inl hmem)
    · exact (hreached.moved r hmem).imp id Or.inr
  constructor
  · intro hempty
    have hnodes : l'.nodes = before' ++ [top] := by
      rw [harranged.nodes, hempty]
      rfl
    refine ⟨harranged.wf.mods, ?_, ?_, hlisted⟩
    · rw [hnodes]
      exact horder
    · rw [hnodes]
      exact hwanted
  · intro next after'' hafter'
    subst hafter'
    have hnodes : l'.nodes = (before' ++ [top]) ++ next :: ([] ++ after'') := by
      rw [harranged.nodes]
      simp
    refine ⟨⟨harranged.wf, hnodes, horder, fun n hn => absurd hn List.not_mem_nil⟩, hwanted,
      fun x hx => ?_, hlisted⟩
    exact h.left x (List.mem_cons_of_mem _ ((hreached.after_sub.map Node.mod).subset hx))

/-- **The loop ends**; each round leaves less of the list in front of it. -/
theorem orderLoop_spec (hresolve : t.DependenciesResolve)
    (hacyclic : ∀ m, ¬ TransGen t.DependsOn m m) (count : Nat) :
    ∀ {l : ModuleList} {before : List Node} {top : Node} {after : List Node},
      after.length = count → LoopInv t requested l before top after →
        ∃ fuel l', t.orderLoop fuel (some top.iter) l = .ok l'
          ∧ LoadOrder t requested (l'.nodes.map Node.mod) := by
  induction count using Nat.strong_induction_on with
  | _ count ih =>
      intro l before top after hcount h
      obtain ⟨fuel, l', before', after', hcall, harranged, hreached, hdeps⟩ :=
        handleDependencies_spec hresolve hacyclic top.mod l before top [] after rfl h.arranged
      obtain ⟨hend, hnext⟩ := h.round harranged hreached hdeps
      have hderef := derefNext_append after fun n hn =>
        h.arranged.wf.iter_ne h.arranged.nodes n (List.mem_append_left _ hn)
      have hderef' := derefNext_append after' fun n hn =>
        harranged.wf.iter_ne harranged.nodes n (List.mem_append_left _ hn)
      rw [← List.nil_append after, ← h.arranged.nodes] at hderef
      rw [← List.nil_append after', ← harranged.nodes] at hderef'
      cases after' with
      | nil =>
          refine ⟨fuel + 1, l', ?_, hend rfl⟩
          unfold Tables.orderLoop
          simp only [hderef, hcall, hderef']
          cases fuel <;> rfl
      | cons next after'' =>
          have hless : after''.length < count := by
            have hle := hreached.after_sub.length_le
            rw [List.length_cons, hcount] at hle
            omega
          obtain ⟨fuel', l'', hloop, hresult⟩ := ih _ hless rfl (hnext next after'' rfl)
          refine ⟨max fuel fuel' + 1, l'', ?_, hresult⟩
          unfold Tables.orderLoop
          simp only [hderef, handleDependencies_mono hcall (Nat.le_max_left _ _), hderef']
          exact orderLoop_mono hloop (Nat.le_max_right _ _)

/-- **The requested names** are resolved one after another. -/
theorem resolveRequested_fold (modList : List Str) : ∀ {mods : List ModulePtr} {l : ModuleList},
    List.Forall₂ t.Resolves modList mods → l.WF → (l.nodes.map Node.mod ++ mods).Nodup →
      ∃ fuel l', modList.foldlM (t.resolveRequested fuel) l = .ok l' ∧ l'.WF
        ∧ l'.nodes.map Node.mod = l.nodes.map Node.mod ++ mods := by
  induction modList with
  | nil =>
      intro mods l hresolves hwf _
      cases hresolves
      exact ⟨0, l, rfl, hwf, (List.append_nil _).symm⟩
  | cons mod modList ih =>
      intro mods l hresolves hwf hnodup
      cases hresolves with
      | @cons _ m _ mods hmod hrest =>
          obtain ⟨fuel, hprobe⟩ := hmod
          have hmods : (l.pushBack m).nodes.map Node.mod = l.nodes.map Node.mod ++ [m] := by
            simp [ModuleList.pushBack]
          rw [List.append_cons, ← hmods] at hnodup
          have hwf' : (l.pushBack m).WF := by
            refine ⟨?_, fun n hn => ?_, hnodup.sublist (List.sublist_append_left _ _)⟩
            · rw [ModuleList.pushBack, List.map_append, List.map_singleton]
              refine List.nodup_append.mpr ⟨hwf.iters, List.nodup_singleton _, ?_⟩
              intro i hi j hj heq
              obtain ⟨n, hn, rfl⟩ := List.mem_map.mp hi
              rw [List.mem_singleton.mp hj] at heq
              exact Nat.ne_of_lt (hwf.fresh n hn) heq
            · rcases List.mem_append.mp hn with hn | hn
              · exact Nat.lt_succ_of_lt (hwf.fresh n hn)
              · rw [List.mem_singleton.mp hn]
                exact Nat.lt_succ_self _
          obtain ⟨fuel', l', hfold, hl', heq⟩ := ih hrest hwf' hnodup
          refine ⟨max fuel fuel', l', ?_, hl', ?_⟩
          · rw [List.foldlM_cons]
            unfold Tables.resolveRequested
            rw [probe_mono hprobe (Nat.le_max_left _ _)]
            exact foldlM_mono (fun s mod s' h => resolveRequested_mono h (Nat.le_max_right _ _))
              _ hfold
          · rw [heq, hmods, List.append_assoc]
            rfl

theorem main_mono {modList : List Str} {order : List ModulePtr}
    (h : t.main fuel modList = .ok order) (hle : fuel ≤ fuel') :
    t.main fuel' modList = .ok order := by
  unfold Tables.main at h ⊢
  cases hfold : modList.foldlM (t.resolveRequested fuel) ⟨[], 0⟩ with
  | error stop =>
      rw [hfold] at h
      cases h
  | ok l =>
      rw [hfold] at h
      rw [foldlM_mono (fun s mod s' h => resolveRequested_mono h hle) _ hfold]
      cases hloop : t.orderLoop fuel (l.nodes.head?.map Node.iter) l with
      | error stop =>
          simp only [bind, Except.bind, hloop] at h
          cases h
      | ok l' =>
          simp only [bind, Except.bind, hloop] at h ⊢
          rw [orderLoop_mono hloop hle]
          exact h

/-- **`main` comes to an order.** -/
theorem main_spec (hresolve : t.DependenciesResolve) (hacyclic : ∀ m, ¬ TransGen t.DependsOn m m)
    {modList : List Str} (hrequested : List.Forall₂ t.Resolves modList requested)
    (hdistinct : requested.Nodup) :
    ∃ fuel order, t.main fuel modList = .ok order ∧ LoadOrder t requested order := by
  obtain ⟨fuel, l, hfold, hwf, hmods⟩ := resolveRequested_fold (l := ⟨[], 0⟩) modList hrequested
    ⟨List.nodup_nil, fun n hn => absurd hn List.not_mem_nil, List.nodup_nil⟩ hdistinct
  rw [List.map_nil, List.nil_append] at hmods
  cases hnodes : l.nodes with
  | nil =>
      rw [hnodes] at hmods
      subst hmods
      refine ⟨fuel, [], ?_, List.nodup_nil, DependencyOrder.nil, ?_, ?_⟩
      · have hend : t.orderLoop fuel none l = .ok l := by
          cases fuel <;> rfl
        unfold Tables.main
        rw [hfold]
        simp only [bind, Except.bind, hnodes, List.head?_nil, Option.map_none, hend]
        rfl
      · exact fun x hx => absurd hx List.not_mem_nil
      · exact fun r hr => hr
  | cons top after =>
      have hinv : LoopInv t requested l [] top after := by
        refine ⟨⟨hwf, hnodes, DependencyOrder.nil, fun n hn => absurd hn List.not_mem_nil⟩,
          fun x hx => absurd hx List.not_mem_nil, fun x hx => ?_, fun r hr => hmods ▸ hr⟩
        rw [← hmods, hnodes]
        exact hx
      obtain ⟨fuel', l', hloop, horder⟩ := orderLoop_spec hresolve hacyclic _ rfl hinv
      refine ⟨max fuel fuel', l'.nodes.map Node.mod, ?_, horder⟩
      unfold Tables.main
      rw [foldlM_mono (fun s mod s' h => resolveRequested_mono h (Nat.le_max_left _ _)) _ hfold]
      have hloop' := orderLoop_mono hloop (Nat.le_max_right fuel fuel')
      simp only [bind, Except.bind, hnodes, List.head?_cons, Option.map_some, hloop']
      rfl

/-- **THE LOAD ORDER OF `modprobe`**: it ends, and the list holds the requested modules and
what they depend on, directly or not, each once and behind all that it depends on. -/
theorem modprobe_load_order (t : Tables) (modList : List Str) (requested : List ModulePtr)
    (hresolve : t.DependenciesResolve) (hacyclic : ∀ m, ¬ TransGen t.DependsOn m m)
    (hrequested : List.Forall₂ t.Resolves modList requested) (hdistinct : requested.Nodup) :
    ∃ bound order, (∀ fuel ≥ bound, t.main fuel modList = .ok order)
      ∧ order.Nodup
      ∧ (∀ m, m ∈ order ↔ ∃ r ∈ requested, ReflTransGen t.DependsOn r m)
      ∧ ∀ pre m post, order = pre ++ m :: post → ∀ d, TransGen t.DependsOn m d → d ∈ pre := by
  obtain ⟨bound, order, hmain, horder⟩ := main_spec hresolve hacyclic hrequested hdistinct
  refine ⟨bound, order, fun fuel hle => main_mono hmain hle, horder.nodup, fun m => ?_, ?_⟩
  · constructor
    · exact horder.wanted m
    · intro ⟨r, hr, hreach⟩
      exact horder.behind.reflTransGen_mem (horder.listed r hr) hreach
  · intro pre m post heq d hd
    exact horder.behind.transGen heq hd

/-- `a` needs `x`, which is an alias of `b`, and `b` needs `c`. -/
def chain : Tables where
  moduleMap := [([97], ⟨[97], [], [[120]]⟩), ([98], ⟨[98], [], [[99]]⟩), ([99], ⟨[99], [], []⟩)]
  hashedAliases := [([120], [98])]
  patternAliases := []

theorem chain_dependencies {dep : Str} (h : dep ∈ chain.dependencies m) :
    m = [97] ∧ dep = [120] ∨ m = [98] ∧ dep = [99] := by
  unfold Tables.dependencies chain at h
  simp only [List.lookup_cons, List.lookup_nil] at h
  split at h
  · simp_all
  · split at h
    · simp_all
    · split at h <;> simp_all

theorem chain_dependsOn (h : chain.DependsOn m modDep) :
    m = [97] ∧ modDep = [98] ∨ m = [98] ∧ modDep = [99] := by
  obtain ⟨dep, hdep, hresolves⟩ := h
  rcases chain_dependencies hdep with ⟨rfl, rfl⟩ | ⟨rfl, rfl⟩
  · exact Or.inl ⟨rfl, Tables.Resolves.unique hresolves ⟨2, rfl⟩⟩
  · exact Or.inr ⟨rfl, Tables.Resolves.unique hresolves ⟨1, rfl⟩⟩

/-- The chain from `a` when `c` is requested as well, and comes behind `a` at first. -/
theorem modprobe_load_order_chain :
    ∃ bound order, (∀ fuel ≥ bound, chain.main fuel [[97], [99]] = .ok order)
      ∧ order.Nodup
      ∧ (∀ m, m ∈ order ↔ ∃ r ∈ [[97], [99]], ReflTransGen chain.DependsOn r m)
      ∧ ∀ pre m post, order = pre ++ m :: post → ∀ d, TransGen chain.DependsOn m d → d ∈ pre := by
  refine modprobe_load_order chain [[97], [99]] [[97], [99]] ?_ ?_ ?_ (by decide)
  · intro m dep hdep
    rcases chain_dependencies hdep with ⟨-, rfl⟩ | ⟨-, rfl⟩
    · exact ⟨[98], 2, rfl⟩
    · exact ⟨[99], 1, rfl⟩
  · -- every dependency has a later name
    have hlater : ∀ {m d}, TransGen chain.DependsOn m d →
        (m.headD 0).toNat < (d.headD 0).toNat := by
      intro m d h
      induction h with
      | single h =>
          rcases chain_dependsOn h with ⟨rfl, rfl⟩ | ⟨rfl, rfl⟩ <;> decide
      | tail _ h ih =>
          refine Nat.lt_trans ih ?_
          rcases chain_dependsOn h with ⟨rfl, rfl⟩ | ⟨rfl, rfl⟩ <;> decide
    exact fun m h => Nat.lt_irrefl _ (hlater h)
  · exact List.Forall₂.cons ⟨1, rfl⟩ (List.Forall₂.cons ⟨1, rfl⟩ List.Forall₂.nil)

example : chain.main 9 [[97], [99]] = .ok [[99], [98], [97]] := by decide +kernel

end MierOS.Userspace.Modprobe
