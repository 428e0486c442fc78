/-
  MierOS.Tasking.DupStream
  **`Process::dup_stream`** of `process.cpp` with the entries of the table where
  they are: in memory.

  `at(oldFd)` answers with a REFERENCE into an entry.  `erase(newFd)` frees the
  entry of `newFd`, and only then is the reference read.  For two different
  descriptors the entries differ, in whatever chains they sit; for one and the
  same descriptor the reference dangles.

  `RefTable` is the table of `Tasking.Descriptors` with the addresses of the
  entries for values, and the memory the entries are in.  A read of memory that
  is not allocated has no result.

  Main results: `dup_stream_iff`, `Shows.dupStream`.
-/
import MierOS.Tasking.Descriptors
import Mathlib.Logic.Function.Basic

namespace MierOS.Tasking

open Stdlib Lib
open Function (update update_of_ne update_self)

/-! ## §1. The table in memory. -/

/-- `f_streams`, with the address of each entry for its value, what the allocated entries
hold, and `f_next_fd`. -/
structure RefTable (V : Type) where
  streams : UnorderedMap Fd Nat
  memory : Nat → Option V
  nextFd : Fd

namespace RefTable

variable {V : Type} (hash : Fd → Nat)

/-- The stream that `fd` denotes. -/
def denotes (t : RefTable V) (fd : Fd) : Option V := (t.streams.at hash fd).bind t.memory

/-- `f_streams.erase(key)`, which frees the entry. -/
def erase (t : RefTable V) (key : Fd) : RefTable V :=
  { t with
    streams := t.streams.erase hash key
    memory := match t.streams.at hash key with
      | some entry => update t.memory entry none
      | none => t.memory }

/-- `f_streams.insert({ key, value })`: the allocator answers with `entry`, which is freed
again when the key is there. -/
def insert (t : RefTable V) (key : Fd) (value : V) (entry : Nat) : RefTable V :=
  let memory := update t.memory entry (some value)
  let (inserted, streams) := t.streams.insert hash key entry
  if inserted then { t with streams := streams, memory := memory }
  else { t with memory := update memory entry none }

/-- What `dup_stream` does before it inserts: the descriptor to use, and the table. -/
def place (t : RefTable V) (newFd : Fd) : Option (Fd × RefTable V) :=
  if newFd ≠ Fd.none then
    some (newFd, if (t.streams.at hash newFd).isSome then t.erase hash newFd else t)
  else (FdTable.firstUnused hash t.streams FdTable.searchSteps t.nextFd).map fun fd => (fd, t)

/-- `entry` is one the allocator may answer with: it is free in the table that it is inserted
into, where the entry of `newFd` has just been freed. -/
def Fresh (t : RefTable V) (newFd : Fd) (entry : Nat) : Prop :=
  ∀ fd placed, t.place hash newFd = some (fd, placed) → placed.memory entry = none

/-- `dup_stream(oldFd, newFd)`; `none` is a read of freed memory, or a search that never
ends. -/
def dupStream (t : RefTable V) (oldFd newFd : Fd) (entry : Nat) :
    Option (Except Errno Fd × RefTable V) :=
  match t.streams.at hash oldFd with
  | none => some (.error .EBADF, t)
  | some val => do
      let (newFd, t) ← t.place hash newFd
      let value ← t.memory val
      some (.ok newFd, t.insert hash newFd value entry)

/-- **The table invariant**: the map is well formed, and the descriptors have allocated
entries of their own. -/
structure WF (t : RefTable V) : Prop where
  map : t.streams.WF hash
  own : ∀ fd fd' entry, t.streams.at hash fd = some entry → t.streams.at hash fd' = some entry →
    fd = fd'
  allocated : ∀ fd entry, t.streams.at hash fd = some entry → t.memory entry ≠ none

variable {hash} {t t' : RefTable V} {fd oldFd newFd : Fd} {entry : Nat} {value : V}

/-! ## §2. Erasing and inserting. -/

/-- A descriptor of a well-formed table is open exactly when it denotes a stream. -/
theorem WF.denotes_eq_none_iff (h : t.WF hash) (fd : Fd) :
    t.denotes hash fd = none ↔ t.streams.at hash fd = none := by
  unfold denotes
  cases hat : t.streams.at hash fd with
  | none => simp
  | some entry =>
      have hentry := h.allocated fd entry hat
      simpa using hentry

/-- **`erase`** takes one descriptor out and leaves the entries of the others. -/
theorem WF.erase (h : t.WF hash) (key : Fd) :
    (t.erase hash key).WF hash
      ∧ (∀ fd, (t.erase hash key).streams.at hash fd
          = if fd = key then none else t.streams.at hash fd)
      ∧ ∀ fd entry, fd ≠ key → t.streams.at hash fd = some entry →
          (t.erase hash key).memory entry = t.memory entry := by
  have hat := UnorderedMap.at_erase h.map key
  have hmemory : ∀ fd entry, fd ≠ key → t.streams.at hash fd = some entry →
      (t.erase hash key).memory entry = t.memory entry := by
    intro fd entry hne hfd
    unfold RefTable.erase
    cases hkey : t.streams.at hash key with
    | none => rfl
    | some freed =>
        -- another descriptor, another entry
        have hentry : entry ≠ freed := fun heq => hne (h.own fd key freed (heq ▸ hfd) hkey)
        exact update_of_ne hentry _ _
  refine ⟨⟨h.map.erase key, ?_, ?_⟩, hat, hmemory⟩
  · intro fd fd' entry hfd hfd'
    rw [show (t.erase hash key).streams = t.streams.erase hash key from rfl, hat] at hfd hfd'
    split at hfd
    · cases hfd
    · split at hfd'
      · cases hfd'
      · exact h.own fd fd' entry hfd hfd'
  · intro fd entry hfd
    rw [show (t.erase hash key).streams = t.streams.erase hash key from rfl, hat] at hfd
    split at hfd
    · cases hfd
    · rw [hmemory fd entry ‹_› hfd]
      exact h.allocated fd entry hfd

/-- **`insert`** of a new descriptor. -/
theorem WF.insert (h : t.WF hash) {key : Fd} (hkey : t.streams.at hash key = none)
    (hfree : t.memory entry = none) (value : V) :
    (t.insert hash key value entry).WF hash
      ∧ (∀ fd, (t.insert hash key value entry).streams.at hash fd
          = if fd = key then some entry else t.streams.at hash fd)
      ∧ ∀ fd, (t.insert hash key value entry).denotes hash fd
          = if fd = key then some value else t.denotes hash fd := by
  have habsent := (UnorderedMap.at_eq_none_iff h.map key).mp hkey
  have hinserted := (UnorderedMap.insert_of_not_mem h.map (v := entry) habsent).1
  have hat := UnorderedMap.at_insert h.map entry hkey
  have hinsert : t.insert hash key value entry
      = { t with
          streams := (t.streams.insert hash key entry).2
          memory := update t.memory entry (some value) } := by
    unfold RefTable.insert
    simp only [hinserted, if_true]
  -- the new entry is none of those in the table
  have hother : ∀ fd e, t.streams.at hash fd = some e → e ≠ entry := fun fd e hfd heq =>
    h.allocated fd e hfd (heq ▸ hfree)
  rw [hinsert]
  refine ⟨⟨h.map.insert key entry, ?_, ?_⟩, hat, ?_⟩
  · intro fd fd' e hfd hfd'
    simp only [hat] at hfd hfd'
    split at hfd <;> split at hfd'
    · exact ‹fd = key›.trans ‹fd' = key›.symm
    · exact absurd (Option.some.inj hfd).symm (hother fd' e hfd')
    · exact absurd (Option.some.inj hfd').symm (hother fd e hfd)
    · exact h.own fd fd' e hfd hfd'
  · intro fd e hfd
    simp only [hat] at hfd
    show update t.memory entry (some value) e ≠ none
    split at hfd
    · rw [← Option.some.inj hfd, update_self]
      simp
    · rw [update_of_ne (hother fd e hfd)]
      exact h.allocated fd e hfd
  · intro fd
    unfold denotes
    simp only [hat]
    by_cases hfd : fd = key
    · rw [if_pos hfd, if_pos hfd]
      exact update_self ..
    · rw [if_neg hfd, if_neg hfd]
      cases hat' : t.streams.at hash fd with
      | none => rfl
      | some e => exact update_of_ne (hother fd e hat') _ _

/-! ## §3. `dup_stream`. -/

/-- What is placed is a table without the new descriptor; the entry that `oldFd` refers to
is still allocated unless it is the one that was erased. -/
theorem WF.place (h : t.WF hash) {newFd' : Fd} (hplace : t.place hash newFd = some (newFd', t')) :
    t'.WF hash ∧ t'.streams.at hash newFd' = none
      ∧ (∀ fd, fd ≠ newFd' → t'.denotes hash fd = t.denotes hash fd)
      ∧ (∀ fd entry, fd ≠ newFd' → t.streams.at hash fd = some entry →
          t'.memory entry = t.memory entry)
      ∧ t'.nextFd = t.nextFd := by
  unfold RefTable.place at hplace
  by_cases hnone : newFd = Fd.none
  · rw [if_neg (not_not_intro hnone)] at hplace
    obtain ⟨fd, hsearch, heq⟩ := Option.map_eq_some_iff.mp hplace
    obtain ⟨rfl, rfl⟩ := Prod.mk.inj heq
    exact ⟨h, FdTable.firstUnused_free hsearch, fun _ _ => rfl, fun _ _ _ _ => rfl, rfl⟩
  · rw [if_pos hnone] at hplace
    obtain ⟨rfl, rfl⟩ := Prod.mk.inj (Option.some.inj hplace)
    by_cases hopen : (t.streams.at hash newFd).isSome = true
    · rw [if_pos hopen]
      obtain ⟨hwf, hat, hmemory⟩ := h.erase newFd
      refine ⟨hwf, by rw [hat, if_pos rfl], fun fd hfd => ?_, hmemory, rfl⟩
      unfold denotes
      rw [hat, if_neg hfd]
      cases hfd' : t.streams.at hash fd with
      | none => rfl
      | some entry => exact hmemory fd entry hfd hfd'
    · rw [if_neg hopen]
      exact ⟨h, Option.not_isSome_iff_eq_none.mp hopen, fun _ _ => rfl, fun _ _ _ _ => rfl, rfl⟩

/-- **Another descriptor, or none asked for**: the reference is good. -/
theorem WF.dupStream (h : t.WF hash) (hopen : t.denotes hash oldFd = some value)
    (hfresh : t.Fresh hash newFd entry) {newFd' : Fd} {placed : RefTable V}
    (hplace : t.place hash newFd = some (newFd', placed)) (hne : oldFd ≠ newFd') :
    ∃ t', t.dupStream hash oldFd newFd entry = some (.ok newFd', t') ∧ t'.WF hash
      ∧ (∀ fd, t'.denotes hash fd = if fd = newFd' then some value else t.denotes hash fd)
      ∧ t'.nextFd = t.nextFd := by
  obtain ⟨hwf, habsent, hsame, hmemory, hnext⟩ := h.place hplace
  obtain ⟨val, hval, hvalue⟩ := Option.bind_eq_some_iff.mp hopen
  obtain ⟨hwf', -, hdenotes⟩ := hwf.insert habsent (hfresh newFd' placed hplace) value
  refine ⟨placed.insert hash newFd' value entry, ?_, hwf', fun fd => ?_, ?_⟩
  · unfold RefTable.dupStream
    rw [hval]
    simp only [hplace, Option.bind_eq_bind, Option.bind_some, hmemory oldFd val hne hval, hvalue]
  · rw [hdenotes]
    by_cases hfd : fd = newFd'
    · rw [if_pos hfd, if_pos hfd]
    · rw [if_neg hfd, if_neg hfd, hsame fd hfd]
  · rw [← hnext]
    unfold RefTable.insert
    simp only
    split
    · rfl
    · rfl

/-- **The same descriptor twice**: the reference dangles. -/
theorem dupStream_self (hopen : t.denotes hash fd = some value)
    (hne : fd ≠ Fd.none) : t.dupStream hash fd fd entry = none := by
  obtain ⟨val, hval, -⟩ := Option.bind_eq_some_iff.mp hopen
  have hfreed : (t.erase hash fd).memory val = none := by
    unfold RefTable.erase
    rw [hval]
    exact update_self ..
  unfold RefTable.dupStream RefTable.place
  simp only [hval, if_pos hne, Option.isSome_some, if_true, Option.bind_eq_bind, Option.bind_some,
    hfreed, Option.bind_none]

/-- What a successful `dup_stream(oldFd, newFd)` should leave: `newFd` denotes what `oldFd`
denoted, and every other descriptor what it denoted before; `dup_stream(fd, fd)` changes
nothing. -/
def DupMeans (hash : Fd → Nat) (t : RefTable V) (oldFd newFd : Fd) (entry : Nat) : Prop :=
  ∃ t', t.dupStream hash oldFd newFd entry = some (.ok newFd, t') ∧ t'.WF hash
    ∧ t'.denotes hash oldFd = t.denotes hash oldFd
    ∧ t'.denotes hash newFd = t.denotes hash oldFd
    ∧ (∀ fd, fd ≠ newFd → t'.denotes hash fd = t.denotes hash fd)
    ∧ t'.nextFd = t.nextFd

/-- **`dup_stream` MEANS WHAT IT SHOULD EXACTLY FOR TWO DIFFERENT DESCRIPTORS**, whatever
chains they are in and whether or not `newFd` was open; a call that fails changes nothing. -/
theorem dup_stream_iff (h : t.WF hash) (oldFd : Fd) (hnew : newFd ≠ Fd.none)
    (hfresh : t.Fresh hash newFd entry) :
    (t.denotes hash oldFd = none → t.dupStream hash oldFd newFd entry = some (.error .EBADF, t))
      ∧ (t.denotes hash oldFd ≠ none → (t.DupMeans hash oldFd newFd entry ↔ oldFd ≠ newFd)) := by
  refine ⟨fun hclosed => ?_, fun hopen => ?_⟩
  · unfold RefTable.dupStream
    rw [(h.denotes_eq_none_iff oldFd).mp hclosed]
  · obtain ⟨value, hvalue⟩ := Option.ne_none_iff_exists'.mp hopen
    constructor
    · intro ⟨t', hdup, _⟩ heq
      subst heq
      rw [dupStream_self hvalue hnew] at hdup
      cases hdup
    · intro hne
      have hplace : t.place hash newFd
          = some (newFd, if (t.streams.at hash newFd).isSome then t.erase hash newFd else t) :=
        if_pos hnew
      obtain ⟨t', hdup, hwf, hdenotes, hnext⟩ := h.dupStream hvalue hfresh hplace hne
      refine ⟨t', hdup, hwf, ?_, ?_, fun fd hfd => ?_, hnext⟩
      · rw [hdenotes, if_neg hne]
      · rw [hdenotes, if_pos rfl, hvalue]
      · rw [hdenotes, if_neg hfd]

/-- The table of a new process. -/
def empty : RefTable V where
  streams := UnorderedMap.ofCapacity UnorderedMap.initialBucketSize
  memory := fun _ => none
  nextFd := Fd.zero

theorem wf_empty : (empty : RefTable V).WF hash := by
  have hmap := (UnorderedMap.wf_ofCapacity (V := Nat) hash
    (show 0 < UnorderedMap.initialBucketSize by decide)).1
  have hat : ∀ fd, (empty : RefTable V).streams.at hash fd = none := fun fd =>
    UnorderedMap.at_ofCapacity (by decide) fd
  refine ⟨hmap, fun fd fd' entry hfd => ?_, fun fd entry hfd => ?_⟩
  · rw [hat] at hfd
    cases hfd
  · rw [hat] at hfd
    cases hfd

/-- Descriptor `1`. -/
def one : Fd := ⟨1, by omega, by omega⟩

/-- Descriptors `0` and `1` open on two streams, in one chain. -/
def twoStreams : RefTable Char :=
  (empty.insert (fun _ => 0) Fd.zero 'a' 100).insert (fun _ => 0) one 'b' 200

theorem twoStreams_spec :
    twoStreams.WF (fun _ => 0)
      ∧ ∀ fd, twoStreams.denotes (fun _ => 0) fd
          = if fd = one then some 'b' else if fd = Fd.zero then some 'a' else none := by
  have habsent : ∀ fd, (empty : RefTable Char).streams.at (fun _ => 0) fd = none := fun fd =>
    UnorderedMap.at_ofCapacity (by decide) fd
  obtain ⟨hwf, hat, hdenotes⟩ :=
    wf_empty.insert (habsent Fd.zero) (show (empty : RefTable Char).memory 100 = none from rfl) 'a'
  have hone : one ≠ Fd.zero := by decide
  have hfree : (empty.insert (fun _ => 0) Fd.zero 'a' 100).memory 200 = none := by decide
  have habsent' : (empty.insert (fun _ => 0) Fd.zero 'a' 100).streams.at (fun _ => 0) one = none := by
    rw [hat, if_neg hone, habsent]
  obtain ⟨hwf', -, hdenotes'⟩ := hwf.insert habsent' hfree 'b'
  refine ⟨hwf', fun fd => ?_⟩
  rw [show twoStreams = (empty.insert (fun _ => 0) Fd.zero 'a' 100).insert (fun _ => 0) one 'b' 200
    from rfl, hdenotes', hdenotes]
  unfold denotes
  rw [habsent]
  rfl

/-- Before `newFd` is inserted its own entry is free again. -/
theorem fresh_of_open {e : Nat} (hopen : t.streams.at hash newFd = some e)
    (hnew : newFd ≠ Fd.none) :
    t.Fresh hash newFd e := by
  intro fd placed hplace
  unfold RefTable.place at hplace
  rw [if_pos hnew, if_pos (by rw [hopen]; rfl)] at hplace
  obtain ⟨-, rfl⟩ := Prod.mk.inj (Option.some.inj hplace)
  unfold RefTable.erase
  rw [hopen]
  exact update_self ..

/-- `dup2(0, 1)` within one chain, where the allocator answers with the entry that `1` had,
and `dup2` of a descriptor that is not open. -/
theorem dup_stream_iff_collision :
    twoStreams.DupMeans (fun _ => 0) Fd.zero one 200
      ∧ twoStreams.dupStream (fun _ => 0) one.succ one 200 = some (.error .EBADF, twoStreams) := by
  obtain ⟨hwf, hdenotes⟩ := twoStreams_spec
  have hnew : one ≠ Fd.none := by decide
  have hfresh : twoStreams.Fresh (fun _ => 0) one 200 := fresh_of_open (by decide) hnew
  have hiff := dup_stream_iff hwf Fd.zero hnew hfresh
  have hclosed := dup_stream_iff hwf one.succ hnew hfresh
  exact ⟨(hiff.2 (by rw [hdenotes]; decide)).mpr (by decide), hclosed.1 (by rw [hdenotes]; decide)⟩

/-- **`dup2(0, 0)`** reads the entry it has freed. -/
theorem dup_of_itself_dangles :
    ¬ ∀ (t : RefTable Char) (oldFd newFd : Fd) (entry : Nat), t.WF (fun _ => 0) →
      newFd ≠ Fd.none → t.Fresh (fun _ => 0) newFd entry → t.denotes (fun _ => 0) oldFd ≠ none →
      t.DupMeans (fun _ => 0) oldFd newFd entry := by
  intro hclaim
  obtain ⟨hwf, hdenotes⟩ := twoStreams_spec
  have hzero : twoStreams.denotes (fun _ => 0) Fd.zero = some 'a' := by
    rw [hdenotes]
    decide
  obtain ⟨t', hdup, -⟩ := hclaim twoStreams Fd.zero Fd.zero 100 hwf (by decide)
    (fresh_of_open (by decide) (by decide)) (by simp [hzero])
  rw [dupStream_self hzero (by decide)] at hdup
  cases hdup

/-! ## §4. The table of values. -/

/-- The entries hold the values of `f`. -/
def Shows (hash : Fd → Nat) (t : RefTable V) (f : FdTable V) : Prop :=
  (∀ fd, t.denotes hash fd = f.streams.at hash fd) ∧ t.nextFd = f.nextFd

/-- The search looks only at which descriptors are in use. -/
theorem firstUnused_congr {V' : Type} {m : UnorderedMap Fd V} {m' : UnorderedMap Fd V'}
    (hsame : ∀ fd, m.at hash fd = none ↔ m'.at hash fd = none) (fuel : Nat) :
    ∀ fd, FdTable.firstUnused hash m fuel fd = FdTable.firstUnused hash m' fuel fd := by
  induction fuel with
  | zero => intro fd; rfl
  | succ fuel ih =>
      intro fd
      unfold FdTable.firstUnused
      have hiff : (m.find hash fd).entry.isEmpty = true ↔ (m'.find hash fd).entry.isEmpty = true := by
        rw [UnorderedMap.find_isEmpty_iff, UnorderedMap.find_isEmpty_iff]
        exact hsame fd
      simp only [hiff, ih]

/-- **For two different descriptors** the references do what the values do. -/
theorem Shows.dupStream {f f' : FdTable V} {freed : V} {r : Except Errno Fd}
    (hshows : t.Shows hash f) (h : t.WF hash) (hf : f.WF hash) (hne : oldFd ≠ newFd)
    (hfresh : t.Fresh hash newFd entry)
    (hdup : f.dupStream hash oldFd newFd freed = some (r, f')) :
    ∃ t', t.dupStream hash oldFd newFd entry = some (r, t') ∧ t'.WF hash ∧ t'.Shows hash f' := by
  have hsame : ∀ fd, t.streams.at hash fd = none ↔ f.streams.at hash fd = none := fun fd => by
    rw [← hshows.1, h.denotes_eq_none_iff]
  unfold FdTable.dupStream at hdup
  cases hold : f.streams.at hash oldFd with
  | none =>
      rw [hold] at hdup
      obtain ⟨rfl, rfl⟩ := Prod.mk.inj (Option.some.inj hdup)
      refine ⟨t, ?_, h, hshows⟩
      unfold RefTable.dupStream
      rw [(hsame oldFd).mpr hold]
  | some value =>
      have hopen : t.denotes hash oldFd = some value := (hshows.1 oldFd).trans hold
      rw [hold] at hdup
      by_cases hnone : newFd = Fd.none
      · simp only [if_neg (not_not_intro hnone)] at hdup
        cases hsearch : FdTable.firstUnused hash f.streams FdTable.searchSteps f.nextFd with
        | none =>
            rw [hsearch] at hdup
            cases hdup
        | some fd =>
            rw [hsearch] at hdup
            obtain ⟨rfl, rfl⟩ := Prod.mk.inj (Option.some.inj hdup)
            have hplace : t.place hash newFd = some (fd, t) := by
              unfold RefTable.place
              rw [if_neg (not_not_intro hnone), hshows.2, firstUnused_congr hsame, hsearch]
              rfl
            have hfd := FdTable.firstUnused_free hsearch
            have hne' : oldFd ≠ fd := fun heq => by
              rw [heq, hfd] at hold
              cases hold
            obtain ⟨t', hdup', hwf, hdenotes, hnext⟩ := h.dupStream hopen hfresh hplace hne'
            refine ⟨t', hdup', hwf, fun x => ?_, hnext.trans hshows.2⟩
            rw [hdenotes, hshows.1]
            exact (UnorderedMap.at_insert hf.map value hfd x).symm
      · simp only [if_pos hnone, if_neg hne] at hdup
        obtain ⟨rfl, rfl⟩ := Prod.mk.inj (Option.some.inj hdup)
        obtain ⟨t', hdup', hwf, hdenotes, hnext⟩ :=
          h.dupStream hopen hfresh (if_pos hnone) hne
        refine ⟨t', hdup', hwf, fun x => ?_, hnext.trans hshows.2⟩
        rw [hdenotes, hshows.1]
        exact ((FdTable.at_overwrite hf.map newFd value).2 x).symm

end RefTable

end MierOS.Tasking
