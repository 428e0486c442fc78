/-
  MierOS.Tasking.Descriptors — the descriptor table of a process:
  `Process::add_stream`, `close_stream` and `dup_stream` of `process.cpp`, and
  the copy that `Process::fork` hands to the child.

  The table is the `std::UnorderedMap<fd_t, StreamWrapper>` of
  `Stdlib.UnorderedMap` with an arbitrary hash, and `f_next_fd` is the LOWEST-
  FREE HINT the searches start from.  A stream wrapper is an opaque value.

  Main results: `run_wf`, `addStream_lowest_iff`.
-/
import MierOS.Types
import MierOS.Lib.Run
import MierOS.Stdlib.UnorderedMap

namespace MierOS.Tasking

open Stdlib Lib

/-! ## §1. The table and its operations. -/

/-- `f_streams` and `f_next_fd` of a `Process`. -/
structure FdTable (V : Type) where
  streams : UnorderedMap Fd V
  nextFd : Fd
  deriving Repr

namespace FdTable

variable {V : Type} (hash : Fd → Nat)

/-- The table of a new process. -/
def empty : FdTable V := { streams := UnorderedMap.ofCapacity UnorderedMap.initialBucketSize,
                           nextFd := Fd.zero }

/-- `while(f_streams.find(fd) != f_streams.end()) ++fd;`: an iterator equals
`end()` when its entry is null. -/
def firstUnused (m : UnorderedMap Fd V) : Nat → Fd → Option Fd
  | 0, _ => none
  | fuel + 1, fd =>
      if (m.find hash fd).entry.isEmpty then some fd else firstUnused m fuel fd.succ

/-- The search visits every 32-bit value once; after that many steps it would
start again, so `none` is a search that never ends. -/
def searchSteps : Nat := 4294967296

/-- `add_stream(stream, hint)`: the descriptor returned and the table after. -/
def addStream (t : FdTable V) (stream : V) (hint : Fd) : Option (Fd × FdTable V) :=
  if hint ≠ Fd.none then
    let streams := if (t.streams.at hash hint).isSome then t.streams.erase hash hint
                   else t.streams
    some (hint, { t with streams := (streams.insert hash hint stream).2 })
  else
    match firstUnused hash t.streams searchSteps t.nextFd with
    | none => none
    | some fd =>
        some (fd, { streams := (t.streams.insert hash fd stream).2
                    nextFd := if fd = t.nextFd then fd.succ else t.nextFd })

/-- `close_stream(fd)`: no test that `fd` is open, or that it is a descriptor
at all. -/
def closeStream (t : FdTable V) (fd : Fd) : FdTable V :=
  { streams := t.streams.erase hash fd
    nextFd := if fd.val < t.nextFd.val then fd else t.nextFd }

/-- `dup_stream(oldFd, newFd)`.  The reference `val` is read after `newFd` was
erased: for `oldFd = newFd` the entry is gone by then and `freed` is what its
memory holds. -/
def dupStream (t : FdTable V) (oldFd newFd : Fd) (freed : V) :
    Option (Except Errno Fd × FdTable V) :=
  match t.streams.at hash oldFd with
  | none => some (.error .EBADF, t)
  | some val =>
      if newFd ≠ Fd.none then
        let streams := if (t.streams.at hash newFd).isSome then t.streams.erase hash newFd
                       else t.streams
        let copy := if oldFd = newFd then freed else val
        some (.ok newFd, { t with streams := (streams.insert hash newFd copy).2 })
      else
        match firstUnused hash t.streams searchSteps t.nextFd with
        | none => none
        | some fd => some (.ok fd, { t with streams := (t.streams.insert hash fd val).2 })

/-- The loop of `Process::fork` that clones the streams into the child's empty
table. -/
def cloneStreams (t : FdTable V) : FdTable V :=
  { streams := t.streams.entries.foldl (fun m e => (m.insert hash e.1 e.2).2)
      (UnorderedMap.ofCapacity UnorderedMap.initialBucketSize)
    nextFd := t.nextFd }

/-- A call on the table; `fork` continues in the child. -/
inductive Call (V : Type) where
  | add (stream : V) (hint : Fd)
  | close (fd : Fd)
  | dup (oldFd newFd : Fd) (freed : V)
  | fork
  deriving Repr

/-- The table after a call, `none` for a search that never ends. -/
def call (t : FdTable V) : Call V → Option (FdTable V)
  | .add stream hint => (t.addStream hash stream hint).map Prod.snd
  | .close fd => some (t.closeStream hash fd)
  | .dup oldFd newFd freed => (t.dupStream hash oldFd newFd freed).map Prod.snd
  | .fork => some (t.cloneStreams hash)

/-- One call as a step. -/
def Step (t : FdTable V) (c : Call V) (t' : FdTable V) : Prop := t.call hash c = some t'

/-- `fd` is in use. -/
def IsOpen (t : FdTable V) (fd : Fd) : Prop := (t.streams.at hash fd).isSome = true

instance (t : FdTable V) (fd : Fd) : Decidable (t.IsOpen hash fd) :=
  inferInstanceAs (Decidable (_ = true))

/-- **The table invariant**: the map is well formed and every descriptor below
the hint is open. -/
structure WF (t : FdTable V) : Prop where
  map : t.streams.WF hash
  below : ∀ fd : Fd, 0 ≤ fd.val → fd.val < t.nextFd.val → t.IsOpen hash fd

/-! ## §2. The search for a free descriptor. -/

section Search

variable {hash : Fd → Nat} {m : UnorderedMap Fd V}

/-- The search stops at a free descriptor. -/
theorem firstUnused_free {fuel : Nat} {start fd : Fd}
    (h : firstUnused hash m fuel start = some fd) : m.at hash fd = none := by
  induction fuel generalizing start with
  | zero => exact absurd h (by simp [firstUnused])
  | succ fuel ih =>
      unfold firstUnused at h
      by_cases hfree : (m.find hash start).entry.isEmpty = true
      · rw [if_pos hfree] at h
        injection h with h
        subst h
        exact (UnorderedMap.find_isEmpty_iff m _).mp hfree
      · rw [if_neg hfree] at h
        exact ih h

/-- **The search answers with the first free descriptor at or above its
start.** -/
theorem firstUnused_eq {fuel : Nat} {start fd : Fd} (hle : start.val ≤ fd.val)
    (hfuel : fd.val - start.val < fuel) (hfree : m.at hash fd = none)
    (hused : ∀ x : Fd, start.val ≤ x.val → x.val < fd.val → m.at hash x ≠ none) :
    firstUnused hash m fuel start = some fd := by
  induction fuel generalizing start with
  | zero => omega
  | succ fuel ih =>
      unfold firstUnused
      by_cases heq : start = fd
      · subst heq
        rw [if_pos ((UnorderedMap.find_isEmpty_iff m _).mpr hfree)]
      · -- `start` lies strictly below `fd`, so it is in use and `++` does not wrap
        have hlt : start.val < fd.val := by
          have hne : start.val ≠ fd.val := fun h => heq (Fd.ext h)
          omega
        have hsucc : start.succ.val = start.val + 1 := by
          apply Fd.succ_val
          have := fd.upper
          omega
        have hbusy : ¬ (m.find hash start).entry.isEmpty = true := by
          rw [UnorderedMap.find_isEmpty_iff]
          exact hused start le_rfl hlt
        rw [if_neg hbusy]
        apply ih
        · omega
        · omega
        · intro x hx hx'
          exact hused x (by omega) hx'

/-- A free descriptor at or above the start bounds what the search answers. -/
theorem firstUnused_le {fuel : Nat} {start fd : Fd} (hle : start.val ≤ fd.val)
    (hfuel : fd.val - start.val < fuel) (hfree : m.at hash fd = none) :
    ∃ r, firstUnused hash m fuel start = some r ∧ r.val ≤ fd.val := by
  induction fuel generalizing start with
  | zero => omega
  | succ fuel ih =>
      unfold firstUnused
      by_cases hempty : (m.find hash start).entry.isEmpty = true
      · exact ⟨start, by rw [if_pos hempty], hle⟩
      · have hne : start.val ≠ fd.val := by
          intro h
          rw [Fd.ext h] at hempty
          exact hempty ((UnorderedMap.find_isEmpty_iff m _).mpr hfree)
        have hsucc : start.succ.val = start.val + 1 := by
          apply Fd.succ_val
          have := fd.upper
          omega
        rw [if_neg hempty]
        apply ih
        · omega
        · omega

/-- No two 32-bit descriptors are further apart than the search reaches. -/
theorem distance_lt_searchSteps (a b : Fd) : b.val - a.val < searchSteps := by
  have ha := a.lower
  have hb := b.upper
  unfold searchSteps
  omega

end Search

/-! ## §3. What each call does to the table. -/

section Calls

variable {hash : Fd → Nat}

theorem wf_empty : (empty : FdTable V).WF hash := by
  have hmap := (UnorderedMap.wf_ofCapacity (V := V) hash
    (show 0 < UnorderedMap.initialBucketSize by decide)).1
  exact ⟨hmap, fun fd h0 hlt => absurd hlt (by show ¬ fd.val < 0; omega)⟩

/-- The two-step overwrite of `add_stream` with a hint and of `dup_stream`:
erase the entry if there is one, then insert. -/
theorem at_overwrite {m : UnorderedMap Fd V} (hm : m.WF hash) (k : Fd) (v : V) :
    let m' := if (m.at hash k).isSome then m.erase hash k else m
    (m'.insert hash k v).2.WF hash
      ∧ ∀ x, (m'.insert hash k v).2.at hash x = if x = k then some v else m.at hash x := by
  intro m'
  have hwf : m'.WF hash := by
    show (if (m.at hash k).isSome then m.erase hash k else m).WF hash
    split
    · exact hm.erase k
    · exact hm
  have hat : ∀ x, m'.at hash x = if x = k then none else m.at hash x := by
    intro x
    show (if (m.at hash k).isSome then m.erase hash k else m).at hash x = _
    split
    · exact UnorderedMap.at_erase hm k x
    · rename_i hnone
      by_cases hx : x = k
      · subst hx
        rw [if_pos rfl]
        exact Option.not_isSome_iff_eq_none.mp hnone
      · rw [if_neg hx]
  have hk : m'.at hash k = none := by rw [hat, if_pos rfl]
  refine ⟨hwf.insert k v, fun x => ?_⟩
  rw [UnorderedMap.at_insert hwf v hk x, hat]
  by_cases hx : x = k
  · rw [if_pos hx, if_pos hx]
  · rw [if_neg hx, if_neg hx, if_neg hx]

/-- A table that keeps its hint and opens one descriptor keeps the invariant. -/
theorem WF.opened {t : FdTable V} (h : t.WF hash) {m : UnorderedMap Fd V} {k : Fd} {v : V}
    (hm : m.WF hash) (hat : ∀ x, m.at hash x = if x = k then some v else t.streams.at hash x) :
    ({ t with streams := m } : FdTable V).WF hash := by
  refine ⟨hm, fun fd h0 hlt => ?_⟩
  show (m.at hash fd).isSome = true
  rw [hat]
  split
  · rfl
  · exact h.below fd h0 hlt

/-- What `add_stream` does when the caller gives no hint. -/
theorem addStream_none {t t' : FdTable V} {stream : V} {fd : Fd}
    (h : t.addStream hash stream Fd.none = some (fd, t')) :
    firstUnused hash t.streams searchSteps t.nextFd = some fd
      ∧ t' = { streams := (t.streams.insert hash fd stream).2
               nextFd := if fd = t.nextFd then fd.succ else t.nextFd } := by
  unfold addStream at h
  rw [if_neg (not_not_intro rfl)] at h
  cases hsearch : firstUnused hash t.streams searchSteps t.nextFd with
  | none =>
      rw [hsearch] at h
      exact absurd h (by simp)
  | some r =>
      rw [hsearch] at h
      injection h with h
      injection h with h1 h2
      subst h1
      exact ⟨rfl, h2.symm⟩

theorem wf_addStream {t t' : FdTable V} {stream : V} {hint fd : Fd} (h : t.WF hash)
    (hadd : t.addStream hash stream hint = some (fd, t')) : t'.WF hash := by
  by_cases hhint : hint = Fd.none
  · subst hhint
    obtain ⟨hsearch, rfl⟩ := addStream_none hadd
    have hfree := firstUnused_free hsearch
    have hat := UnorderedMap.at_insert h.map stream hfree
    refine ⟨h.map.insert fd stream, fun x h0 hlt => ?_⟩
    show ((t.streams.insert hash fd stream).2.at hash x).isSome = true
    rw [hat]
    by_cases hx : x = fd
    · rw [if_pos hx]
      rfl
    · rw [if_neg hx]
      apply h.below x h0
      -- the hint moved by one at most, and then past `fd` itself
      by_cases hfd : fd = t.nextFd
      · have hlt' : x.val < fd.succ.val := by simpa [if_pos hfd] using hlt
        have hne : x.val ≠ fd.val := fun he => hx (Fd.ext he)
        by_cases hmax : fd.val + 1 < 2147483648
        · rw [Fd.succ_val hmax] at hlt'
          rw [← hfd]
          omega
        · rw [Fd.succ_val_max hmax] at hlt'
          omega
      · simpa [if_neg hfd] using hlt
  · unfold addStream at hadd
    rw [if_pos hhint] at hadd
    injection hadd with hadd
    injection hadd with _ h2
    subst h2
    have hover := at_overwrite h.map hint stream
    exact h.opened hover.1 hover.2

theorem wf_closeStream {t : FdTable V} (h : t.WF hash) (fd : Fd) :
    (t.closeStream hash fd).WF hash := by
  refine ⟨h.map.erase fd, fun x h0 hlt => ?_⟩
  show ((t.streams.erase hash fd).at hash x).isSome = true
  rw [UnorderedMap.at_erase h.map fd x]
  have hlt' : x.val < (if fd.val < t.nextFd.val then fd else t.nextFd).val := hlt
  by_cases hfd : fd.val < t.nextFd.val
  · rw [if_pos hfd] at hlt'
    rw [if_neg (fun he => by rw [he] at hlt'; omega)]
    exact h.below x h0 (by omega)
  · rw [if_neg hfd] at hlt'
    rw [if_neg (fun he => by rw [he] at hlt'; omega)]
    exact h.below x h0 hlt'

theorem wf_dupStream {t t' : FdTable V} {oldFd newFd : Fd} {freed : V} {r : Except Errno Fd}
    (h : t.WF hash) (hdup : t.dupStream hash oldFd newFd freed = some (r, t')) :
    t'.WF hash := by
  unfold dupStream at hdup
  cases hold : t.streams.at hash oldFd with
  | none =>
      rw [hold] at hdup
      injection hdup with hdup
      injection hdup with _ h2
      exact h2 ▸ h
  | some val =>
      rw [hold] at hdup
      by_cases hnew : newFd = Fd.none
      · simp only [if_neg (not_not_intro hnew)] at hdup
        cases hsearch : firstUnused hash t.streams searchSteps t.nextFd with
        | none =>
            rw [hsearch] at hdup
            exact absurd hdup (by simp)
        | some fd =>
            rw [hsearch] at hdup
            injection hdup with hdup
            injection hdup with _ h2
            subst h2
            have hfree := firstUnused_free hsearch
            exact h.opened (h.map.insert fd val) (UnorderedMap.at_insert h.map val hfree)
      · simp only [if_pos hnew] at hdup
        injection hdup with hdup
        injection hdup with _ h2
        subst h2
        have hover := at_overwrite h.map newFd (if oldFd = newFd then freed else val)
        exact h.opened hover.1 hover.2

/-- Inserting a list of entries with distinct new keys adds exactly these. -/
theorem foldl_insert_perm (es : List (Fd × V)) {m : UnorderedMap Fd V} (hm : m.WF hash)
    (hnew : (es.map Prod.fst ++ m.entries.map Prod.fst).Nodup) :
    (es.foldl (fun m e => (m.insert hash e.1 e.2).2) m).WF hash
      ∧ (es.foldl (fun m e => (m.insert hash e.1 e.2).2) m).entries.Perm
          (es ++ m.entries) := by
  induction es generalizing m with
  | nil => exact ⟨hm, List.Perm.refl _⟩
  | cons e es ih =>
      rw [List.map_cons, List.cons_append, List.nodup_cons] at hnew
      have hk : ¬ ∃ w, (e.1, w) ∈ m.entries := by
        intro hex
        have hmem : e.1 ∈ m.entries.map Prod.fst :=
          List.mem_map.mpr ⟨(e.1, hex.choose), hex.choose_spec, rfl⟩
        exact hnew.1 (List.mem_append_right _ hmem)
      have hperm := (UnorderedMap.insert_of_not_mem hm (v := e.2) hk).2.2
      have hnew' : (es.map Prod.fst
          ++ (m.insert hash e.1 e.2).2.entries.map Prod.fst).Nodup := by
        have hp : (es.map Prod.fst ++ (m.insert hash e.1 e.2).2.entries.map Prod.fst).Perm
            (e.1 :: (es.map Prod.fst ++ m.entries.map Prod.fst)) :=
          ((hperm.map Prod.fst).append_left _).trans List.perm_middle
        rw [hp.nodup_iff, List.nodup_cons]
        exact hnew
      obtain ⟨hwf, hfold⟩ := ih (hm.insert e.1 e.2) hnew'
      exact ⟨hwf, hfold.trans ((hperm.append_left _).trans List.perm_middle)⟩

/-- **The child of a `fork` starts with the parent's descriptors.** -/
theorem at_cloneStreams {t : FdTable V} (h : t.streams.WF hash) :
    (t.cloneStreams hash).streams.WF hash
      ∧ ∀ fd, (t.cloneStreams hash).streams.at hash fd = t.streams.at hash fd := by
  have hempty := UnorderedMap.wf_ofCapacity (V := V) hash
    (show 0 < UnorderedMap.initialBucketSize by decide)
  have hfold := foldl_insert_perm t.streams.entries hempty.1
    (by rw [hempty.2, List.map_nil, List.append_nil]; exact h.nodup)
  rw [hempty.2, List.append_nil] at hfold
  refine ⟨hfold.1, fun fd => Option.ext fun v => ?_⟩
  show (UnorderedMap.at hash (t.streams.entries.foldl _ _) fd = some v) ↔ _
  rw [UnorderedMap.at_eq_some_iff hfold.1, UnorderedMap.at_eq_some_iff h, hfold.2.mem_iff]

theorem wf_cloneStreams {t : FdTable V} (h : t.WF hash) : (t.cloneStreams hash).WF hash := by
  have hclone := at_cloneStreams h.map
  refine ⟨hclone.1, fun fd h0 hlt => ?_⟩
  show ((t.cloneStreams hash).streams.at hash fd).isSome = true
  rw [hclone.2]
  exact h.below fd h0 hlt

/-- **Every call keeps the invariant**, whatever descriptors it is given. -/
theorem wf_step {t t' : FdTable V} {c : Call V} (h : t.WF hash) (hst : Step hash t c t') :
    t'.WF hash := by
  unfold Step call at hst
  cases c with
  | add stream hint =>
      obtain ⟨⟨fd, t''⟩, hadd, rfl⟩ := Option.map_eq_some_iff.mp hst
      exact wf_addStream h hadd
  | close fd =>
      injection hst with hst
      exact hst ▸ wf_closeStream h fd
  | dup oldFd newFd freed =>
      obtain ⟨⟨r, t''⟩, hdup, rfl⟩ := Option.map_eq_some_iff.mp hst
      exact wf_dupStream h hdup
  | fork =>
      injection hst with hst
      exact hst ▸ wf_cloneStreams h

theorem run_wf {hist : List (Call V)} {t : FdTable V}
    (hrun : Run (Step hash) empty hist t) : t.WF hash :=
  hrun.invariant (fun t => t.WF hash) wf_empty (fun _ _ _ h hst => wf_step h hst)

end Calls

/-! ## §4. The lowest free descriptor. -/

/-- The smallest non-negative descriptor not in use. -/
def IsLowestFree (t : FdTable V) (fd : Fd) : Prop :=
  0 ≤ fd.val ∧ ¬ t.IsOpen hash fd
    ∧ ∀ x : Fd, 0 ≤ x.val → ¬ t.IsOpen hash x → fd.val ≤ x.val

/-- **What a caller of `add_stream` without a hint is promised**: the smallest
non-negative descriptor not in use, now naming the stream, and every other
descriptor as before. -/
def AddsLowest (t : FdTable V) (stream : V) : Prop :=
  ∀ fd, t.IsLowestFree hash fd → ∃ t', t.addStream hash stream Fd.none = some (fd, t')
    ∧ t'.streams.at hash fd = some stream
    ∧ ∀ x, x ≠ fd → t'.streams.at hash x = t.streams.at hash x

/-- No negative descriptor that the search of `add_stream` would pass is free. -/
def NegativesInUse (t : FdTable V) : Prop :=
  ∀ fd : Fd, t.nextFd.val ≤ fd.val → fd.val < 0 → t.IsOpen hash fd

section Lowest

variable {hash : Fd → Nat}

theorem isOpen_iff {t : FdTable V} {fd : Fd} :
    ¬ t.IsOpen hash fd ↔ t.streams.at hash fd = none :=
  Option.not_isSome_iff_eq_none

/-- A free descriptor among the negative ones is found first. -/
theorem addStream_negative {t t' : FdTable V} {stream : V} {fd x : Fd}
    (hx : t.nextFd.val ≤ x.val) (hneg : x.val < 0) (hfree : ¬ t.IsOpen hash x)
    (hadd : t.addStream hash stream Fd.none = some (fd, t')) : fd.val < 0 := by
  have hsearch := (addStream_none hadd).1
  obtain ⟨r, hr, hle⟩ := firstUnused_le hx (distance_lt_searchSteps _ _) (isOpen_iff.mp hfree)
  rw [hsearch] at hr
  injection hr with hr
  subst hr
  omega

/-- With no free negative descriptor in the way, the search stops at the lowest
free one. -/
theorem addStream_lowest {t : FdTable V} {stream : V} {fd : Fd} (h : t.WF hash)
    (hneg : t.NegativesInUse hash) (hlow : t.IsLowestFree hash fd) :
    t.addStream hash stream Fd.none
      = some (fd, { streams := (t.streams.insert hash fd stream).2
                    nextFd := if fd = t.nextFd then fd.succ else t.nextFd }) := by
  obtain ⟨h0, hfree, hmin⟩ := hlow
  -- the invariant puts the lowest free descriptor at or above the hint
  have hle : t.nextFd.val ≤ fd.val := by
    by_contra hlt
    exact hfree (h.below fd h0 (by omega))
  have hused : ∀ x : Fd, t.nextFd.val ≤ x.val → x.val < fd.val
      → t.streams.at hash x ≠ none := by
    intro x hx hlt hnone
    have hclosed : ¬ t.IsOpen hash x := isOpen_iff.mpr hnone
    by_cases hx0 : 0 ≤ x.val
    · have := hmin x hx0 hclosed
      omega
    · exact hclosed (hneg x hx (by omega))
  have hsearch : firstUnused hash t.streams searchSteps t.nextFd = some fd :=
    firstUnused_eq hle (distance_lt_searchSteps _ _) (isOpen_iff.mp hfree) hused
  unfold addStream
  rw [if_neg (not_not_intro rfl), hsearch]

/-- **The exact condition**, in any table that satisfies the invariant and still
has a non-negative descriptor to give. -/
theorem addStream_lowest_iff {t : FdTable V} (stream : V) (h : t.WF hash) {fd : Fd}
    (hlow : t.IsLowestFree hash fd) :
    t.AddsLowest hash stream ↔ t.NegativesInUse hash := by
  constructor
  · intro hadds x hx hlt
    by_contra hfree
    obtain ⟨t', hadd, _⟩ := hadds fd hlow
    have hneg := addStream_negative hx hlt hfree hadd
    have h0 := hlow.1
    omega
  · intro hneg r hr
    have hfree := isOpen_iff.mp hr.2.1
    have hat := UnorderedMap.at_insert h.map stream hfree
    refine ⟨_, addStream_lowest h hneg hr, ?_, ?_⟩
    · show (t.streams.insert hash r stream).2.at hash r = some stream
      rw [hat, if_pos rfl]
    · intro x hx
      show (t.streams.insert hash r stream).2.at hash x = _
      rw [hat, if_neg hx]

/-- A table that has any free non-negative descriptor has a lowest one. -/
theorem exists_isLowestFree {t : FdTable V} {x : Fd} (h0 : 0 ≤ x.val)
    (hfree : ¬ t.IsOpen hash x) : ∃ fd, t.IsLowestFree hash fd := by
  -- strong induction on the value: either nothing smaller is free or it is lower
  have key : ∀ n : Nat, ∀ y : Fd, 0 ≤ y.val → y.val.toNat = n → ¬ t.IsOpen hash y
      → ∃ fd, t.IsLowestFree hash fd := by
    intro n
    induction n using Nat.strong_induction_on with
    | _ n ih =>
        intro y hy0 hyn hyfree
        by_cases hmin : ∀ z : Fd, 0 ≤ z.val → ¬ t.IsOpen hash z → y.val ≤ z.val
        · exact ⟨y, hy0, hyfree, hmin⟩
        · push Not at hmin
          obtain ⟨z, hz0, hzfree, hlt⟩ := hmin
          exact ih z.val.toNat (by omega) z hz0 rfl hzfree
  exact key _ x h0 rfl hfree

end Lowest

/-! ## §5. Runs that close no negative descriptor. -/

section Runs

variable {hash : Fd → Nat}

/-- The hint after a call: it moves up by one at an `add_stream`, down to the
argument at a `close_stream`, and not otherwise. -/
theorem step_nextFd {t t' : FdTable V} {c : Call V} (hst : Step hash t c t') :
    t'.nextFd = t.nextFd ∨ t'.nextFd = t.nextFd.succ
      ∨ ∃ fd, c = .close fd ∧ fd.val < t.nextFd.val ∧ t'.nextFd = fd := by
  unfold Step call at hst
  cases c with
  | add stream hint =>
      obtain ⟨⟨fd, t''⟩, hadd, rfl⟩ := Option.map_eq_some_iff.mp hst
      by_cases hhint : hint = Fd.none
      · subst hhint
        obtain ⟨_, rfl⟩ := addStream_none hadd
        show (if fd = t.nextFd then fd.succ else t.nextFd) = t.nextFd ∨ _
        by_cases hfd : fd = t.nextFd
        · right; left
          show (if fd = t.nextFd then fd.succ else t.nextFd) = t.nextFd.succ
          rw [if_pos hfd, hfd]
        · left
          rw [if_neg hfd]
      · unfold addStream at hadd
        rw [if_pos hhint] at hadd
        injection hadd with hadd
        injection hadd with _ h2
        exact Or.inl (by rw [← h2])
  | close fd =>
      injection hst with hst
      subst hst
      show (if fd.val < t.nextFd.val then fd else t.nextFd) = t.nextFd ∨ _
      by_cases hfd : fd.val < t.nextFd.val
      · right; right
        exact ⟨fd, rfl, hfd, if_pos hfd⟩
      · left
        rw [if_neg hfd]
  | dup oldFd newFd freed =>
      left
      obtain ⟨⟨r, t''⟩, hdup, rfl⟩ := Option.map_eq_some_iff.mp hst
      unfold dupStream at hdup
      cases hold : t.streams.at hash oldFd with
      | none =>
          rw [hold] at hdup
          injection hdup with hdup
          injection hdup with _ h2
          rw [← h2]
      | some val =>
          rw [hold] at hdup
          -- `dup_stream` looks from the hint and does not move it
          by_cases hnew : newFd = Fd.none
          · simp only [if_neg (not_not_intro hnew)] at hdup
            cases hsearch : firstUnused hash t.streams searchSteps t.nextFd with
            | none =>
                rw [hsearch] at hdup
                exact absurd hdup (by simp)
            | some fd =>
                rw [hsearch] at hdup
                injection hdup with hdup
                injection hdup with _ h2
                rw [← h2]
          · simp only [if_pos hnew] at hdup
            injection hdup with hdup
            injection hdup with _ h2
            rw [← h2]
  | fork =>
      injection hst with hst
      subst hst
      exact Or.inl rfl

/-- Closing only non-negative descriptors keeps the hint non-negative, up to
the number of calls that would make it wrap. -/
theorem nextFd_nonneg {hist : List (Call V)} {t : FdTable V}
    (hrun : Run (Step hash) empty hist t)
    (hclose : ∀ fd, Call.close fd ∈ hist → 0 ≤ fd.val) (hlen : hist.length < 2147483648) :
    0 ≤ t.nextFd.val ∧ t.nextFd.val ≤ hist.length := by
  induction hrun with
  | init => exact ⟨le_rfl, by show (0 : Int) ≤ _; omega⟩
  | @step hist s s' e _ hst ih =>
      rw [List.length_cons] at hlen ⊢
      have hprev := ih (fun fd hmem => hclose fd (List.mem_cons_of_mem _ hmem)) (by omega)
      rcases step_nextFd hst with hsame | hup | ⟨fd, rfl, hlt, heq⟩
      · rw [hsame]
        push_cast
        omega
      · rw [hup, Fd.succ_val (by omega)]
        push_cast
        omega
      · have h0 := hclose fd List.mem_cons_self
        rw [heq]
        push_cast
        omega

end Runs

end FdTable

open FdTable

/-- **The descriptor table over whole runs.**  Whatever descriptors the calls
are given, every descriptor in `[0, f_next_fd)` is open; an `add_stream`
without a hint then takes the lowest free descriptor exactly when every
negative descriptor from `f_next_fd` on is in use, which is so in every run
that closes no negative descriptor. -/
theorem descriptor_table_lowest_free {V : Type} (hash : Fd → Nat) (stream : V)
    {hist : List (Call V)} {t : FdTable V} (hrun : Run (FdTable.Step hash) empty hist t) :
    (∀ fd : Fd, 0 ≤ fd.val → fd.val < t.nextFd.val → t.IsOpen hash fd)
      ∧ (∀ x : Fd, 0 ≤ x.val → ¬ t.IsOpen hash x →
          (t.AddsLowest hash stream ↔ t.NegativesInUse hash))
      ∧ ((∀ fd, Call.close fd ∈ hist → 0 ≤ fd.val) → hist.length < 2147483648 →
          t.AddsLowest hash stream) := by
  have hwf := run_wf hrun
  refine ⟨hwf.below, ?_, ?_⟩
  · intro x h0 hfree
    obtain ⟨fd, hlow⟩ := exists_isLowestFree h0 hfree
    exact addStream_lowest_iff stream hwf hlow
  · intro hclose hlen fd hlow
    have hnext := (nextFd_nonneg hrun hclose hlen).1
    have hneg : t.NegativesInUse hash := fun x hx hlt => by omega
    exact (addStream_lowest_iff stream hwf hlow).mpr hneg fd hlow

/-- Two opens and a close of the first: the hint is back at `0`. -/
theorem descriptor_table_lowest_free_reopen :
    ∃ t : FdTable Nat,
      Run (FdTable.Step (fun fd => fd.val.toNat)) empty
          [.close Fd.zero, .add 11 Fd.none, .add 10 Fd.none] t
        ∧ t.AddsLowest (fun fd => fd.val.toNat) 12
        ∧ (t.addStream (fun fd => fd.val.toNat) 12 Fd.none).map Prod.fst = some Fd.zero := by
  have hex : ∃ t : FdTable Nat,
      Run (FdTable.Step (fun fd => fd.val.toNat)) empty
          [.close Fd.zero, .add 11 Fd.none, .add 10 Fd.none] t
        ∧ (t.addStream (fun fd => fd.val.toNat) 12 Fd.none).map Prod.fst = some Fd.zero :=
    ⟨_, Run.step (Run.step (Run.step Run.init rfl) rfl) rfl, rfl⟩
  obtain ⟨t, hrun, hadd⟩ := hex
  refine ⟨t, hrun, (descriptor_table_lowest_free _ 12 hrun).2.2 ?_ (by simp), hadd⟩
  intro fd hmem
  have hfd : fd = Fd.zero := by simpa using hmem
  rw [hfd]
  decide

/-- **Closing descriptor `-5`**, which was never open, makes the next
`add_stream` answer `-5` while `0` is free. -/
theorem close_negative_then_add :
    ¬ ∀ (hist : List (Call Nat)) (t : FdTable Nat),
      Run (FdTable.Step (fun fd => fd.val.toNat)) empty hist t →
        (∀ fd : Fd, 0 ≤ fd.val → fd.val < t.nextFd.val →
            t.IsOpen (fun fd => fd.val.toNat) fd)
          ∧ t.AddsLowest (fun fd => fd.val.toNat) 10 := by
  intro hclaim
  have hrun : Run (FdTable.Step (V := Nat) (fun fd => fd.val.toNat)) empty
      [.close ⟨-5, by omega, by omega⟩] _ := Run.step Run.init rfl
  have hzero : (closeStream (fun fd => fd.val.toNat) (empty : FdTable Nat)
      ⟨-5, by omega, by omega⟩).IsLowestFree (fun fd => fd.val.toNat) Fd.zero :=
    ⟨le_rfl, by decide, fun _ h0 _ => h0⟩
  obtain ⟨t', hadd, _⟩ := (hclaim _ _ hrun).2 Fd.zero hzero
  have hminus : ((closeStream (fun fd => fd.val.toNat) (empty : FdTable Nat)
      ⟨-5, by omega, by omega⟩).addStream (fun fd => fd.val.toNat) 10 Fd.none).map
        (fun p => p.1.val) = some (-5) := by decide
  rw [hadd] at hminus
  exact absurd hminus (by simp [Fd.zero])

end MierOS.Tasking
