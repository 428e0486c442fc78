/-
  MierOS.Tasking.Replay
  **RUNS THAT CAN BE COMPUTED.**

  `Step` is a relation; `Event.apply` is what it does and `Event.enabled` tests
  whether it may.  A list of events that passes the test is a run
  (`replay_run`), so a run on fixed events is checked by evaluating it.

  The one thing a memory map cannot be asked is to list its keys.  `touched`
  bounds them: a page a process has mapped was named in the history of the
  process or of its ancestors.
-/
import MierOS.Tasking.ProcessRun

namespace MierOS.Tasking

open Lib (Run GuardedRun)

variable {s s' : Kernel} {v v' : Space} {p a : Nat} {m : Machine}

/-! ## §1. The pages a process may have mapped. -/

/-- The pages named in the history of a process and its ancestors. -/
def touched : List Event → Nat → List Nat
  | [], _ => []
  | .nullPages q b n :: hist, p => (if q = p then Kernel.pagesOf b n else []) ++ touched hist p
  | .allocPages q b n _ _ :: hist, p =>
      (if q = p then Kernel.pagesOf b n else []) ++ touched hist p
  | .filePages q b n _ _ _ _ _ :: hist, p =>
      (if q = p then Kernel.pagesOf b n else []) ++ touched hist p
  | .fork q child _ :: hist, p => touched hist (if p = child then q else p)
  | .unmapPages _ _ _ :: hist, p => touched hist p
  | .pageFault _ _ _ _ :: hist, p => touched hist p
  | .userRead _ _ _ _ :: hist, p => touched hist p
  | .userWrite _ _ _ _ :: hist, p => touched hist p

theorem Space.Replaced.mapped {e : MemoryEntry} {d : PagePtr} {D : PageInfo} {q b : Nat}
    (hr : Space.Replaced v p a e d D v') (he : v.maps p a ≠ none) (hb : v'.maps q b ≠ none) :
    v.maps q b ≠ none := by
  by_cases hqb : (q, b) = (p, a)
  · rw [(Prod.mk.inj hqb).1, (Prod.mk.inj hqb).2]
    exact he
  · rw [hr.maps, Maps.set_of_ne _ _ hqb] at hb
    exact hb

/-- A page fault maps nothing where nothing was. -/
theorem Space.Fault.mapped {code frame : Nat} {mem : Nat → Bytes} {r : FaultResult} {q b : Nat}
    (hf : Space.Fault m v p a code frame mem r v') (hb : v'.maps q b ≠ none) :
    v.maps q b ≠ none := by
  have hsome : ∀ {e : MemoryEntry}, v.maps p a = some e → v.maps p a ≠ none := by
    intro e he
    rw [he]
    exact Option.some_ne_none e
  cases hf with
  | nothing _ => exact hb
  | failed _ _ hmaps _ _ _ =>
      rw [hmaps] at hb
      exact hb
  | anonymous he _ _ hr _ _ => exact hr.mapped (hsome he) hb
  | sharedFresh he _ _ _ hr _ _ _ _ => exact hr.mapped (hsome he) hb
  | sharedAgain he _ _ _ hr _ _ => exact hr.mapped (hsome he) hb
  | anonymousHalt he _ _ hr _ _ => exact hr.mapped (hsome he) hb
  | sharedFreshHalt he _ _ _ hr _ _ _ _ => exact hr.mapped (hsome he) hb
  | sharedAgainHalt he _ _ _ hr _ _ => exact hr.mapped (hsome he) hb
  | cached he _ _ hr _ _ => exact hr.mapped (hsome he) hb
  | read he _ _ _ hr _ _ _ _ => exact hr.mapped (hsome he) hb
  | copy he _ _ _ hr _ _ => exact hr.mapped (hsome he) hb
  | reenable he _ _ _ hr _ _ => exact hr.mapped (hsome he) hb
  | fileCopy he _ _ _ _ hr _ _ => exact hr.mapped (hsome he) hb
  | @fileCopyHalt _ _ w _ _ _ _ _ _ hr _ =>
      have hmaps : w.maps q b ≠ none := hb
      rw [hr.maps] at hmaps
      exact hmaps
  | steal he _ _ _ hr _ _ _ _ => exact hr.mapped (hsome he) hb

theorem mem_touched_range {l : List Nat} {hist : List Event} {q b : Nat}
    (houtside : ¬ (q = p ∧ b ∈ l) → v'.maps q b = v.maps q b)
    (h : v.maps q b ≠ none → b ∈ touched hist q) (hb : v'.maps q b ≠ none) :
    b ∈ (if p = q then l else []) ++ touched hist q := by
  by_cases hin : q = p ∧ b ∈ l
  · rw [if_pos hin.1.symm]
    exact List.mem_append_left _ hin.2
  · rw [houtside hin] at hb
    exact List.mem_append_right _ (h hb)

theorem touched_step {hist : List Event} {e : Event} (hv : v.Valid) (hst : Space.Step m v e v')
    (h : ∀ p a, v.maps p a ≠ none → a ∈ touched hist p) :
    ∀ p a, v'.maps p a ≠ none → a ∈ touched (e :: hist) p := by
  intro q b hb
  cases hst with
  | @nullPages p a n _ =>
      apply mem_touched_range _ (h q b) hb
      intro hout
      rw [(v.nullPages_spec p a n).1, if_neg hout]
  | @allocPages p a n flags prot _ =>
      apply mem_touched_range _ (h q b) hb
      intro hout
      by_cases hshared : flags.testBit 0 = true ∧ prot ≠ 0
      · exact (v.allocShared_spec p a n hshared).outside q b hout
      · rw [(v.allocPrivate_spec p a n hshared).1, if_neg hout]
  | @filePages p a n file offset shared write execute _ =>
      apply mem_touched_range _ (h q b) hb
      intro hout
      rw [(v.filePages_spec p a n file offset shared write execute).1, if_neg hout]
  | @unmapPages p a n _ =>
      show b ∈ touched hist q
      apply h
      intro hnone
      apply hb
      rw [(v.unmapPages_spec p a n).1]
      split
      · rfl
      · exact hnone
  | @pageFault p addr code frame mem _ _ =>
      obtain ⟨r, w, hf, heq⟩ := Space.pageFault_cases hv.toGood m p addr code frame mem
      show b ∈ touched hist q
      apply h
      apply hf.mapped
      rw [heq] at hb
      split at hb
      · exact hb
      · exact hb
  | @fork p child keys hp hchild hnodup hkeys =>
      obtain ⟨-, hforked, -⟩ := Space.fork_spec hv.toGood hp hchild (hv.absent child hchild) hnodup
        hkeys
      rw [hforked.maps] at hb
      show b ∈ touched hist (if q = child then p else q)
      apply h
      intro hnone
      apply hb
      -- what the child has mapped, its parent had
      by_cases hc : q = child
      · rw [if_pos hc] at hnone
        rw [if_pos (Or.inl hc), hnone]
        rfl
      · rw [if_neg hc] at hnone
        split
        · rename_i hq
          rw [← hq.resolve_left hc, hnone]
          rfl
        · exact hnone
  | userRead _ _ _ => exact h q b hb
  | userWrite _ _ => exact h q b hb

/-- **Memory maps hold nothing the history does not name.** -/
theorem mem_touched {s₀ : Kernel} (hinit : Initial s₀) {hist : List Event}
    (hrun : Run (Step m) s₀ hist s) (hmapped : (s.procs p).memorymap a ≠ none) :
    a ∈ touched hist p := by
  obtain ⟨v, hsim, -, hI⟩ := run_rule hinit
    (fun hist v => ∀ p a, v.maps p a ≠ none → a ∈ touched hist p)
    (fun _ _ hne => absurd rfl hne) (fun _ _ _ _ hv _ hI hst => touched_step hv hst hI) hrun
  apply hI
  rw [hsim.maps]
  exact hmapped

/-! ## §2. Evaluation. -/

/-- What an event does. -/
def Event.apply (m : Machine) (s : Kernel) : Event → Kernel
  | .nullPages p a n => s.nullPages p a n
  | .allocPages p a n flags prot => s.allocPages p a n flags prot
  | .filePages p a n file offset shared write execute =>
      s.filePages p a n file offset shared write execute
  | .unmapPages p a n => s.unmapPages p a n
  | .pageFault p addr code frame => s.pageFault m p addr code frame
  | .fork p child keys => s.fork p child keys
  | .userRead _ _ _ _ => s
  | .userWrite p a o b =>
      match (s.procs p).pager a with
      | some pte => s.setByte pte.1 o b
      | none => s

/-- Whether the keys are those of the memory map, which holds nothing outside
`known`. -/
def Process.lists (proc : Process) (known keys : List Nat) : Bool :=
  decide keys.Nodup && keys.all (fun a => (proc.memorymap a).isSome)
    && known.all fun a => (proc.memorymap a).isNone || keys.contains a

/-- Whether the process does what the event says it does. -/
def Event.allowed (s : Kernel) (hist : List Event) : Event → Bool
  | .pageFault _ _ _ frame => frame == 0 || !s.used frame
  | .fork p child keys =>
      decide ((s.procs child).status = .absent) && (s.procs p).lists (touched hist p) keys
  | .userRead p a o b =>
      ((s.procs p).pager a).any fun pte => pte.2.userAccesible && s.mem pte.1 o == b
  | .userWrite p a _ _ =>
      ((s.procs p).pager a).any fun pte => pte.2.userAccesible && pte.2.writable
  | _ => true

/-- Who acts. -/
def Event.process : Event → Nat
  | .nullPages p _ _ => p
  | .allocPages p _ _ _ _ => p
  | .filePages p _ _ _ _ _ _ _ => p
  | .unmapPages p _ _ => p
  | .pageFault p _ _ _ => p
  | .fork p _ _ => p
  | .userRead p _ _ _ => p
  | .userWrite p _ _ _ => p

/-- Whether an event may happen. -/
def Event.enabled (s : Kernel) (hist : List Event) (e : Event) : Bool :=
  decide ((s.procs e.process).status = .running) && e.allowed s hist

/-- The state a history leads to. -/
def replay (m : Machine) (s₀ : Kernel) : List Event → Kernel
  | [] => s₀
  | e :: hist => e.apply m (replay m s₀ hist)

/-- Whether a history may happen. -/
def replayable (m : Machine) (s₀ : Kernel) : List Event → Bool
  | [] => true
  | e :: hist => replayable m s₀ hist && e.enabled (replay m s₀ hist) hist

theorem Process.lists_enumerates {proc : Process} {known keys : List Nat}
    (hlists : proc.lists known keys = true)
    (hknown : ∀ a, proc.memorymap a ≠ none → a ∈ known) : proc.Enumerates keys := by
  unfold Process.lists at hlists
  simp only [Bool.and_eq_true, decide_eq_true_eq, List.all_eq_true] at hlists
  refine ⟨hlists.1.1, ?_⟩
  intro a
  constructor
  · intro ha
    exact Option.isSome_iff_ne_none.mp (hlists.1.2 a ha)
  · intro ha
    have hor := hlists.2 a (hknown a ha)
    rw [Bool.or_eq_true] at hor
    cases hor with
    | inl hnone => exact absurd (Option.isNone_iff_eq_none.mp hnone) ha
    | inr hin => exact List.contains_iff_mem.mp hin

/-- **What is enabled happens.** -/
theorem Event.step_of_enabled {s₀ : Kernel} (hinit : Initial s₀) {hist : List Event}
    (hrun : Run (Step m) s₀ hist s) {e : Event} (he : e.enabled s hist = true) :
    Step m s e (e.apply m s) := by
  unfold Event.enabled at he
  rw [Bool.and_eq_true, decide_eq_true_eq] at he
  obtain ⟨hp, hallowed⟩ := he
  cases e with
  | nullPages p a n => exact .nullPages hp
  | allocPages p a n flags prot => exact .allocPages hp
  | filePages p a n file offset shared write execute => exact .filePages hp
  | unmapPages p a n => exact .unmapPages hp
  | pageFault p addr code frame =>
      apply Step.pageFault hp
      simpa [Event.allowed] using hallowed
  | fork p child keys =>
      unfold Event.allowed at hallowed
      rw [Bool.and_eq_true, decide_eq_true_eq] at hallowed
      exact .fork hp hallowed.1
        (Process.lists_enumerates hallowed.2 fun a ha => mem_touched hinit hrun ha)
  | userRead p a o b =>
      cases hpte : (s.procs p).pager a with
      | none => simp [Event.allowed, hpte] at hallowed
      | some pte =>
          simp only [Event.allowed, hpte, Option.any_some, Bool.and_eq_true, beq_iff_eq] at hallowed
          rw [← hallowed.2]
          exact .userRead hp ⟨pte.2, hpte, hallowed.1, fun h => by cases h⟩
  | userWrite p a o b =>
      cases hpte : (s.procs p).pager a with
      | none => simp [Event.allowed, hpte] at hallowed
      | some pte =>
          simp only [Event.allowed, hpte, Option.any_some, Bool.and_eq_true] at hallowed
          simp only [Event.apply, hpte]
          exact .userWrite hp ⟨pte.2, hpte, hallowed.1, fun _ => hallowed.2⟩

/-- **A history that passes the test is a run.** -/
theorem replay_run {s₀ : Kernel} (hinit : Initial s₀) {hist : List Event}
    (h : replayable m s₀ hist = true) : Run (Step m) s₀ hist (replay m s₀ hist) := by
  induction hist with
  | nil => exact .init
  | cons e hist ih =>
      unfold replayable at h
      rw [Bool.and_eq_true] at h
      have hrun := ih h.1
      exact hrun.step (Event.step_of_enabled hinit hrun h.2)

/-- Every event of a history meets `C` where it happens. -/
def ReplayMeets (C : List Event → Kernel → Event → Prop) (m : Machine) (s₀ : Kernel) :
    List Event → Prop
  | [] => True
  | e :: hist => C hist (replay m s₀ hist) e ∧ ReplayMeets C m s₀ hist

/-- **A history that passes the test and meets a condition** is a run under it. -/
theorem replay_guarded {C : List Event → Kernel → Event → Prop} {s₀ : Kernel}
    (hinit : Initial s₀) {hist : List Event} (h : replayable m s₀ hist = true)
    (hC : ReplayMeets C m s₀ hist) : GuardedRun (Step m) C s₀ hist (replay m s₀ hist) := by
  induction hist with
  | nil => exact .init
  | cons e hist ih =>
      unfold replayable at h
      rw [Bool.and_eq_true] at h
      have hrun := ih h.1 hC.2
      exact hrun.step hC.1 (Event.step_of_enabled hinit hrun.run h.2)

/-- A machine that respects read-only pages and has no files. -/
def Machine.noFiles : Machine := ⟨true, fun _ _ => none⟩

/-- A machine whose files are zeros. -/
def Machine.zeroFile : Machine := ⟨true, fun _ _ => some fun _ => 0⟩

end MierOS.Tasking
