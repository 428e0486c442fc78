/-
  MierOS.Lib.Run
  **RUNS OF A LABELLED TRANSITION SYSTEM**, as histories.

  `Run step s₀ hist s` says that the events of `hist` lead from `s₀` to `s`.
  The history is kept MOST RECENT FIRST, so a specification that looks back
  over what has happened ("the last byte written since ...") is a structural
  recursion on the list, and the induction on a run peels the latest step.

  Main results: `Run.invariant`, `Run.historyInvariant`, `Run.split`,
  `Run.append`, `Run.of_foldlM`, `Run.of_foldl`, `GuardedRun`, `loop_invariant`,
  `loop_returns`, `AtEach`, `atEach_answers_iff`.
-/
import Mathlib.Data.List.Basic
import Mathlib.Data.List.Induction

namespace MierOS.Lib

variable {S E : Type*}

/-- The events of `hist`, most recent first, lead from `s₀` to the last index. -/
inductive Run (step : S → E → S → Prop) (s₀ : S) : List E → S → Prop
  | init : Run step s₀ [] s₀
  | step {hist : List E} {s s' : S} {e : E} :
      Run step s₀ hist s → step s e s' → Run step s₀ (e :: hist) s'

namespace Run

variable {step : S → E → S → Prop} {s₀ : S}

/-- **The invariant rule.** -/
theorem invariant (I : S → Prop) (h₀ : I s₀)
    (hstep : ∀ s e s', I s → step s e s' → I s')
    {hist : List E} {s : S} (hrun : Run step s₀ hist s) : I s := by
  induction hrun with
  | init => exact h₀
  | step _ hst ih => exact hstep _ _ _ ih hst

/-- **The invariant rule with a history**: what relates the state to the
events that led to it. -/
theorem historyInvariant (I : List E → S → Prop) (h₀ : I [] s₀)
    (hstep : ∀ hist s e s', I hist s → step s e s' → I (e :: hist) s')
    {hist : List E} {s : S} (hrun : Run step s₀ hist s) : I hist s := by
  induction hrun with
  | init => exact h₀
  | step _ hst ih => exact hstep _ _ _ _ ih hst

/-- A history that ends in `older` passes through the state `older` leads to. -/
theorem split {recent older : List E} {s : S}
    (hrun : Run step s₀ (recent ++ older) s) :
    ∃ m, Run step s₀ older m ∧ Run step m recent s := by
  induction recent generalizing s with
  | nil => exact ⟨s, hrun, Run.init⟩
  | cons e recent ih =>
      cases hrun with
      | step hprev hst =>
          obtain ⟨m, hold, hrec⟩ := ih hprev
          exact ⟨m, hold, Run.step hrec hst⟩

/-- Two runs, one after the other. -/
theorem append {hist hist' : List E} {m s : S} (hrun : Run step s₀ hist m)
    (hrun' : Run step m hist' s) : Run step s₀ (hist' ++ hist) s := by
  induction hrun' with
  | init => exact hrun
  | step _ hst ih => exact Run.step ih hst

/-- **Executing events one after another** is a run, with the history reversed. -/
theorem of_foldlM {f : S → E → Option S} (events : List E) {s s' : S} {hist : List E} {s₀ : S}
    (hrun : Run (fun s e s' => f s e = some s') s₀ hist s)
    (hexec : events.foldlM f s = some s') :
    Run (fun s e s' => f s e = some s') s₀ (events.reverse ++ hist) s' := by
  induction events generalizing s hist with
  | nil =>
      injection hexec with hexec
      exact hexec ▸ hrun
  | cons e events ih =>
      rw [List.foldlM_cons] at hexec
      obtain ⟨m, hm, hrest⟩ := Option.bind_eq_some_iff.mp hexec
      rw [List.reverse_cons, List.append_assoc]
      exact ih (Run.step hrun hm) hrest

theorem of_foldl {f : S → E → S} {s : S} {hist : List E} {s₀ : S}
    (hrun : Run (fun s e s' => f s e = s') s₀ hist s) (events : List E) :
    Run (fun s e s' => f s e = s') s₀ (events.reverse ++ hist) (events.foldl f s) := by
  induction events generalizing s hist with
  | nil => exact hrun
  | cons e events ih =>
      rw [List.reverse_cons, List.append_assoc]
      exact ih (Run.step hrun rfl)

end Run

/-! ## Runs under a condition. -/

/-- A run each of whose steps meets `C`, which sees the history and the state
before the step. -/
inductive GuardedRun (step : S → E → S → Prop) (C : List E → S → E → Prop) (s₀ : S) :
    List E → S → Prop
  | init : GuardedRun step C s₀ [] s₀
  | step {hist : List E} {s s' : S} {e : E} :
      GuardedRun step C s₀ hist s → C hist s e → step s e s' → GuardedRun step C s₀ (e :: hist) s'

namespace GuardedRun

variable {step : S → E → S → Prop} {C : List E → S → E → Prop} {s₀ : S}

/-- The condition forgotten. -/
theorem run {hist : List E} {s : S} (hrun : GuardedRun step C s₀ hist s) : Run step s₀ hist s := by
  induction hrun with
  | init => exact Run.init
  | step _ _ hst ih => exact Run.step ih hst

/-- **The invariant rule** for the steps that meet the condition. -/
theorem historyInvariant (I : List E → S → Prop) (h₀ : I [] s₀)
    (hstep : ∀ hist s e s', I hist s → C hist s e → step s e s' → I (e :: hist) s')
    {hist : List E} {s : S} (hrun : GuardedRun step C s₀ hist s) : I hist s := by
  induction hrun with
  | init => exact h₀
  | step _ hC hst ih => exact hstep _ _ _ _ ih hC hst

/-- A run continued by an event that is carried out. -/
theorem carriedOut {f : S → E → Option S} {hist : List E} {s : S}
    (hrun : GuardedRun (fun s e s' => f s e = some s') C s₀ hist s) (e : E) (hC : C hist s e)
    (hok : (f s e).isSome = true) :
    GuardedRun (fun s e s' => f s e = some s') C s₀ (e :: hist) ((f s e).get hok) :=
  hrun.step hC (Option.some_get hok).symm

end GuardedRun

/-! ## Counted loops that may fail. -/

section Loops

variable {f : S → Nat → Option S} {I : Nat → S → Prop} {s₀ : S} {n : Nat}

theorem foldlM_range_succ {m : Nat} {s' : S} :
    (List.range (m + 1)).foldlM f s₀ = some s'
      ↔ ∃ s, (List.range m).foldlM f s₀ = some s ∧ f s m = some s' := by
  rw [List.range_succ, List.foldlM_append, Option.bind_eq_bind, Option.bind_eq_some_iff]
  refine exists_congr fun s => and_congr_right fun _ => ?_
  rw [List.foldlM_cons, Option.bind_eq_bind, Option.bind_eq_some_iff]
  constructor
  · intro ⟨t, ht, hnil⟩
    rw [ht]
    exact hnil
  · intro h
    exact ⟨s', h, rfl⟩

/-- **The rule of a counted loop**: what holds before it and is kept by a round holds
after any number of rounds. -/
theorem loop_invariant (h₀ : I 0 s₀)
    (hround : ∀ m s s', m < n → (List.range m).foldlM f s₀ = some s → I m s → f s m = some s' →
      I (m + 1) s') :
    ∀ m s, m ≤ n → (List.range m).foldlM f s₀ = some s → I m s := by
  intro m
  induction m with
  | zero =>
      intro s _ hs
      injection hs with hs
      exact hs ▸ h₀
  | succ m ih =>
      intro s' hm hs
      obtain ⟨s, hs, hf⟩ := foldlM_range_succ.mp hs
      exact hround m s s' hm hs (ih s (Nat.le_of_succ_le hm) hs) hf

/-- **A counted loop returns** when every round does. -/
theorem loop_returns (h₀ : I 0 s₀)
    (hround : ∀ m s, m < n → (List.range m).foldlM f s₀ = some s → I m s →
      ∃ s', f s m = some s' ∧ I (m + 1) s') :
    ∃ s, (List.range n).foldlM f s₀ = some s ∧ I n s := by
  have hall : ∀ m, m ≤ n → ∃ s, (List.range m).foldlM f s₀ = some s ∧ I m s := by
    intro m
    induction m with
    | zero => exact fun _ => ⟨s₀, rfl, h₀⟩
    | succ m ih =>
        intro hm
        obtain ⟨s, hs, hI⟩ := ih (Nat.le_of_succ_le hm)
        obtain ⟨s', hf, hI'⟩ := hround m s hm hs hI
        exact ⟨s', foldlM_range_succ.mpr ⟨s, hs, hf⟩, hI'⟩
  exact hall n (Nat.le_refl n)

end Loops

/-! ## Conditions along a list, oldest element first. -/

/-- Every element meets `P` after the elements before it. -/
def AtEach (P : List E → E → Prop) (l : List E) : Prop :=
  ∀ before e later, l = before ++ e :: later → P before e

theorem atEach_nil (P : List E → E → Prop) : AtEach P [] := by
  intro before e later heq
  exact absurd heq.symm (by simp)

/-- One more element. -/
theorem atEach_concat_iff {P : List E → E → Prop} {l : List E} {a : E} :
    AtEach P (l ++ [a]) ↔ AtEach P l ∧ P l a := by
  constructor
  · intro h
    refine ⟨?_, h l a [] rfl⟩
    intro before e later heq
    refine h before e (later ++ [a]) ?_
    rw [heq, List.append_assoc, List.cons_append]
  · intro ⟨h, ha⟩ before e later heq
    rcases List.eq_nil_or_concat later with hlater | ⟨later', b, hlater⟩
    · -- the element is the new one
      rw [hlater] at heq
      obtain ⟨hl, hab⟩ := List.append_inj' heq rfl
      obtain rfl : a = e := by simpa using hab
      exact hl ▸ ha
    · rw [hlater, List.concat_eq_append, ← List.cons_append, ← List.append_assoc] at heq
      obtain ⟨hl, -⟩ := List.append_inj' heq rfl
      exact h before e later' hl

/-! ## Objects that answer calls. -/

section Calls

variable {C A : Type*} {step : S → C → A × S} {s₀ : S}

/-- The state after a list of calls. -/
def stateAfter (step : S → C → A × S) (s : S) (calls : List C) : S :=
  calls.foldl (fun s c => (step s c).2) s

/-- The answers to a list of calls. -/
def answers (step : S → C → A × S) : S → List C → List A
  | _, [] => []
  | s, c :: calls => (step s c).1 :: answers step (step s c).2 calls

theorem stateAfter_concat (s : S) (calls : List C) (c : C) :
    stateAfter step s (calls ++ [c]) = (step (stateAfter step s calls) c).2 := by
  simp [stateAfter]

theorem answers_concat (s : S) (calls : List C) (c : C) :
    answers step s (calls ++ [c]) = answers step s calls ++ [(step (stateAfter step s calls) c).1] := by
  induction calls generalizing s with
  | nil => rfl
  | cons d calls ih =>
      show _ :: answers step _ (calls ++ [c]) = _
      rw [ih]
      rfl

variable {I : List A → S → Prop} {Pre : S → C → Prop} {Post : List A → A → Prop}

/-- **Calls that meet their precondition** are answered as specified, and keep
what relates the state to the answers so far. -/
theorem answers_of_pre (h₀ : I [] s₀)
    (hgood : ∀ as s c, I as s → Pre s c →
      Post as (step s c).1 ∧ I (as ++ [(step s c).1]) (step s c).2)
    (calls : List C) (hpre : AtEach (fun before c => Pre (stateAfter step s₀ before) c) calls) :
    I (answers step s₀ calls) (stateAfter step s₀ calls) ∧ AtEach Post (answers step s₀ calls) := by
  -- on the last call: the state before it is that of a shorter list
  induction calls using List.reverseRecOn with
  | nil => exact ⟨h₀, atEach_nil Post⟩
  | append_singleton calls c ih =>
      obtain ⟨hbefore, hc⟩ := atEach_concat_iff.mp hpre
      obtain ⟨hI, hpost⟩ := ih hbefore
      obtain ⟨hanswer, hnext⟩ := hgood _ _ c hI hc
      rw [answers_concat, stateAfter_concat]
      exact ⟨hnext, atEach_concat_iff.mpr ⟨hpost, hanswer⟩⟩

/-- **The exact precondition**: if a call outside it is never answered as
specified, a list of calls is answered as specified exactly when all its calls
meet it. -/
theorem atEach_answers_iff (h₀ : I [] s₀)
    (hgood : ∀ as s c, I as s → Pre s c →
      Post as (step s c).1 ∧ I (as ++ [(step s c).1]) (step s c).2)
    (hbad : ∀ as s c, I as s → ¬ Pre s c → ¬ Post as (step s c).1) (calls : List C) :
    AtEach Post (answers step s₀ calls) ↔
      AtEach (fun before c => Pre (stateAfter step s₀ before) c) calls := by
  constructor
  · intro h
    induction calls using List.reverseRecOn with
    | nil => exact atEach_nil _
    | append_singleton calls c ih =>
        rw [answers_concat, atEach_concat_iff] at h
        have hbefore := ih h.1
        refine atEach_concat_iff.mpr ⟨hbefore, ?_⟩
        by_contra hc
        exact hbad _ _ c (answers_of_pre h₀ hgood calls hbefore).1 hc h.2
  · exact fun hpre => (answers_of_pre h₀ hgood calls hpre).2

end Calls

end MierOS.Lib
