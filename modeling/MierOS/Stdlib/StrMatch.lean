/-
  MierOS.Stdlib.StrMatch
  **`strmatch`** of `stdlib.c`, and the copy of it in `modprobe`.

  The kernel's copy is here as the two loops over addresses that it is; the one in
  `modprobe` is `Modprobe.strmatch`, over the strings.  Both are the greedy matcher
  of `Lib.Wildcard`, round by round.

  Main results: `round_represents`, `skipStars_returns`, `strmatch_language`.
-/
import MierOS.Lib.Wildcard
import MierOS.Streams.DMesg
import MierOS.Userspace.Modprobe

namespace MierOS.Stdlib.StrMatch

open Lib Streams.DMesg
open Userspace (Modprobe.strmatch Modprobe.strmatchLoop Modprobe.cStr Modprobe.Backup)

/-! ## §1. The code. -/

/-- `'*'`. -/
def star : UInt8 := 42

/-- `'?'`. -/
def any : UInt8 := 63

/-- The variables of `strmatch`: addresses, 0 for a null pointer. -/
structure Locals where
  wildcard : Nat
  str : Nat
  textBackup : Nat
  wildBackup : Nat
  deriving Repr, DecidableEq

/-- A round of `while(*str != '\0')`.  It leaves with the pointer `wildcard` at the end
of the text, and with `none` where the function returns 0. -/
def matchRound (mem : Nat → UInt8) (l : Locals) : Locals ⊕ Option Nat :=
  if mem l.str ≠ 0 then
    if mem l.wildcard = star then
      .inl { l with
        textBackup := l.str, wildBackup := l.wildcard + 1, wildcard := l.wildcard + 1 }
    else if mem l.wildcard = any ∨ mem l.wildcard = mem l.str then
      .inl { l with str := l.str + 1, wildcard := l.wildcard + 1 }
    else if l.wildBackup = 0 then .inr none
    else
      .inl { l with
        textBackup := l.textBackup + 1, str := l.textBackup + 1, wildcard := l.wildBackup }
  else .inr (some l.wildcard)

/-- A round of `while(*wildcard == '*')`. -/
def skipStars (mem : Nat → UInt8) (wildcard : Nat) : Nat ⊕ Nat :=
  if mem wildcard = star then .inl (wildcard + 1) else .inr wildcard

/-- What follows the first loop. -/
def finish (mem : Nat → UInt8) (fuel : Nat) : Option Nat → Option Nat
  | none => some 0
  | some wildcard =>
      (Loop.run (skipStars mem) fuel wildcard).map fun wildcard =>
        if mem wildcard = 0 then 1 else 0

/-- `strmatch(wildcard, str)`, with `fuel` rounds for each loop. -/
def strmatch (mem : Nat → UInt8) (fuel wildcard str : Nat) : Option Nat :=
  (Loop.run (matchRound mem) fuel ⟨wildcard, str, 0, 0⟩).bind (finish mem fuel)

/-! ## §2. Addresses and strings. -/

/-- The variables point to the strings of a matcher's state.  The backtrack point has at
least as much text as is left. -/
structure Represents (mem : Nat → UInt8) (s : Wildcard.State UInt8) (l : Locals) : Prop where
  wild : TextFrom mem l.wildcard s.wild
  text : TextFrom mem l.str s.text
  none_eq : s.backup = none → l.wildBackup = 0
  some_eq : ∀ bwild btext, s.backup = some (bwild, btext) →
    l.wildBackup ≠ 0 ∧ TextFrom mem l.wildBackup bwild ∧ TextFrom mem l.textBackup btext
      ∧ s.text.length ≤ btext.length

/-- The pointer the first loop leaves with. -/
def Leaves (mem : Nat → UInt8) (r : Bool) : Option Nat → Prop
  | none => r = false
  | some wildcard =>
      ∃ wild, TextFrom mem wildcard wild ∧ r = (wild.dropWhile (· = star)).isEmpty

section Rounds

variable {mem : Nat → UInt8} {l : Locals} {wild text : List UInt8}
  {backup : Option (List UInt8 × List UInt8)} {c w : UInt8}

theorem represents_star (h : Represents mem ⟨w :: wild, text, backup⟩ l) :
    Represents mem ⟨wild, text, some (wild, text)⟩
      { l with textBackup := l.str, wildBackup := l.wildcard + 1, wildcard := l.wildcard + 1 } := by
  have hrest : TextFrom mem (l.wildcard + 1) wild := h.wild.cons.2.2
  constructor
  case wild => exact hrest
  case text => exact h.text
  case none_eq => exact fun hnone => nomatch hnone
  case some_eq =>
    intro bwild btext hsome
    injection hsome with hpair
    injection hpair with hwild htext
    subst hwild
    subst htext
    exact ⟨Nat.succ_ne_zero _, hrest, h.text, Nat.le_refl _⟩

theorem represents_char (h : Represents mem ⟨w :: wild, c :: text, backup⟩ l) :
    Represents mem ⟨wild, text, backup⟩ { l with str := l.str + 1, wildcard := l.wildcard + 1 } := by
  constructor
  case wild => exact h.wild.cons.2.2
  case text => exact h.text.cons.2.2
  case none_eq => exact h.none_eq
  case some_eq =>
    intro bwild btext hsome
    obtain ⟨hne, hwild, htext, hlen⟩ := h.some_eq bwild btext hsome
    exact ⟨hne, hwild, htext, Nat.le_of_succ_le hlen⟩

theorem represents_retry (h : Represents mem ⟨wild, c :: text, backup⟩ l)
    (hround : matchRound mem l = if l.wildBackup = 0 then .inr none else .inl { l with
      textBackup := l.textBackup + 1, str := l.textBackup + 1, wildcard := l.wildBackup }) :
    (∃ s' l', Wildcard.retry backup = .inl s' ∧ matchRound mem l = .inl l' ∧ Represents mem s' l') ∨
      ∃ r r', Wildcard.retry backup = .inr r ∧ matchRound mem l = .inr r' ∧ Leaves mem r r' := by
  rw [hround]
  cases backup with
  | none =>
      rw [if_pos (h.none_eq rfl)]
      exact Or.inr ⟨_, _, rfl, rfl, rfl⟩
  | some point =>
      obtain ⟨bwild, btext⟩ := point
      obtain ⟨hne, hbwild, hbtext, hlen⟩ := h.some_eq bwild btext rfl
      rw [if_neg hne]
      cases btext with
      | nil => exact absurd hlen (by simp)
      | cons d btext =>
          refine Or.inl ⟨_, _, rfl, rfl, hbwild, hbtext.cons.2.2, fun hnone => (nomatch hnone), ?_⟩
          intro bwild' btext' hsome
          injection hsome with hpair
          injection hpair with hwild htext
          subst hwild
          subst htext
          exact ⟨hne, hbwild, hbtext.cons.2.2, Nat.le_refl _⟩

/-- **A round of the loop is a round of the matcher.** -/
theorem round_represents (s : Wildcard.State UInt8) (l : Locals) (h : Represents mem s l) :
    (∃ s' l', Wildcard.round star any s = .inl s' ∧ matchRound mem l = .inl l'
        ∧ Represents mem s' l') ∨
      ∃ r r', Wildcard.round star any s = .inr r ∧ matchRound mem l = .inr r' ∧ Leaves mem r r' := by
  obtain ⟨wild, text, backup⟩ := s
  cases text with
  | nil =>
      have hstr : mem l.str = 0 := h.text.nil
      refine Or.inr ⟨_, some l.wildcard, rfl, ?_, wild, h.wild, rfl⟩
      unfold matchRound
      rw [if_neg (not_not.mpr hstr)]
  | cons c text =>
      obtain ⟨hstr, hc, _⟩ := h.text.cons
      have hend : mem l.str ≠ 0 := hstr.symm ▸ hc
      cases wild with
      | nil =>
          -- the pattern's terminator is neither of the two nor a character of the text
          have hwildcard : mem l.wildcard = 0 := h.wild.nil
          refine represents_retry h ?_
          have hstar : ¬ mem l.wildcard = star := by rw [hwildcard]; decide
          have hchar : ¬ (mem l.wildcard = any ∨ mem l.wildcard = mem l.str) := by
            rw [hwildcard]
            rintro (hany | heq)
            · exact absurd hany (by decide)
            · exact hend heq.symm
          unfold matchRound
          rw [if_pos hend, if_neg hstar, if_neg hchar]
      | cons w wild =>
          obtain ⟨hwildcard, _, _⟩ := h.wild.cons
          by_cases hstar : w = star
          · refine Or.inl ⟨_, _, Wildcard.round_star hstar, ?_, represents_star h⟩
            unfold matchRound
            rw [if_pos hend, if_pos (hwildcard.trans hstar)]
          · by_cases hchar : w = any ∨ w = c
            · refine Or.inl ⟨_, _, Wildcard.round_char hstar hchar, ?_, represents_char h⟩
              unfold matchRound
              rw [hwildcard, hstr, if_pos hc, if_neg hstar, if_pos hchar]
            · rw [Wildcard.round_mismatch hstar hchar]
              refine represents_retry h ?_
              unfold matchRound
              rw [hwildcard, hstr, if_pos hc, if_neg hstar, if_neg hchar]

/-- **The second loop** stops at the terminator exactly when only stars were left. -/
theorem skipStars_returns {wildcard : Nat} (h : TextFrom mem wildcard wild) :
    ∃ p, Loop.Returns (skipStars mem) wildcard p ∧
      (mem p = 0 ↔ (wild.dropWhile (· = star)).isEmpty = true) := by
  induction wild generalizing wildcard with
  | nil =>
      have hend : mem wildcard = 0 := h.nil
      refine ⟨wildcard, Loop.Returns.inr ?_, iff_of_true hend rfl⟩
      unfold skipStars
      rw [if_neg (by rw [hend]; decide)]
  | cons w wild ih =>
      obtain ⟨hhead, hw, hrest⟩ := h.cons
      by_cases hstar : w = star
      · obtain ⟨p, hp, hiff⟩ := ih hrest
        refine ⟨p, Loop.Returns.inl ?_ hp, ?_⟩
        · unfold skipStars
          rw [if_pos (hhead.trans hstar)]
        · rw [List.dropWhile_cons_of_pos (by simpa using hstar)]
          exact hiff
      · refine ⟨wildcard, Loop.Returns.inr ?_, ?_⟩
        · unfold skipStars
          rw [if_neg (by rw [hhead]; exact hstar)]
        · rw [List.dropWhile_cons_of_neg (by simpa using hstar), hhead]
          exact iff_of_false hw (by simp)

end Rounds

/-! ## §3. The copy of `modprobe`. -/

/-- The backtrack point of `modprobe` as the matcher has it. -/
def point (backup : Modprobe.Backup) : List UInt8 × List UInt8 := (backup.wild, backup.text)

theorem retry_exhausted {backup : Option Modprobe.Backup}
    (h : ∀ wild c text, backup = some ⟨wild, c :: text⟩ → False) :
    Wildcard.retry (backup.map point) = .inr false := by
  cases backup with
  | none => rfl
  | some b =>
      obtain ⟨wild, text⟩ := b
      cases text with
      | nil => rfl
      | cons c text => exact absurd rfl (h wild c text)

/-- `Modprobe.strmatchLoop` runs the matcher. -/
theorem strmatchLoop_returns (wildcard str : List UInt8) (backup : Option Modprobe.Backup) :
    Loop.Returns (Wildcard.round star any)
      ⟨wildcard, str, backup.map point⟩
      (Modprobe.strmatchLoop wildcard str backup) := by
  fun_induction Modprobe.strmatchLoop wildcard str backup with
  | case1 wildcard backup => exact Loop.Returns.inr rfl
  | case2 backup c rest wildRest ih => exact Loop.Returns.inl (Wildcard.round_star rfl) ih
  | case3 backup c rest w wildRest hstar hchar ih =>
      exact Loop.Returns.inl (Wildcard.round_char hstar hchar) ih
  | case4 c rest w wildRest hstar hchar wild _ text ih =>
      exact Loop.Returns.inl (Wildcard.round_mismatch hstar hchar) ih
  | case5 backup c rest w wildRest hstar hchar hnone =>
      exact Loop.Returns.inr ((Wildcard.round_mismatch hstar hchar).trans (retry_exhausted hnone))
  | case6 c rest wild _ text ih => exact Loop.Returns.inl rfl ih
  | case7 backup c rest hnone => exact Loop.Returns.inr (retry_exhausted hnone)

/-- `modprobe`'s copy decides the language of the pattern as well. -/
theorem modprobe_strmatch_iff (w s : List UInt8) :
    Modprobe.strmatch w s = true ↔
      Modprobe.cStr s ∈ Wildcard.language star any (Modprobe.cStr w) := by
  obtain ⟨r, hr, hiff⟩ := Wildcard.matcher_returns star any (Modprobe.cStr w) (Modprobe.cStr s)
  have hloop := strmatchLoop_returns (Modprobe.cStr w) (Modprobe.cStr s) none
  unfold Modprobe.strmatch
  rw [Loop.Returns.unique hloop hr]
  exact hiff

/-! ## §4. What `strmatch` answers. -/

/-- **`strmatch` decides the language of the pattern.**  For every pattern and every
text that stand in memory with their terminators it ends, answers 1 when the text is in
the language of the pattern and 0 otherwise; and so does the copy in `modprobe`, of any
two `std::string`s whose `c_str()` these are. -/
theorem strmatch_language {mem : Nat → UInt8} {wildcard str : Nat} {w s : List UInt8}
    (hw : TextFrom mem wildcard w) (hs : TextFrom mem str s) :
    ∃ r, (∃ n, ∀ fuel, n ≤ fuel → strmatch mem fuel wildcard str = some r)
      ∧ (r = 0 ∨ r = 1) ∧ (r = 1 ↔ s ∈ Wildcard.language star any w)
      ∧ ∀ w' s', Modprobe.cStr w' = w → Modprobe.cStr s' = s →
          (Modprobe.strmatch w' s' = true ↔ r = 1) := by
  obtain ⟨accepted, hmatcher, hiff⟩ := Wildcard.matcher_returns star any w s
  have hinit : Represents mem ⟨w, s, none⟩ ⟨wildcard, str, 0, 0⟩ :=
    ⟨hw, hs, fun _ => rfl, fun _ _ hsome => (nomatch hsome)⟩
  obtain ⟨left, ⟨n, hn⟩, hleft⟩ :=
    hmatcher.simulates (Represents mem) (Leaves mem) round_represents hinit
  -- the answer, and the rounds both loops need for it
  have hfinish : ∃ r m, (∀ fuel, m ≤ fuel → finish mem fuel left = some r)
      ∧ (r = 0 ∨ r = 1) ∧ (r = 1 ↔ accepted = true) := by
    cases left with
    | none =>
        have hfalse : accepted = false := hleft
        exact ⟨0, 0, fun _ _ => rfl, Or.inl rfl, by simp [hfalse]⟩
    | some p =>
        obtain ⟨wild, hwild, hacc⟩ := hleft
        obtain ⟨q, ⟨m, hm⟩, hend⟩ := skipStars_returns hwild
        refine ⟨if mem q = 0 then 1 else 0, m, ?_, ?_, ?_⟩
        · intro fuel hle
          show (Loop.run (skipStars mem) fuel p).map _ = _
          rw [Loop.run_mono hle hm]
          rfl
        · split <;> simp
        · rw [hacc, ← hend]
          split <;> simp_all
  obtain ⟨r, m, hm, hr, hraccepted⟩ := hfinish
  refine ⟨r, ⟨max n m, fun fuel hle => ?_⟩, hr, hraccepted.trans hiff, ?_⟩
  · unfold strmatch
    rw [Loop.run_mono (Nat.le_trans (Nat.le_max_left n m) hle) hn]
    exact hm fuel (Nat.le_trans (Nat.le_max_right n m) hle)
  · intro w' s' hw' hs'
    rw [modprobe_strmatch_iff, hw', hs', hraccepted]
    exact hiff.symm

/-- The pattern `*a?` and the text `aabab`: the first two tries of the star fail. -/
theorem strmatch_language_backtracks :
    (∃ n, ∀ fuel, n ≤ fuel →
        strmatch (fun i => [0, 42, 97, 63, 0, 97, 97, 98, 97, 98, 0].getD i 0) fuel 1 5 = some 1)
      ∧ [97, 97, 98, 97, 98] ∈ Wildcard.language star any [42, 97, 63] := by
  obtain ⟨r, hr, _, hiff, hcopy⟩ := @strmatch_language
    (fun i => [0, 42, 97, 63, 0, 97, 97, 98, 97, 98, 0].getD i 0) 1 5 [42, 97, 63]
    [97, 97, 98, 97, 98] ⟨by decide, by decide⟩ ⟨by decide, by decide⟩
  have hone : r = 1 := (hcopy [42, 97, 63] [97, 97, 98, 97, 98] rfl rfl).mp (by
    simp [Modprobe.strmatch, Modprobe.cStr, Modprobe.strmatchLoop])
  subst hone
  exact ⟨hr, hiff.mp rfl⟩

end MierOS.Stdlib.StrMatch
