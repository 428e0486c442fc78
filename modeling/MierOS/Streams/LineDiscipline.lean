/-
  MierOS.Streams.LineDiscipline
  **WHAT A TERMINAL READ RETURNS**, in settings that stay as they are.

  Without `ICANON` every translated byte should be readable at once, and with it
  the bytes of finished lines, less those that a backspace took back.  In the code
  only `handle_canon` moves the line head, which reads stop at, and a backspace
  erases only where the line wraps around the ring: the comparison
  `f_line_head > f_write_head` is the wrong way round.

  Main result: `line_discipline`.
-/
import MierOS.Streams.Termios

namespace MierOS.Streams.Termios

open Lib Lib.Ring

/-! ## §1. The discipline. -/

/-- The bytes that may be read, the unfinished line, and what was read. -/
structure Discipline where
  committed : List Byte
  line : List Byte
  delivered : List Byte
  deriving Repr, DecidableEq

namespace Discipline

def empty : Discipline := ⟨[], [], []⟩

def queue (d : Discipline) : Queue := ⟨d.committed, d.line⟩

/-- A character in canonical mode, as its translation and the last byte of that. -/
def canonical (t : Settings) (d : Discipline) (output : List Byte) (character : Byte) : Discipline :=
  if character = backspace then { d with line := d.line.dropLast }
  else match canonKey t character with
    | .eof => { d with committed := d.committed ++ (d.line ++ [carriageReturn]), line := [] }
    | .eol => { d with committed := d.committed ++ d.line, line := [] }
    | .endOfLine => { d with committed := d.committed ++ d.line, line := [] }
    | _ => { d with line := d.line ++ output }

/-- **A character**: its translation is readable at once, or belongs to a line. -/
def received (t : Settings) (d : Discipline) (data : BitVec 16) : Discipline :=
  if handleConditions t data then
    let output := translateCharacterInput t data
    if has t.lflag ICANON then d.canonical t output (output.getLastD 0)
    else { d with committed := d.committed ++ output }
  else d

/-- **A read** returns what may be read, as far as it fits. -/
def read (d : Discipline) (length : Nat) : Discipline :=
  { d with committed := d.committed.drop length, delivered := d.delivered ++ d.committed.take length }

def step (t : Settings) (d : Discipline) : Event → Discipline
  | .received data => d.received t data
  | .read length => d.read length
  | .setTermios _ => d

/-- The discipline after a history. -/
def after (t : Settings) : List Event → Discipline
  | [] => empty
  | e :: hist => (after t hist).step t e

end Discipline

/-! ## §2. The condition. -/

/-- The settings stay, and the buffer is never filled. -/
def NeverFills (t : Settings) (hist : List Event) (_ : TermiosHelper) : Event → Prop
  | .received data =>
      (Discipline.after t hist).queue.pending.length + (storedBytes t data).length < ringSize
  | .read _ => True
  | .setTermios _ => False

/-- **The condition on a step**: without `ICANON` nothing is stored; with it a backspace
finds an empty line, or one that wraps around the ring and has a byte at its start, and is
no other control character than an end of line behind an empty one. -/
def Delivers (t : Settings) (s : TermiosHelper) : Event → Prop
  | .received data =>
      if has t.lflag ICANON then
        handleConditions t data = true → (translateCharacterInput t data).getLastD 0 = backspace →
          (canonKey t backspace = .erase
            ∧ (s.lineHead = s.writeHead ∨ (s.writeHead < s.lineHead ∧ s.writeHead ≠ 0)))
          ∨ (canonKey t backspace = .eol ∧ s.lineHead = s.writeHead)
      else storedBytes t data = []
  | .read _ => True
  | .setTermios _ => True

/-- The initial state in given settings. -/
def TermiosHelper.start (t : Settings) (inputBuffer : Nat → Byte) : TermiosHelper :=
  { TermiosHelper.new inputBuffer with termios := t }

/-! ## §3. The ring follows the discipline. -/

/-- The ring holds what the discipline says, and reads have returned it. -/
structure Follows (t : Settings) (s : TermiosHelper) (d : Discipline) : Prop where
  termios : s.termios = t
  holds : Holds s d.queue
  delivered : taken s.trace = d.delivered

section Simulation

variable {t : Settings} {s s' : TermiosHelper} {d : Discipline} {q : Queue}

theorem taken_append (ops ops' : List Op) : taken (ops ++ ops') = taken ops ++ taken ops' :=
  List.filterMap_append

/-- Operations that return nothing to a reader. -/
theorem taken_append_of_forall {ops : List Op} (trace : List Op) (h : ∀ c, Op.take c ∉ ops) :
    taken (trace ++ ops) = taken trace := by
  have hnone : taken ops = [] := by
    unfold taken
    rw [List.filterMap_eq_nil_iff]
    intro op hop
    cases op with
    | take c => exact absurd hop (h c)
    | accept c => rfl
    | drop c => rfl
    | erase => rfl
    | commit => rfl
  rw [taken_append, hnone, List.append_nil]

/-- **Bytes that find room** go to the end of the line. -/
theorem Holds.storeAll (h : Holds s q) {bytes : List Byte}
    (hroom : q.pending.length + bytes.length < ringSize) :
    Holds (s.storeAll bytes) ⟨q.committed, q.line ++ bytes⟩
      ∧ (s.storeAll bytes).termios = s.termios
      ∧ (s.storeAll bytes).trace = s.trace ++ bytes.map .accept := by
  induction bytes generalizing s q with
  | nil =>
      rw [List.append_nil, List.map_nil, List.append_nil]
      exact ⟨h, rfl, rfl⟩
  | cons c bytes ih =>
      rw [List.length_cons] at hroom
      obtain ⟨hdef, hholds⟩ := h.accept (by omega) c
      have hlen : Queue.pending ⟨q.committed, q.line ++ [c]⟩ = q.pending ++ [c] :=
        (List.append_assoc q.committed q.line [c]).symm
      obtain ⟨hrest, htermios, htrace⟩ := ih hholds (by
        rw [hlen, List.length_append, List.length_singleton]
        omega)
      have hfirst : (s.writeInput c).termios = s.termios ∧ (s.writeInput c).trace = s.trace ++ [.accept c] := by
        rw [hdef]
        exact ⟨rfl, rfl⟩
      refine ⟨?_, htermios.trans hfirst.1, ?_⟩
      · rw [List.append_assoc] at hrest
        exact hrest
      · rw [show (s.storeAll (c :: bytes)).trace = ((s.writeInput c).storeAll bytes).trace from rfl, htrace,
          hfirst.2, List.append_assoc]
        rfl

/-- **A read** takes the first committed bytes. -/
theorem Follows.readLoop (h : Follows t s d) (n : Nat) :
    Follows t (TermiosHelper.readLoop n s) (d.read n) := by
  induction n generalizing s d with
  | zero =>
      refine ⟨h.termios, h.holds, ?_⟩
      show taken s.trace = d.delivered ++ []
      rw [List.append_nil]
      exact h.delivered
  | succ n ih =>
      unfold TermiosHelper.readLoop
      have hempty := h.holds.lineHead_eq_readHead_iff
      by_cases heq : s.lineHead = s.readHead
      · rw [if_pos heq]
        have hnil : d.committed = [] := hempty.mp heq
        have hread : d.read (n + 1) = d := by
          unfold Discipline.read
          rw [hnil, List.drop_nil, List.take_nil, List.append_nil, ← hnil]
        rw [hread]
        exact h
      · rw [if_neg heq]
        cases hq : d.committed with
        | nil => exact absurd (hempty.mpr hq) heq
        | cons c rest =>
            obtain ⟨hbyte, hholds⟩ := h.holds.readInput hq
            have hread : d.read (n + 1) = Discipline.read ⟨rest, d.line, d.delivered ++ [c]⟩ n := by
              unfold Discipline.read
              rw [hq, List.drop_succ_cons, List.take_succ_cons, List.append_assoc]
              rfl
            rw [hread]
            refine ih ⟨h.termios, hholds, ?_⟩
            show taken (s.trace ++ [.take (s.inputBuffer s.readHead)]) = d.delivered ++ [c]
            rw [hbyte, ← h.delivered]
            exact taken_append _ _

/-- Stored bytes belong to the line. -/
theorem Follows.storeAll (h : Follows t s d) (bytes : List Byte)
    (hroom : d.queue.pending.length + bytes.length < ringSize) :
    Follows t (s.storeAll bytes) { d with line := d.line ++ bytes } := by
  obtain ⟨hholds, htermios, htrace⟩ := h.holds.storeAll hroom
  refine ⟨htermios.trans h.termios, hholds, ?_⟩
  rw [htrace, taken_append_of_forall]
  · exact h.delivered
  · intro c hmem
    obtain ⟨b, _, hb⟩ := List.mem_map.mp hmem
    cases hb

theorem Follows.passLine (h : Follows t s d) :
    Follows t s.passLine { d with committed := d.committed ++ d.line, line := [] } := by
  refine ⟨h.termios, h.holds.passLine, ?_⟩
  show taken (s.trace ++ [.commit]) = d.delivered
  rw [taken_append_of_forall _ (by simp)]
  exact h.delivered

theorem Follows.writeOutput (h : Follows t s d) (c : Byte) : Follows t (s.writeOutput c) d :=
  ⟨h.termios, h.holds.writeOutput c, h.delivered⟩

/-- **A backspace** that meets the condition. -/
theorem Follows.erase (h : Follows t s d)
    (hline : s.lineHead = s.writeHead ∨ (s.writeHead < s.lineHead ∧ s.writeHead ≠ 0)) :
    Follows t (if s.lineHead > s.writeHead then (s.writeOutput backspace).stepBack else s)
      { d with line := d.line.dropLast } := by
  have hiff := h.holds.lineHead_eq_writeHead_iff
  rcases hline with heq | ⟨hlt, hzero⟩
  · -- an empty line
    have hnil : d.line = [] := hiff.mp heq
    rw [if_neg (by omega), hnil, List.dropLast_nil, ← hnil]
    exact h
  · have hne : d.line ≠ [] := by
      intro hnil
      have heq := hiff.mpr hnil
      omega
    rw [if_pos hlt]
    refine ⟨?_, (h.holds.writeOutput backspace).stepBack hne hzero, ?_⟩
    · rw [TermiosHelper.stepBack_termios]
      exact h.termios
    · rw [TermiosHelper.stepBack_trace, taken_append_of_forall _ (by simp)]
      exact h.delivered

/-- The control characters of canonical mode are tested in the order of `canonKey`. -/
theorem canonKey_erase_iff {character : Byte} (h : canonKey t character = .erase) :
    character = backspace := by
  unfold canonKey at h
  split_ifs at h with _ _ _ _ _ hback
  exact hback

/-- **A character in canonical mode.** -/
theorem Follows.handleCanon (h : Follows t s d) {output : List Byte} {character : Byte}
    (hroom : d.queue.pending.length + (match canonKey t character with
      | .eof => [carriageReturn]
      | .ignored => output
      | .other => output
      | _ => []).length < ringSize)
    (hback : character = backspace →
      (canonKey t backspace = .erase
        ∧ (s.lineHead = s.writeHead ∨ (s.writeHead < s.lineHead ∧ s.writeHead ≠ 0)))
      ∨ (canonKey t backspace = .eol ∧ s.lineHead = s.writeHead)) :
    Follows t (if (s.handleCanon character).2 then (s.handleCanon character).1.storeAll output
      else (s.handleCanon character).1) (d.canonical t output character) := by
  unfold TermiosHelper.handleCanon Discipline.canonical
  rw [h.termios]
  by_cases hchar : character = backspace
  · rw [if_pos hchar, hchar]
    rcases hback hchar with ⟨hkey, hline⟩ | ⟨hkey, hline⟩
    · rw [hkey]
      exact h.erase hline
    · rw [hkey]
      -- an end of line behind an empty line changes nothing
      have hnil : d.line = [] := h.holds.lineHead_eq_writeHead_iff.mp hline
      have hpass := h.passLine
      rw [hnil, List.append_nil] at hpass
      rw [hnil]
      exact hpass
  · rw [if_neg hchar]
    cases hkey : canonKey t character with
    | eof =>
        rw [hkey] at hroom
        exact (h.storeAll _ hroom).passLine
    | eol => exact h.passLine
    | ignored =>
        rw [hkey] at hroom
        exact h.storeAll _ hroom
    | endOfLine => exact h.passLine
    | erase => exact absurd (canonKey_erase_iff hkey) hchar
    | other =>
        rw [hkey] at hroom
        exact h.storeAll _ hroom

theorem Follows.characterReceived (h : Follows t s d) {data : BitVec 16}
    (hroom : d.queue.pending.length + (storedBytes t data).length < ringSize)
    (hmeets : Delivers t s (.received data)) :
    Follows t (s.characterReceived data) (d.received t data) := by
  have hout := h.writeOutput (data.setWidth 8)
  have hmeets : if has t.lflag ICANON then
      handleConditions t data = true → (translateCharacterInput t data).getLastD 0 = backspace →
        (canonKey t backspace = .erase
          ∧ (s.lineHead = s.writeHead ∨ (s.writeHead < s.lineHead ∧ s.writeHead ≠ 0)))
        ∨ (canonKey t backspace = .eol ∧ s.lineHead = s.writeHead)
      else storedBytes t data = [] := hmeets
  unfold storedBytes at hroom hmeets
  unfold TermiosHelper.characterReceived Discipline.received
  dsimp only
  rw [hout.termios]
  by_cases hcond : handleConditions t data = true
  · rw [if_pos hcond] at hroom hmeets ⊢
    rw [if_pos hcond]
    dsimp only at hroom hmeets
    by_cases hcanon : has t.lflag ICANON = true
    · rw [if_pos hcanon] at hroom hmeets ⊢
      rw [if_pos hcanon]
      exact hout.handleCanon hroom (hmeets hcond)
    · rw [if_neg hcanon] at hroom hmeets ⊢
      rw [if_neg hcanon] at hmeets ⊢
      rw [hmeets, List.append_nil]
      exact hout
  · rw [if_neg hcond, if_neg hcond]
    exact hout

/-- **Step lemma.** -/
theorem Follows.exec {hist : List Event} (h : Follows t s (Discipline.after t hist)) {e : Event}
    (hfits : NeverFills t hist s e) (hmeets : Delivers t s e) (hexec : exec s e = some s') :
    Follows t s' (Discipline.after t (e :: hist)) := by
  cases e with
  | received data =>
      cases hexec
      exact h.characterReceived hfits hmeets
  | read length =>
      have hexec : s.streamRead length = some s' := hexec
      unfold TermiosHelper.streamRead at hexec
      rcases ite_eq_iff.mp hexec with ⟨_, hwait⟩ | ⟨_, hdone⟩
      · cases hwait
      · cases hdone
        exact h.readLoop length
  | setTermios t' => exact absurd hfits not_false

end Simulation

/-! ## §4. Runs. -/

/-- The condition on a step, in the form runs take it. -/
def DeliversStep (t : Settings) (hist : List Event) (s : TermiosHelper) (e : Event) : Prop :=
  NeverFills t hist s e ∧ Delivers t s e

/-- **Reads return what the discipline says**, in every run that does not fill the buffer and
whose steps meet the condition. -/
theorem line_discipline {t : Settings} {inputBuffer : Nat → Byte} {hist : List Event} {s : TermiosHelper}
    (hrun : GuardedRun Step (DeliversStep t) (TermiosHelper.start t inputBuffer) hist s) :
    taken s.trace = (Discipline.after t hist).delivered := by
  have hfollows : Follows t s (Discipline.after t hist) := by
    refine hrun.historyInvariant (fun hist s => Follows t s (Discipline.after t hist)) ?_ ?_
    · have hnew := (Good.new inputBuffer).holds
      exact ⟨rfl, ⟨⟨hnew.lineHead, hnew.writeHead, hnew.bytes⟩, hnew.readHead, hnew.room⟩, rfl⟩
    · intro hist s e s' h hmeets hst
      exact h.exec hmeets.1 hmeets.2 hst
  exact hfollows.delivered

/-- A line is typed and read, in two pieces. -/
def typedAndRead : List Event := [.read 5, .read 1, .received 13, .received 98, .received 97, .received 8]

theorem line_discipline_typed :
    ∃ s, GuardedRun Step (DeliversStep canonical) (TermiosHelper.start canonical fun _ => 0) typedAndRead s
      ∧ (Discipline.after canonical typedAndRead).delivered = [97, 98] ∧ taken s.trace = [97, 98] := by
  obtain ⟨s, hrun⟩ : ∃ s, GuardedRun Step (DeliversStep canonical)
      (TermiosHelper.start canonical fun _ => 0) typedAndRead s := by
    refine ⟨_, .step (.step (.step (.step (.step (.step .init ?_ rfl) ?_ rfl) ?_ rfl) ?_ rfl) ?_ rfl)
      ?_ rfl⟩
    · exact ⟨(by decide : _ < ringSize), fun _ _ => Or.inl ⟨by decide, Or.inl rfl⟩⟩
    · exact ⟨(by decide : _ < ringSize), fun _ hback => absurd hback (by decide)⟩
    · exact ⟨(by decide : _ < ringSize), fun _ hback => absurd hback (by decide)⟩
    · exact ⟨(by decide : _ < ringSize), fun _ hback => absurd hback (by decide)⟩
    · exact ⟨trivial, trivial⟩
    · exact ⟨trivial, trivial⟩
  have hdelivered : (Discipline.after canonical typedAndRead).delivered = [97, 98] := by decide
  exact ⟨s, hrun, hdelivered, (line_discipline hrun).trans hdelivered⟩

/-- A letter, a backspace and a return: the read returns the letter. -/
def erasedLetter : List Event := [.read 5, .received 13, .received 8, .received 97]

theorem erased_letter_delivered :
    ¬ ∀ (t : Settings) (inputBuffer : Nat → Byte) (hist : List Event) (s : TermiosHelper),
      GuardedRun Step (NeverFills t) (TermiosHelper.start t inputBuffer) hist s →
        taken s.trace = (Discipline.after t hist).delivered := by
  intro hall
  obtain ⟨s, hrun, htaken⟩ : ∃ s, GuardedRun Step (NeverFills canonical)
      (TermiosHelper.start canonical fun _ => 0) erasedLetter s ∧ taken s.trace = [97] := by
    refine ⟨_, .step (.step (.step (.step .init ?_ rfl) ?_ rfl) ?_ rfl) ?_ rfl, by decide⟩
    · show _ < ringSize
      decide
    · show _ < ringSize
      decide
    · show _ < ringSize
      decide
    · trivial
  have heq := hall canonical (fun _ => 0) erasedLetter s hrun
  rw [htaken] at heq
  exact absurd heq (by decide)

end MierOS.Streams.Termios
