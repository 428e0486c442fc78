/-
  MierOS.Streams.DMesg
  **THE KERNEL LOG STREAM**: `DMesgStream::write` of `dmesgstream.cpp`.

  A write fills the buffer, prints the lines in it and shifts the rest to the
  front, in rounds.  Two slips: a round after the first measures its fill by
  the length of the whole write instead of what is left of it, and the shift
  leaves the terminator where it was, so that the search for the next newline
  can run into the old copy of a line behind the rest.

  Main result: `dmesg_write_cuts_iff`.
-/
import MierOS.Lib.Cut
import Mathlib.Logic.Function.Basic
import Mathlib.Data.List.GetD

namespace MierOS.Streams.DMesg

open Lib.Cut
open Function (update update_of_ne update_self)

/-! ## §1. The code. -/

/-- `sizeof(f_buffer)`. -/
def bufferSize : Nat := 2048

/-- `'\n'`. -/
def newline : UInt8 := 10

/-- A `DMesgStream`, with the strings that `dmesg` was given. -/
structure DMesgStream where
  buffer : Nat → UInt8
  bufferPos : Nat
  log : List (List UInt8)

/-- `DMesgStream()`; the buffer is not initialised. -/
def DMesgStream.new (buffer : Nat → UInt8) : DMesgStream := ⟨buffer, 0, []⟩

/-- `strchr(str, c)` from index `i`; `none` when the string does not end within the
next `n` bytes. -/
def strchrFrom (str : Nat → UInt8) (c : UInt8) : Nat → Nat → Option (Option Nat)
  | 0, _ => none
  | n + 1, i =>
      if c = 0 ∨ str i ≠ 0 then
        if str i = c then some (some i) else strchrFrom str c n (i + 1)
      else some none

def strchr (str : Nat → UInt8) (c : UInt8) : Option (Option Nat) := strchrFrom str c bufferSize 0

/-- The bytes of a string from index `i`. -/
def stringFrom (str : Nat → UInt8) : Nat → Nat → List UInt8
  | 0, _ => []
  | n + 1, i => if str i = 0 then [] else str i :: stringFrom str n (i + 1)

/-- `memcpy(buffer, buffer + src, count)`. -/
def memcpy (buffer : Nat → UInt8) (src count : Nat) : Nat → UInt8 :=
  (List.range count).foldl (fun b i => update b i (b (src + i))) buffer

namespace DMesgStream

/-- The first `f_buffer_pos` bytes of the buffer. -/
def pending (s : DMesgStream) : List UInt8 := (List.range s.bufferPos).map s.buffer

/-- `dmesg(f_buffer)`. -/
def dmesg (s : DMesgStream) : DMesgStream :=
  { s with log := s.log ++ [stringFrom s.buffer bufferSize 0] }

/-- The bytes and a terminator go behind what is pending; `none` when they do not
fit. -/
def fill (s : DMesgStream) (chunk : List UInt8) : Option DMesgStream :=
  if s.bufferPos + chunk.length < bufferSize then
    some { s with
      buffer := fun i =>
        if i < s.bufferPos then s.buffer i
        else if i < s.bufferPos + chunk.length then chunk.getD (i - s.bufferPos) 0
        else if i = s.bufferPos + chunk.length then 0
        else s.buffer i,
      bufferPos := s.bufferPos + chunk.length }
  else none

/-- One line is printed and the rest shifted down; `none` when
`f_buffer_pos - printedLength` wraps. -/
def printLine (s : DMesgStream) (delimiter : Nat) : Option DMesgStream :=
  let s := { s with buffer := update s.buffer delimiter 0 }
  let s := s.dmesg
  let printedLength := delimiter + 1
  if s.bufferPos < printedLength then none
  else some { s with
    buffer := memcpy s.buffer printedLength (s.bufferPos - printedLength),
    bufferPos := s.bufferPos - printedLength }

/-- `while((delimiter = strchr(f_buffer, '\n')))`, for at most `n` rounds. -/
def printLines : Nat → DMesgStream → Option DMesgStream
  | 0, _ => none
  | n + 1, s =>
      match strchr s.buffer newline with
      | none => none
      | some none => some s
      | some (some delimiter) => (s.printLine delimiter).bind (printLines n)

/-- A full buffer is printed. -/
def printFull (s : DMesgStream) : DMesgStream :=
  if s.bufferPos = bufferSize - 1 then
    { ({ s with buffer := update s.buffer (bufferSize - 1) 0 } : DMesgStream).dmesg with
      bufferPos := 0 }
  else s

/-- `lengthWritten`, which is taken from the length of the whole write. -/
def lengthWritten (length bufferPos : Nat) : Nat :=
  let lengthLeft := bufferSize - bufferPos - 1
  if length < lengthLeft then length else lengthLeft

/-- One round of `while(leftToRead)`, with the bytes left of the caller's; `none`
when it reads past them. -/
def writeRound (s : DMesgStream) (length : Nat) (left : List UInt8) :
    Option (DMesgStream × List UInt8) :=
  let n := lengthWritten length s.bufferPos
  if left.length < n then none
  else ((s.fill (left.take n)).bind (printLines bufferSize)).map
    (fun s => (s.printFull, left.drop n))

/-- `while(leftToRead)`, for at most `n` rounds. -/
def writeLoop (length : Nat) : Nat → DMesgStream → List UInt8 → Option DMesgStream
  | _, s, [] => some s
  | 0, _, _ :: _ => none
  | n + 1, s, x :: left =>
      (s.writeRound length (x :: left)).bind (fun r => writeLoop length n r.1 r.2)

/-- `write(buffer, length)`; a round takes at least one byte, so `length` rounds are
enough. -/
def write (s : DMesgStream) (bytes : List UInt8) : Option DMesgStream :=
  writeLoop bytes.length bytes.length s bytes

end DMesgStream

/-! ## §2. What a write is for. -/

/-- The log stream as its reader sees it: the bytes cut at every newline and whenever
2047 of them are pending. -/
abbrev cutLog (st : Pieces UInt8) (bytes : List UInt8) : Pieces UInt8 :=
  cut newline (bufferSize - 1) st bytes

/-- The lines of a full buffer and what follows the last of them. -/
def linesOf (content : List UInt8) : Pieces UInt8 := content.foldl (cutSep newline) ([], [])

/-- **No newline is left behind the rest**: the last line that is at least as long as
the rest, if there is one, is at least as long as everything behind it. -/
def LinesClear : List (List UInt8) → List UInt8 → Prop
  | [], _ => True
  | d :: post, rest =>
      LinesClear post rest ∧ ((∀ e ∈ post, e.length < rest.length) → rest.length ≤ d.length →
        (join newline post rest).length ≤ d.length)

/-- **The condition on a write** of `length` bytes of which `left` are left while `p`
is pending: every round has the bytes it fills in and leaves no newline behind. -/
inductive Fits (length : Nat) : List UInt8 → List UInt8 → Prop
  | done (p : List UInt8) : Fits length p []
  | round {p left : List UInt8} (hne : left ≠ [])
      (hfill : DMesgStream.lengthWritten length p.length ≤ left.length)
      (hlines : LinesClear (linesOf (p ++ left.take (DMesgStream.lengthWritten length p.length))).1
        (linesOf (p ++ left.take (DMesgStream.lengthWritten length p.length))).2)
      (hrest : Fits length (cutLog ([], p) (left.take (DMesgStream.lengthWritten length p.length))).2
        (left.drop (DMesgStream.lengthWritten length p.length))) : Fits length p left

/-- The condition on a sequence of writes. -/
def AllFit : List UInt8 → List (List UInt8) → Prop
  | _, [] => True
  | p, bytes :: writes =>
      Fits bytes.length p bytes ∧ AllFit (cutLog ([], p) bytes).2 writes

/-! ## §3. Strings in the buffer. -/

/-- The string `w` and its terminator stand at index `i`. -/
def TextFrom (str : Nat → UInt8) (i : Nat) (w : List UInt8) : Prop :=
  0 ∉ w ∧ ∀ j, j ≤ w.length → str (i + j) = w.getD j 0

/-- The buffer holds the string `w`. -/
def Text (str : Nat → UInt8) (w : List UInt8) : Prop := w.length < bufferSize ∧ TextFrom str 0 w

section Strings

variable {str : Nat → UInt8} {i n : Nat} {x c : UInt8} {w : List UInt8}

theorem TextFrom.nil (h : TextFrom str i []) : str i = 0 := h.2 0 (Nat.le_refl 0)

theorem TextFrom.cons (h : TextFrom str i (x :: w)) : str i = x ∧ x ≠ 0 ∧ TextFrom str (i + 1) w := by
  obtain ⟨hzero, hall⟩ := h
  refine ⟨hall 0 (Nat.zero_le _), fun hx => hzero (hx ▸ List.mem_cons_self),
    fun hmem => hzero (List.mem_cons_of_mem x hmem), fun j hj => ?_⟩
  have hnext := hall (j + 1) (by rw [List.length_cons]; omega)
  rw [List.getD_cons_succ] at hnext
  rw [Nat.add_assoc, Nat.add_comm 1 j]
  exact hnext

/-- The part of a string behind `d`. -/
theorem TextFrom.drop {d : List UInt8} (h : TextFrom str i (d ++ w)) :
    TextFrom str (i + d.length) w := by
  induction d generalizing i with
  | nil => exact h
  | cons x d ih =>
      have hrest := ih h.cons.2.2
      rw [List.length_cons, Nat.add_comm d.length 1, ← Nat.add_assoc]
      exact hrest

/-- A terminator written behind `d` leaves the string `d`. -/
theorem TextFrom.cut {d : List UInt8} (h : TextFrom str i (d ++ w)) :
    TextFrom (update str (i + d.length) 0) i d := by
  refine ⟨fun hmem => h.1 (List.mem_append_left w hmem), fun j hj => ?_⟩
  by_cases hend : j = d.length
  · subst hend
    rw [update_self, List.getD_eq_default d 0 (Nat.le_refl _)]
  · have hlt : j < d.length := by omega
    rw [update_of_ne (by omega), h.2 j (by rw [List.length_append]; omega),
      List.getD_append d w 0 j hlt]

/-- A string stays where its bytes and its terminator do. -/
theorem TextFrom.congr {str' : Nat → UInt8} (h : TextFrom str i w)
    (hsame : ∀ j, i ≤ j → j ≤ i + w.length → str' j = str j) : TextFrom str' i w := by
  refine ⟨h.1, fun k hk => ?_⟩
  rw [hsame (i + k) (by omega) (by omega)]
  exact h.2 k hk

/-- `strchr` goes past a character it is not looking for. -/
theorem strchrFrom_skip (h : TextFrom str i (x :: w)) (hc : c ≠ x) (n : Nat) :
    strchrFrom str c (n + 1) i = strchrFrom str c n (i + 1) := by
  obtain ⟨hx, hx0, _⟩ := h.cons
  have hxc : str i ≠ c := by
    rw [hx]
    exact hc.symm
  show (if c = 0 ∨ str i ≠ 0 then _ else _) = _
  rw [if_pos (Or.inr (by rw [hx]; exact hx0)), if_neg hxc]

theorem strchrFrom_absent (h : TextFrom str i w) (hn : w.length < n) (hc : c ∉ w) (hc0 : c ≠ 0) :
    strchrFrom str c n i = some none := by
  induction w generalizing i n with
  | nil =>
      obtain ⟨n, rfl⟩ := Nat.exists_eq_succ_of_ne_zero (Nat.ne_of_gt hn)
      unfold strchrFrom
      rw [if_neg]
      rintro (hzero | hne)
      · exact hc0 hzero
      · exact hne h.nil
  | cons x w ih =>
      rw [List.length_cons] at hn
      obtain ⟨n, rfl⟩ := Nat.exists_eq_succ_of_ne_zero (show n ≠ 0 by omega)
      rw [List.mem_cons, not_or] at hc
      rw [strchrFrom_skip h hc.1]
      exact ih h.cons.2.2 (by omega) hc.2

theorem strchrFrom_found {d r : List UInt8} (h : TextFrom str i (d ++ c :: r)) (hn : d.length < n)
    (hc : c ∉ d) : strchrFrom str c n i = some (some (i + d.length)) := by
  induction d generalizing i n with
  | nil =>
      obtain ⟨n, rfl⟩ := Nat.exists_eq_succ_of_ne_zero (Nat.ne_of_gt hn)
      obtain ⟨hx, hx0, _⟩ := h.cons
      unfold strchrFrom
      rw [if_pos (Or.inr (by rw [hx]; exact hx0)), if_pos hx]
      rfl
  | cons x d ih =>
      rw [List.length_cons] at hn
      obtain ⟨n, rfl⟩ := Nat.exists_eq_succ_of_ne_zero (show n ≠ 0 by omega)
      rw [List.mem_cons, not_or] at hc
      rw [strchrFrom_skip h hc.1, ih h.cons.2.2 (by omega) hc.2, List.length_cons, Nat.add_assoc,
        Nat.add_comm 1]

theorem stringFrom_text (h : TextFrom str i w) (hn : w.length < n) : stringFrom str n i = w := by
  induction w generalizing i n with
  | nil =>
      obtain ⟨n, rfl⟩ := Nat.exists_eq_succ_of_ne_zero (Nat.ne_of_gt hn)
      unfold stringFrom
      rw [if_pos h.nil]
  | cons x w ih =>
      rw [List.length_cons] at hn
      obtain ⟨n, rfl⟩ := Nat.exists_eq_succ_of_ne_zero (show n ≠ 0 by omega)
      obtain ⟨hx, hx0, hrest⟩ := h.cons
      unfold stringFrom
      rw [if_neg (by rw [hx]; exact hx0), hx, ih hrest (by omega)]

theorem memcpy_apply {src : Nat} (hsrc : 0 < src) (buffer : Nat → UInt8) (count j : Nat) :
    memcpy buffer src count j = if j < count then buffer (src + j) else buffer j := by
  unfold memcpy
  induction count generalizing j with
  | zero => rfl
  | succ count ih =>
      rw [List.range_succ, List.foldl_append, List.foldl_cons, List.foldl_nil]
      by_cases hj : j = count
      · -- the byte of this round, which no earlier round has written
        rw [hj, update_self, ih, if_neg (by omega), if_pos (by omega)]
      · rw [update_of_ne hj, ih]
        by_cases hlt : j < count
        · rw [if_pos hlt, if_pos (by omega)]
        · rw [if_neg hlt, if_neg (by omega)]

end Strings

/-! ## §4. The lines of the buffer. -/

/-- What stands behind `n` after the line `d` was cut off in front of it, with `t`
behind it before. -/
def nextStale (t d n : List UInt8) : List UInt8 :=
  if n.length ≤ d.length then d.drop n.length else n.drop (n.length - d.length - 1) ++ t

/-- What stands behind the rest when all lines are printed. -/
def stale : List UInt8 → List (List UInt8) → List UInt8 → List UInt8
  | t, [], _ => t
  | t, d :: post, rest => stale (nextStale t d (join newline post rest)) post rest

section Lines

variable {s : DMesgStream} {d n t rest : List UInt8} {lines : List (List UInt8)}

theorem newline_ne_zero : newline ≠ 0 := by decide

/-- A newline is among the last `d.length + 1` bytes exactly when the rest behind the
last one is no longer than `d`. -/
theorem newline_mem_tail (hrest : newline ∉ rest)
    (hlong : d.length < (join newline lines rest).length) :
    newline ∈ (join newline lines rest).drop ((join newline lines rest).length - d.length - 1)
      ↔ rest.length ≤ d.length := by
  by_cases hnil : lines = []
  · subst hnil
    have hlong : d.length < rest.length := hlong
    refine ⟨fun hmem => absurd (List.mem_of_mem_drop hmem) hrest, fun hle => ?_⟩
    omega
  · obtain ⟨front, hfront⟩ := join_eq_append newline hnil rest
    rw [hfront, List.length_append, List.length_cons] at *
    by_cases hle : rest.length ≤ d.length
    · rw [List.drop_append_of_le_length (by omega)]
      exact ⟨fun _ => hle, fun _ => List.mem_append_right _ List.mem_cons_self⟩
    · refine ⟨fun hmem => ?_, fun h => absurd h hle⟩
      -- the tail lies inside the rest
      have htail : (front ++ newline :: rest).drop (front.length + (rest.length + 1) - d.length - 1)
          = rest.drop (rest.length - d.length - 1) := by
        have hsum : front.length + (rest.length + 1) - d.length - 1
            = (front ++ [newline]).length + (rest.length - d.length - 1) := by
          rw [List.length_append, List.length_singleton]
          omega
        rw [hsum, show front ++ newline :: rest = (front ++ [newline]) ++ rest by simp,
          List.drop_length_add_append]
      rw [htail] at hmem
      exact absurd (List.mem_of_mem_drop hmem) hrest

theorem linesClear_cons (d : List UInt8) (post : List (List UInt8)) (rest : List UInt8) :
    LinesClear (d :: post) rest ↔ LinesClear post rest ∧ ((∀ e ∈ post, e.length < rest.length) →
      rest.length ≤ d.length → (join newline post rest).length ≤ d.length) := Iff.rfl

/-- **When the rest is followed by a newline**: exactly when `LinesClear` fails, or one was
there before and no line has overwritten it. -/
theorem newline_notMem_stale (hlines : ∀ d ∈ lines, newline ∉ d) (hrest : newline ∉ rest)
    (t : List UInt8) :
    newline ∉ stale t lines rest ↔
      LinesClear lines rest ∧ (newline ∈ t → ∃ e ∈ lines, rest.length ≤ e.length) := by
  induction lines generalizing t with
  | nil =>
      refine ⟨fun h => ⟨trivial, fun hmem => absurd hmem h⟩, fun h hmem => ?_⟩
      obtain ⟨e, he, _⟩ := h.2 hmem
      exact absurd he List.not_mem_nil
  | cons d post ih =>
      have hpost : ∀ e ∈ post, newline ∉ e := fun e he => hlines e (List.mem_cons_of_mem d he)
      have hd : newline ∉ d := hlines d List.mem_cons_self
      have hno : (∀ e ∈ post, e.length < rest.length) ↔ ¬ ∃ e ∈ post, rest.length ≤ e.length := by
        simp only [not_exists, not_and, Nat.not_le]
      have hrestlen := length_rest_le_join newline post rest
      show newline ∉ stale (nextStale t d (join newline post rest)) post rest ↔ _
      rw [ih hpost, linesClear_cons, hno]
      unfold nextStale
      simp only [List.mem_cons, exists_eq_or_imp]
      by_cases hshort : (join newline post rest).length ≤ d.length
      · -- what was behind is overwritten by the end of `d`
        rw [if_pos hshort]
        have htail : newline ∉ d.drop (join newline post rest).length :=
          fun hmem => hd (List.mem_of_mem_drop hmem)
        have hle : rest.length ≤ d.length := by omega
        simp only [htail, hle, hshort, false_implies, implies_true, true_or, and_true]
      · rw [if_neg hshort, List.mem_append, newline_mem_tail hrest (by omega)]
        constructor
        · intro ⟨hclear, hall⟩
          exact ⟨⟨hclear, fun hnone hle => absurd (hall (Or.inl hle)) hnone⟩,
            fun hmem => Or.inr (hall (Or.inr hmem))⟩
        · intro ⟨⟨hclear, hd'⟩, hall⟩
          refine ⟨hclear, fun hor => ?_⟩
          by_contra hnone
          have hlong : ¬ rest.length ≤ d.length := fun hle => hshort (hd' hnone hle)
          rcases hor with hle | hmem
          · exact hlong hle
          · rcases hall hmem with hle | hex
            · exact hlong hle
            · exact hnone hex

theorem Text.line_byte {str : Nat → UInt8} (htext : Text str (d ++ newline :: n ++ t)) {j : Nat}
    (hj : j < d.length) : str j = d.getD j 0 := by
  have hlen : (d ++ newline :: n ++ t).length = d.length + (n.length + 1) + t.length := by
    simp only [List.length_append, List.length_cons]
  have hbyte := htext.2.2 j (by omega)
  rw [Nat.zero_add, List.append_assoc, List.getD_append _ _ _ _ hj] at hbyte
  exact hbyte

/-- The bytes behind the first newline, the terminator included. -/
theorem Text.behind_byte {str : Nat → UInt8} (htext : Text str (d ++ newline :: n ++ t)) {j : Nat}
    (hj : j ≤ n.length + t.length) : str (d.length + 1 + j) = (n ++ t).getD j 0 := by
  have hlen : (d ++ newline :: n ++ t).length = d.length + (n.length + 1) + t.length := by
    simp only [List.length_append, List.length_cons]
  have hbyte := htext.2.2 (d.length + 1 + j) (by omega)
  have hsplit : d ++ newline :: n ++ t = (d ++ [newline]) ++ (n ++ t) := by simp
  rw [Nat.zero_add, hsplit, List.getD_append_right _ _ _ _ (by simp), List.length_append,
    List.length_singleton, Nat.add_sub_cancel_left] at hbyte
  exact hbyte

/-- **What stands behind the rest** once the line is printed and the rest is in front: the
end of the line, or the end of what was there. -/
theorem Text.nextStale_bytes {str : Nat → UInt8} (htext : Text str (d ++ newline :: n ++ t)) :
    (n ++ nextStale t d n).length < bufferSize ∧ 0 ∉ nextStale t d n
      ∧ ∀ j, n.length ≤ j → j ≤ (n ++ nextStale t d n).length →
        update str d.length 0 j = (nextStale t d n).getD (j - n.length) 0 := by
  have hlen := htext.1
  have hzero := htext.2.1
  simp only [List.length_append, List.length_cons] at hlen
  unfold nextStale
  by_cases hshort : n.length ≤ d.length
  · -- the rest ends inside the line
    rw [if_pos hshort, List.length_append, List.length_drop]
    have hdzero : 0 ∉ d := fun h => hzero (by simp [h])
    refine ⟨by omega, fun h => hdzero (List.mem_of_mem_drop h), fun j hnj hj => ?_⟩
    rw [List.getD_eq_getElem?_getD, List.getElem?_drop, ← List.getD_eq_getElem?_getD,
      Nat.add_sub_cancel' hnj]
    by_cases hjd : j = d.length
    · rw [hjd, update_self, List.getD_eq_default _ _ (Nat.le_refl _)]
    · rw [update_of_ne hjd]
      exact htext.line_byte (by omega)
  · -- it ends behind the newline, in its own old bytes
    rw [if_neg hshort, List.length_append, List.length_append, List.length_drop]
    refine ⟨by omega, fun h => ?_, fun j hnj hj => ?_⟩
    · rcases List.mem_append.mp h with h | h
      · exact hzero (by simp [List.mem_of_mem_drop h])
      · exact hzero (by simp [h])
    · have hbyte := htext.behind_byte (show j - (d.length + 1) ≤ n.length + t.length by omega)
      rw [Nat.add_sub_cancel' (by omega)] at hbyte
      rw [update_of_ne (by omega), hbyte, ← List.drop_append_of_le_length (by omega),
        List.getD_eq_getElem?_getD, List.getD_eq_getElem?_getD, List.getElem?_drop]
      congr 2
      omega

/-- **One line is printed**, and the rest stands in front. -/
theorem printLine_text {delimiter : Nat} (htext : Text s.buffer (d ++ newline :: n ++ t))
    (hpos : s.bufferPos = (d ++ newline :: n).length)
    (hdelim : delimiter = d.length) :
    ∃ buffer, s.printLine delimiter = some ⟨buffer, n.length, s.log ++ [d]⟩
      ∧ Text buffer (n ++ nextStale t d n) := by
  subst hdelim
  have hlen := htext.1
  have hzero := htext.2.1
  simp only [List.length_append, List.length_cons] at hlen hpos
  -- the terminator written over the newline ends the line
  have hprinted : stringFrom (update s.buffer d.length 0) bufferSize 0 = d := by
    refine stringFrom_text ⟨fun h => hzero (by simp [h]), fun j hj => ?_⟩ (by omega)
    rw [Nat.zero_add]
    by_cases hjd : j = d.length
    · rw [hjd, update_self, List.getD_eq_default _ _ (Nat.le_refl _)]
    · rw [update_of_ne hjd]
      exact htext.line_byte (by omega)
  refine ⟨memcpy (update s.buffer d.length 0) (d.length + 1) n.length, ?_, ?_⟩
  · unfold DMesgStream.printLine DMesgStream.dmesg
    dsimp only
    rw [if_neg (by omega), hprinted, show s.bufferPos - (d.length + 1) = n.length by omega]
  · obtain ⟨hfits, hszero, hstale⟩ := htext.nextStale_bytes
    refine ⟨hfits, List.not_mem_append (fun h => hzero (by simp [h])) hszero, fun j hj => ?_⟩
    rw [Nat.zero_add, memcpy_apply (Nat.succ_pos _)]
    by_cases hjn : j < n.length
    · rw [if_pos hjn, update_of_ne (by omega), htext.behind_byte (by omega),
        List.getD_append _ _ _ _ hjn, List.getD_append _ _ _ _ hjn]
    · rw [if_neg hjn, List.getD_append_right _ _ _ _ (by omega)]
      exact hstale j (by omega) hj

/-- The search finds the end of the first line. -/
theorem strchr_line {str : Nat → UInt8} (htext : Text str (d ++ newline :: n ++ t))
    (hd : newline ∉ d) : strchr str newline = some (some d.length) := by
  obtain ⟨hlen, htext⟩ := htext
  rw [List.append_assoc, List.cons_append] at htext
  simp only [List.length_append, List.length_cons] at hlen
  unfold strchr
  rw [strchrFrom_found htext (by omega) hd, Nat.zero_add]

/-- **All lines are printed** when no newline is left behind the rest. -/
theorem printLines_clear {fuel : Nat} (hlines : ∀ d ∈ lines, newline ∉ d) (hrest : newline ∉ rest)
    (htext : Text s.buffer (join newline lines rest ++ t))
    (hpos : s.bufferPos = (join newline lines rest).length) (hfuel : lines.length < fuel)
    (hclear : newline ∉ stale t lines rest) :
    ∃ buffer, DMesgStream.printLines fuel s = some ⟨buffer, rest.length, s.log ++ lines⟩
      ∧ Text buffer (rest ++ stale t lines rest) := by
  induction lines generalizing s t fuel with
  | nil =>
      obtain ⟨fuel, rfl⟩ := Nat.exists_eq_succ_of_ne_zero (Nat.ne_of_gt hfuel)
      have hnot : newline ∉ rest ++ t := List.not_mem_append hrest hclear
      refine ⟨s.buffer, ?_, htext⟩
      unfold DMesgStream.printLines strchr
      rw [strchrFrom_absent htext.2 htext.1 hnot newline_ne_zero, List.append_nil,
        ← show s.bufferPos = rest.length from hpos]
  | cons d lines ih =>
      obtain ⟨fuel, rfl⟩ := Nat.exists_eq_succ_of_ne_zero (Nat.ne_of_gt (Nat.lt_of_le_of_lt (Nat.zero_le _) hfuel))
      have htext : Text s.buffer (d ++ newline :: join newline lines rest ++ t) := htext
      have hfound := strchr_line htext (hlines d List.mem_cons_self)
      obtain ⟨buffer, hprint, hnext⟩ := printLine_text htext hpos rfl
      obtain ⟨last, hlast, htextlast⟩ := ih (s := ⟨buffer, (join newline lines rest).length, s.log ++ [d]⟩)
        (fun e he => hlines e (List.mem_cons_of_mem d he)) hnext rfl (Nat.lt_of_succ_lt_succ hfuel) hclear
      refine ⟨last, ?_, htextlast⟩
      unfold DMesgStream.printLines
      rw [hfound]
      dsimp only
      rw [hprint, Option.bind_some, hlast, List.append_assoc]
      rfl

/-- **The search runs into an old newline**, and what is left to shift wraps. -/
theorem printLines_stale {fuel : Nat} (hlines : ∀ d ∈ lines, newline ∉ d) (hrest : newline ∉ rest)
    (htext : Text s.buffer (join newline lines rest ++ t))
    (hpos : s.bufferPos = (join newline lines rest).length)
    (hstale : newline ∈ stale t lines rest) : DMesgStream.printLines fuel s = none := by
  induction lines generalizing s t fuel with
  | nil =>
      cases fuel with
      | zero => rfl
      | succ fuel =>
          obtain ⟨front, back, ht, hfront⟩ := List.eq_append_cons_of_mem (show newline ∈ t from hstale)
          have htext' : Text s.buffer ((rest ++ front) ++ newline :: back) := by
            rw [List.append_assoc, ← ht]
            exact htext
          have hlt : (rest ++ front).length < bufferSize := by
            have hlen := htext'.1
            rw [List.length_append] at hlen
            omega
          have hnot : newline ∉ rest ++ front := List.not_mem_append hrest hfront
          unfold DMesgStream.printLines strchr
          rw [strchrFrom_found htext'.2 hlt hnot]
          dsimp only
          unfold DMesgStream.printLine DMesgStream.dmesg
          have hpos : s.bufferPos = rest.length := hpos
          dsimp only
          rw [if_pos (by rw [hpos, List.length_append]; omega)]
          rfl
  | cons d lines ih =>
      cases fuel with
      | zero => rfl
      | succ fuel =>
          have htext : Text s.buffer (d ++ newline :: join newline lines rest ++ t) := htext
          have hfound := strchr_line htext (hlines d List.mem_cons_self)
          obtain ⟨buffer, hprint, hnext⟩ := printLine_text htext hpos rfl
          unfold DMesgStream.printLines
          rw [hfound]
          dsimp only
          rw [hprint, Option.bind_some]
          exact ih (fun e he => hlines e (List.mem_cons_of_mem d he)) hnext rfl hstale

end Lines

/-! ## §5. A write. -/

section Writes

variable {s : DMesgStream} {p left : List UInt8} {length : Nat}

/-- The buffer between two rounds: `p` is pending, without a newline, and there is
room. -/
structure Holds (s : DMesgStream) (p : List UInt8) : Prop where
  pending : s.pending = p
  room : p.length < bufferSize - 1
  no_newline : newline ∉ p
  no_zero : 0 ∉ p

theorem Holds.bufferPos (h : Holds s p) : s.bufferPos = p.length := by
  rw [← h.pending]
  unfold DMesgStream.pending
  rw [List.length_map, List.length_range]

theorem Holds.byte (h : Holds s p) {i : Nat} (hi : i < p.length) : s.buffer i = p.getD i 0 := by
  have hlt : i < s.bufferPos := by
    rw [h.bufferPos]
    exact hi
  rw [← h.pending]
  unfold DMesgStream.pending
  rw [List.getD_eq_getElem?_getD, List.getElem?_map, List.getElem?_range hlt]
  rfl

/-- What is pending when the buffer holds a string that begins with it. -/
theorem pending_of_text {w t : List UInt8} (h : Text s.buffer (w ++ t)) (hpos : s.bufferPos = w.length) :
    s.pending = w := by
  unfold DMesgStream.pending
  rw [hpos]
  apply List.ext_getElem
  · rw [List.length_map, List.length_range]
  · intro i hi hi'
    have hbyte := h.2.2 i (by rw [List.length_append]; omega)
    rw [Nat.zero_add, List.getD_append _ _ _ _ hi', List.getD_eq_getElem _ _ hi'] at hbyte
    rw [List.getElem_map, List.getElem_range, hbyte]

theorem Holds.fill (h : Holds s p) {chunk : List UInt8} (hchunk : 0 ∉ chunk)
    (hfits : p.length + chunk.length < bufferSize) :
    ∃ buffer, s.fill chunk = some ⟨buffer, (p ++ chunk).length, s.log⟩ ∧ Text buffer (p ++ chunk) := by
  unfold DMesgStream.fill
  rw [h.bufferPos, if_pos hfits, ← List.length_append]
  refine ⟨_, rfl, by rw [List.length_append]; exact hfits, fun hmem => ?_, fun j hj => ?_⟩
  · rcases List.mem_append.mp hmem with hmem | hmem
    · exact h.no_zero hmem
    · exact hchunk hmem
  · rw [Nat.zero_add]
    dsimp only
    by_cases hjp : j < p.length
    · rw [if_pos hjp, List.getD_append _ _ _ _ hjp]
      exact h.byte hjp
    · rw [if_neg hjp]
      by_cases hjc : j < (p ++ chunk).length
      · rw [if_pos hjc, List.getD_append_right _ _ _ _ (by omega)]
      · rw [if_neg hjc, if_pos (by omega), List.getD_eq_default _ _ (by omega)]

theorem lengthWritten_le (length pos : Nat) :
    DMesgStream.lengthWritten length pos ≤ length
      ∧ DMesgStream.lengthWritten length pos ≤ bufferSize - pos - 1 := by
  unfold DMesgStream.lengthWritten
  dsimp only
  split <;> omega

theorem lengthWritten_pos {pos : Nat} (hlength : 0 < length) (hpos : pos < bufferSize - 1) :
    0 < DMesgStream.lengthWritten length pos := by
  unfold DMesgStream.lengthWritten
  dsimp only
  split <;> omega

/-- The full buffer after its lines are printed. -/
theorem printFull_text {w t : List UInt8} (h : Text s.buffer (w ++ t)) (hpos : s.bufferPos = w.length) :
    (s.printFull.log, s.printFull.pending) = cutLimit (bufferSize - 1) (s.log, w) := by
  unfold DMesgStream.printFull cutLimit
  rw [hpos]
  by_cases hfull : w.length = bufferSize - 1
  · rw [if_pos hfull, if_pos hfull]
    -- a full buffer has nothing behind it
    have hlen := h.1
    rw [List.length_append] at hlen
    have ht : t = [] := List.length_eq_zero_iff.mp (by omega)
    rw [ht, List.append_nil] at h
    have hprinted : stringFrom (update s.buffer (bufferSize - 1) 0) bufferSize 0 = w := by
      refine stringFrom_text ⟨h.2.1, fun j hj => ?_⟩ h.1
      rw [Nat.zero_add]
      by_cases hjw : j = bufferSize - 1
      · rw [hjw, update_self, List.getD_eq_default _ _ (by omega)]
      · rw [update_of_ne hjw]
        have hbyte := h.2.2 j hj
        rw [Nat.zero_add] at hbyte
        exact hbyte
    unfold DMesgStream.dmesg
    dsimp only
    rw [hprinted]
    rfl
  · rw [if_neg hfull, if_neg hfull, pending_of_text h hpos]

/-- The lines of a string put back together. -/
theorem linesOf_join (content : List UInt8) : ∃ lines rest, linesOf content = (lines, rest)
    ∧ content = join newline lines rest ∧ (∀ d ∈ lines, newline ∉ d) ∧ newline ∉ rest := by
  obtain ⟨lines, rest, hjoin, hlines, hrest⟩ := exists_join newline content
  refine ⟨lines, rest, ?_, hjoin, hlines, hrest⟩
  unfold linesOf
  rw [hjoin, foldl_cutSep [] hlines hrest, List.nil_append]

/-- A round once the buffer is filled. -/
theorem Holds.writeRound_eq (h : Holds s p) {n : Nat}
    (hn : DMesgStream.lengthWritten length p.length = n) {buffer : Nat → UInt8}
    (hfill : s.fill (left.take n) = some ⟨buffer, (p ++ left.take n).length, s.log⟩) :
    s.writeRound length left = if left.length < n then none
      else (DMesgStream.printLines bufferSize ⟨buffer, (p ++ left.take n).length, s.log⟩).map
        (fun s => (s.printFull, left.drop n)) := by
  unfold DMesgStream.writeRound
  dsimp only
  rw [h.bufferPos, hn, hfill, Option.bind_some]

/-- What a round prints and leaves, by the lines of the filled buffer. -/
theorem cutLog_round {lines : List (List UInt8)} {rest chunk : List UInt8} (log : List (List UInt8))
    (h : Holds s p) (hfits : p.length + chunk.length ≤ bufferSize - 1)
    (hjoin : p ++ chunk = join newline lines rest) (hlines : ∀ d ∈ lines, newline ∉ d)
    (hrest : newline ∉ rest) :
    cutLog (log, p) chunk = cutLimit (bufferSize - 1) (log ++ lines, rest) := by
  have hpieces : chunk.foldl (cutSep newline) (log, p) = (log ++ lines, rest) := by
    rw [← foldl_cutSep log hlines hrest, ← hjoin, List.foldl_append,
      foldl_cutSep_of_notMem log [] h.no_newline, List.nil_append]
  unfold cutLog
  rw [cut_short h.room hfits, hpieces]

/-- **One round**: what it prints and leaves pending. -/
theorem Holds.writeRound (h : Holds s p) (length : Nat) (hzero : 0 ∉ left) :
    (DMesgStream.lengthWritten length p.length ≤ left.length →
      LinesClear (linesOf (p ++ left.take (DMesgStream.lengthWritten length p.length))).1
        (linesOf (p ++ left.take (DMesgStream.lengthWritten length p.length))).2 →
      ∃ s', s.writeRound length left
          = some (s', left.drop (DMesgStream.lengthWritten length p.length))
        ∧ (s'.log, s'.pending)
          = cutLog (s.log, p) (left.take (DMesgStream.lengthWritten length p.length)))
    ∧ (∀ r, s.writeRound length left = some r →
      DMesgStream.lengthWritten length p.length ≤ left.length
        ∧ LinesClear (linesOf (p ++ left.take (DMesgStream.lengthWritten length p.length))).1
          (linesOf (p ++ left.take (DMesgStream.lengthWritten length p.length))).2) := by
  have hn := (lengthWritten_le length p.length).2
  have hroom := h.room
  generalize hnw : DMesgStream.lengthWritten length p.length = n at hn ⊢
  have hchunk : 0 ∉ left.take n := fun hmem => hzero (List.mem_of_mem_take hmem)
  have htake := List.length_take_le n left
  obtain ⟨buffer, hfill, htext⟩ := h.fill hchunk (by omega)
  obtain ⟨lines, rest, hof, hjoin, hlines, hrest⟩ := linesOf_join (p ++ left.take n)
  rw [hof, h.writeRound_eq hnw hfill]
  have htext' : Text buffer (join newline lines rest ++ []) := by
    rw [← hjoin, List.append_nil]
    exact htext
  have hclear : newline ∉ stale [] lines rest ↔ LinesClear lines rest := by
    rw [newline_notMem_stale hlines hrest []]
    exact and_iff_left fun hmem => absurd hmem List.not_mem_nil
  constructor
  · -- the round has its bytes and the search stops where the lines end
    intro hlen hlc
    have hfuel : lines.length < bufferSize := by
      have hcount := length_lines_le_join newline lines rest
      rw [← hjoin, List.length_append] at hcount
      omega
    obtain ⟨last, hprint, htextlast⟩ := printLines_clear
      (s := ⟨buffer, (p ++ left.take n).length, s.log⟩) hlines hrest htext' (by rw [hjoin])
      hfuel (hclear.mpr hlc)
    rw [if_neg (by omega), hprint]
    refine ⟨_, rfl, ?_⟩
    rw [cutLog_round s.log h (by omega) hjoin hlines hrest]
    exact printFull_text (s := ⟨last, rest.length, s.log ++ lines⟩) htextlast rfl
  · -- a round that comes to its end had both
    intro r hr
    by_cases hlen : left.length < n
    · rw [if_pos hlen] at hr
      cases hr
    · refine ⟨by omega, hclear.mp fun hmem => ?_⟩
      rw [if_neg hlen, printLines_stale (s := ⟨buffer, (p ++ left.take n).length, s.log⟩) hlines hrest
        htext' (by rw [hjoin]) hmem] at hr
      cases hr

/-- What is pending after a write or a part of it, between two rounds. -/
theorem Holds.next (h : Holds s p) (hzero : 0 ∉ left) {s' : DMesgStream} {n : Nat}
    (hcut : (s'.log, s'.pending) = cutLog (s.log, p) (left.take n)) :
    Holds s' (cutLog ([], p) (left.take n)).2 := by
  have hpending : s'.pending = (cutLog ([], p) (left.take n)).2 := by
    have hlog : cutLog (s.log, p) (left.take n) = (s.log ++ (cutLog ([], p) (left.take n)).1,
      (cutLog ([], p) (left.take n)).2) := cut_log s.log p (left.take n)
    rw [hlog] at hcut
    exact (Prod.mk.inj hcut).2
  have hlimit : 0 < bufferSize - 1 := by decide
  have hkept : (cutLog ([], p) (left.take n)).2.length < bufferSize - 1
      ∧ newline ∉ (cutLog ([], p) (left.take n)).2 := cut_pending hlimit h.room h.no_newline
  refine ⟨hpending, hkept.1, hkept.2, fun hmem => ?_⟩
  rcases cut_subset hmem with hmem | hmem
  · exact h.no_zero hmem
  · exact hzero (List.mem_of_mem_take hmem)

/-- **The rounds of a write.** -/
theorem Holds.writeLoop (h : Holds s p) (hzero : 0 ∉ left) (hleft : left.length ≤ length) {fuel : Nat}
    (hfuel : left.length ≤ fuel) :
    (Fits length p left → ∃ s', DMesgStream.writeLoop length fuel s left = some s'
      ∧ (s'.log, s'.pending) = cutLog (s.log, p) left)
    ∧ (∀ s', DMesgStream.writeLoop length fuel s left = some s' → Fits length p left) := by
  induction fuel generalizing s p left with
  | zero =>
      have hnil : left = [] := List.length_eq_zero_iff.mp (by omega)
      subst hnil
      exact ⟨fun _ => ⟨s, rfl, by rw [h.pending]; rfl⟩, fun _ _ => Fits.done p⟩
  | succ fuel ih =>
      cases left with
      | nil => exact ⟨fun _ => ⟨s, rfl, by rw [h.pending]; rfl⟩, fun _ _ => Fits.done p⟩
      | cons x left =>
          have hround := h.writeRound length hzero
          have hpos : 0 < DMesgStream.lengthWritten length p.length :=
            lengthWritten_pos (by rw [List.length_cons] at hleft; omega) h.room
          -- what a round leaves is shorter
          have hdrop : ∀ n, 0 < n → ((x :: left).drop n).length ≤ fuel := by
            intro n hn
            rw [List.length_drop]
            omega
          have hdroplen : ∀ n, ((x :: left).drop n).length ≤ length := by
            intro n
            rw [List.length_drop]
            omega
          have hdropzero : ∀ n, 0 ∉ (x :: left).drop n := fun n hmem => hzero (List.mem_of_mem_drop hmem)
          generalize hnw : DMesgStream.lengthWritten length p.length = n at hround hpos
          constructor
          · intro hfits
            cases hfits with
            | round hne hfill hlines hrest =>
                rw [hnw] at hfill hlines hrest
                obtain ⟨s', hs', hcut⟩ := hround.1 hfill hlines
                have hnext := h.next hzero hcut
                obtain ⟨last, hlast, hcutlast⟩ :=
                  (ih hnext (hdropzero n) (hdroplen n) (hdrop n hpos)).1 hrest
                refine ⟨last, ?_, ?_⟩
                · unfold DMesgStream.writeLoop
                  rw [hs', Option.bind_some, hlast]
                · rw [hcutlast, ← hnext.pending, hcut]
                  have happ : cutLog (s.log, p) ((x :: left).take n ++ (x :: left).drop n)
                      = cutLog (cutLog (s.log, p) ((x :: left).take n)) ((x :: left).drop n) :=
                    cut_append _ _ _
                  rw [List.take_append_drop] at happ
                  exact happ.symm
          · intro last hlast
            unfold DMesgStream.writeLoop at hlast
            obtain ⟨r, hr, hlast⟩ := Option.bind_eq_some_iff.mp hlast
            obtain ⟨hfill, hlines⟩ := hround.2 r hr
            obtain ⟨s', hs', hcut⟩ := hround.1 hfill hlines
            rw [hr] at hs'
            cases hs'
            have hnext := h.next hzero hcut
            have hrest := (ih hnext (hdropzero n) (hdroplen n) (hdrop n hpos)).2 last hlast
            subst hnw
            exact Fits.round (List.cons_ne_nil x left) hfill hlines hrest

/-- **A write** prints and leaves what the cut says when it fits, and does not return
when it does not. -/
theorem Holds.write (h : Holds s p) {bytes : List UInt8} (hzero : 0 ∉ bytes) :
    (Fits bytes.length p bytes → ∃ s', s.write bytes = some s'
      ∧ (s'.log, s'.pending) = cutLog (s.log, p) bytes ∧ Holds s' (cutLog ([], p) bytes).2)
    ∧ (∀ s', s.write bytes = some s' → Fits bytes.length p bytes) := by
  obtain ⟨hdoes, honly⟩ := h.writeLoop hzero (Nat.le_refl _) (Nat.le_refl _)
  refine ⟨fun hfits => ?_, honly⟩
  obtain ⟨s', hs', hcut⟩ := hdoes hfits
  refine ⟨s', hs', hcut, ?_⟩
  have hnext := h.next (n := bytes.length) hzero (by rw [List.take_length]; exact hcut)
  rwa [List.take_length] at hnext

end Writes

/-! ## §6. Sequences of writes. -/

/-- **What a sequence of writes should do**: it returns, the position stays in the
buffer, and what was printed and what is pending are the bytes written, cut. -/
def Logs (s : DMesgStream) (writes : List (List UInt8)) : Prop :=
  ∃ s', writes.foldlM DMesgStream.write s = some s' ∧ s'.bufferPos < bufferSize
    ∧ (s'.log, s'.pending) = cutLog (s.log, s.pending) writes.flatten

theorem Holds.logs_iff {s : DMesgStream} {p : List UInt8} (h : Holds s p) {writes : List (List UInt8)}
    (hzero : ∀ bytes ∈ writes, 0 ∉ bytes) : Logs s writes ↔ AllFit p writes := by
  induction writes generalizing s p with
  | nil =>
      refine ⟨fun _ => trivial, fun _ => ⟨s, rfl, ?_, rfl⟩⟩
      have hroom := h.room
      rw [h.bufferPos]
      omega
  | cons bytes writes ih =>
      have hrest : ∀ b ∈ writes, 0 ∉ b := fun b hb => hzero b (List.mem_cons_of_mem bytes hb)
      obtain ⟨hdoes, honly⟩ := h.write (hzero bytes List.mem_cons_self)
      -- the first write, and the others after it
      have hsplit : ∀ {m : DMesgStream}, s.write bytes = some m →
          (m.log, m.pending) = cutLog (s.log, p) bytes → (Logs s (bytes :: writes) ↔ Logs m writes) := by
        intro m hm hcut
        unfold Logs
        rw [List.foldlM_cons, hm, List.flatten_cons, h.pending]
        show (∃ s', writes.foldlM DMesgStream.write m = some s' ∧ _) ↔ _
        rw [show cutLog (s.log, p) (bytes ++ writes.flatten) = cutLog (cutLog (s.log, p) bytes) writes.flatten
          from cut_append _ _ _, hcut]
      show _ ↔ Fits bytes.length p bytes ∧ AllFit (cutLog ([], p) bytes).2 writes
      constructor
      · intro hlogs
        have hfits : Fits bytes.length p bytes := by
          obtain ⟨s', hs', _⟩ := hlogs
          rw [List.foldlM_cons] at hs'
          obtain ⟨m, hm, _⟩ := Option.bind_eq_some_iff.mp hs'
          exact honly m hm
        obtain ⟨m, hm, hcut, hnext⟩ := hdoes hfits
        exact ⟨hfits, (ih hnext hrest).mp ((hsplit hm hcut).mp hlogs)⟩
      · intro ⟨hfits, hall⟩
        obtain ⟨m, hm, hcut, hnext⟩ := hdoes hfits
        exact (hsplit hm hcut).mpr ((ih hnext hrest).mpr hall)

/-- **The log stream cuts what is written to it** exactly when every round of every
write has the bytes it fills in and leaves no old newline behind its rest. -/
theorem dmesg_write_cuts_iff (buffer : Nat → UInt8) {writes : List (List UInt8)}
    (hzero : ∀ bytes ∈ writes, 0 ∉ bytes) : Logs (DMesgStream.new buffer) writes ↔ AllFit [] writes :=
  Holds.logs_iff (p := []) ⟨rfl, by decide, List.not_mem_nil, List.not_mem_nil⟩ hzero

/-- A line in two writes. -/
def helloWrites : List (List UInt8) := [[104, 105, 10, 119], [111, 10]]

theorem dmesg_write_cuts_iff_hello : Logs (DMesgStream.new fun _ => 0) helloWrites := by
  refine (dmesg_write_cuts_iff _ (by decide)).mpr ?_
  refine ⟨.round (by decide) (by decide) ?_ (.done _), .round (by decide) (by decide) ?_ (.done _), trivial⟩
  · exact ⟨trivial, fun _ _ => by decide⟩
  · exact ⟨trivial, fun _ _ => by decide⟩

/-- `"ab\nc\nef"`: after the second line the rest `"ef"` is followed by an old newline. -/
theorem old_newline_found :
    ¬ ∀ (buffer : Nat → UInt8) (writes : List (List UInt8)),
      (∀ bytes ∈ writes, 0 ∉ bytes) → Logs (DMesgStream.new buffer) writes := by
  intro hall
  obtain ⟨s, hs, _⟩ := hall (fun _ => 0) [[97, 98, 10, 99, 10, 101, 102]] (by decide)
  have hnone : DMesgStream.write (DMesgStream.new fun _ => 0) [97, 98, 10, 99, 10, 101, 102] = none := rfl
  rw [List.foldlM_cons, hnone] at hs
  cases hs

end MierOS.Streams.DMesg
