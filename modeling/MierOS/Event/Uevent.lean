/-
  MierOS.Event.Uevent
  **`parse_uevent` and `UEvent::get_arg`** of `uevent.cpp`.

  The text is copied and cut in place: a line ends where its newline is overwritten
  with a NUL, a key where its `=` is.  Every later search runs over the same buffer,
  and every string found so far ends in front of the place it runs from.

  Main results: `textLines`, `eventName`, `eventArgs`, `parseRound_line`,
  `getArg_returns`, `uevent_parsing`.
-/
import MierOS.Lib.Loop
import MierOS.Streams.DMesg
import Mathlib.Data.List.Forall2
import Mathlib.Data.Option.Basic

namespace MierOS.Event.Uevent

open Lib Lib.Cut
open Streams.DMesg (newline TextFrom strchrFrom strchrFrom_found strchrFrom_absent)
open Function (update update_of_ne)

/-! ## §1. The code. -/

abbrev Str := List UInt8

/-- `'='`. -/
def equals : UInt8 := 61

/-- A `UEventArg`: indices into the event's buffer. -/
structure UEventArg where
  name : Nat
  value : Nat
  deriving Repr, DecidableEq

/-- A `UEvent`; no event name is a null pointer. `argc` is the length of `argv`: `List::size()`
is an `unsigned int`, but the nodes of `2 ^ 32` arguments would not fit into the kernel heap. -/
structure UEvent where
  buffer : Nat → UInt8
  eventName : Option Nat
  argv : List UEventArg

/-- The variables of `parse_uevent`. -/
structure Parser where
  dataCopy : Nat → UInt8
  eventName : Option Nat
  eventArgs : List (Nat × Nat)
  offset : Nat

/-- The copy of the text with its terminator; `fresh` is what the memory held. -/
def copied (fresh : Nat → UInt8) (data : Str) : Nat → UInt8 := fun i =>
  if i < data.length then data.getD i 0 else if i = data.length then 0 else fresh i

namespace Parser

/-- The variables in front of the loop. -/
def start (fresh : Nat → UInt8) (data : Str) : Parser := ⟨copied fresh data, none, [], 0⟩

/-- A line that ends at its NUL, with the `=` found in it. -/
def line (s : Parser) (valueSeparator : Option Nat) : Parser :=
  if s.offset = 0 ∧ valueSeparator = none then
    -- only the first line can be an event name
    { s with eventName := some 0 }
  else if s.dataCopy s.offset ≠ 0 then
    match valueSeparator with
    | some valueSeparator =>
        { s with
          dataCopy := update s.dataCopy valueSeparator 0,
          eventArgs := s.eventArgs ++ [(s.offset, valueSeparator + 1)] }
    | none => s
  else s

/-- The event that is returned. -/
def event (s : Parser) : UEvent :=
  ⟨s.dataCopy, s.eventName, s.eventArgs.map fun entry => ⟨entry.1, entry.2⟩⟩

/-- A round of `while(offset < length)`; `none` is a search that runs out of the
`length + 1` bytes of the copy. -/
def parseRound (length : Nat) (s : Parser) : Parser ⊕ Option UEvent :=
  if s.offset < length then
    match strchrFrom s.dataCopy newline (length + 1 - s.offset) s.offset with
    | none => .inr none
    | some found =>
        let nextSeparator := found.getD length
        let s' := { s with dataCopy := update s.dataCopy nextSeparator 0 }
        match strchrFrom s'.dataCopy equals (length + 1 - s.offset) s.offset with
        | none => .inr none
        | some valueSeparator =>
            .inl { s'.line valueSeparator with offset := nextSeparator + 1 }
  else .inr (some s.event)

end Parser

/-- A round of `strcmp`; `char` is signed. -/
def strcmpRound (a b : Nat → UInt8) (p : Nat × Nat) : (Nat × Nat) ⊕ Int :=
  if a p.1 = b p.2 ∧ a p.1 ≠ 0 ∧ b p.2 ≠ 0 then .inl (p.1 + 1, p.2 + 1)
  else .inr ((a p.1).toInt8.toInt - (b p.2).toInt8.toInt)

/-- The loop of `get_arg` over the arguments left; every comparison has `fuel` rounds. -/
def getArgLoop (buffer name : Nat → UInt8) (fuel : Nat) : List UEventArg → Option (Option Nat)
  | [] => some none
  | arg :: argv =>
      (Loop.run (strcmpRound name buffer) fuel (0, arg.name)).bind fun r =>
        if r = 0 then some (some arg.value) else getArgLoop buffer name fuel argv

/-- `get_arg(name)`: the index of the value. -/
def UEvent.getArg (ev : UEvent) (fuel : Nat) (name : Nat → UInt8) : Option (Option Nat) :=
  getArgLoop ev.buffer name fuel ev.argv

/-! ## §2. What a text says. -/

/-- **The lines of a text**: what stands in front of a newline, and what follows the last
one unless that is nothing. -/
def textLines (data : Str) : List Str :=
  let pieces := data.foldl (cutSep newline) ([], [])
  pieces.1 ++ if pieces.2 = [] then [] else [pieces.2]

/-- A line split at its first `=`. -/
def keyValue (d : Str) : Option (Str × Str) :=
  if equals ∈ d then some (d.takeWhile (· ≠ equals), (d.dropWhile (· ≠ equals)).tail) else none

/-- The first line, when it has no `=`. -/
def eventName (data : Str) : Option Str :=
  (textLines data).head?.filter fun d => decide (equals ∉ d)

/-- The lines with a `=`, split. -/
def eventArgs (data : Str) : List (Str × Str) := (textLines data).filterMap keyValue

/-- `key=value`. -/
def argLine (arg : Str × Str) : Str := arg.1 ++ equals :: arg.2

/-- A name and arguments written as a text, a newline behind each. -/
def eventText (name : Str) (args : List (Str × Str)) : Str :=
  join newline (name :: args.map argLine) []

/-- The event has this name and these arguments. -/
structure UEvent.Denotes (ev : UEvent) (name : Option Str) (args : List (Str × Str)) : Prop where
  name : Option.Rel (TextFrom ev.buffer) ev.eventName name
  args : List.Forall₂ (fun arg kv => TextFrom ev.buffer arg.name kv.1 ∧
    TextFrom ev.buffer arg.value kv.2) ev.argv args

/-- The lines a text is made of. -/
inductive Lines : Str → List Str → Prop
  | nil : Lines [] []
  | last {d : Str} (hne : d ≠ []) (hd : newline ∉ d) : Lines d [d]
  | line {d rest : Str} {ds : List Str} (hd : newline ∉ d) (hrest : Lines rest ds) :
      Lines (d ++ newline :: rest) (d :: ds)

theorem lines_join {ds : List Str} {rest : Str} (hds : ∀ d ∈ ds, newline ∉ d)
    (hrest : newline ∉ rest) :
    Lines (join newline ds rest) (ds ++ if rest = [] then [] else [rest]) := by
  induction ds with
  | nil =>
      by_cases hnil : rest = []
      · subst hnil
        exact Lines.nil
      · rw [if_neg hnil]
        exact Lines.last hnil hrest
  | cons d ds ih =>
      exact Lines.line (hds d List.mem_cons_self) (ih fun e he => hds e (List.mem_cons_of_mem d he))

theorem textLines_join {ds : List Str} {rest : Str} (hds : ∀ d ∈ ds, newline ∉ d)
    (hrest : newline ∉ rest) :
    textLines (join newline ds rest) = ds ++ if rest = [] then [] else [rest] := by
  unfold textLines
  rw [foldl_cutSep [] hds hrest, List.nil_append]

/-- `textLines` takes a text apart into its lines. -/
theorem lines_textLines (data : Str) : Lines data (textLines data) := by
  obtain ⟨ds, rest, rfl, hds, hrest⟩ := exists_join newline data
  rw [textLines_join hds hrest]
  exact lines_join hds hrest

theorem keyValue_none {d : Str} (h : equals ∉ d) : keyValue d = none := if_neg h

theorem keyValue_argLine {key : Str} (value : Str) (h : equals ∉ key) :
    keyValue (argLine (key, value)) = some (key, value) := by
  have hall : ∀ c ∈ key, (decide (c ≠ equals)) = true := by
    intro c hc
    exact decide_eq_true fun heq => h (heq ▸ hc)
  unfold keyValue argLine
  rw [if_pos (List.mem_append_right _ List.mem_cons_self),
    List.takeWhile_append_of_pos hall, List.dropWhile_append_of_pos hall]
  simp

/-- A line without `=`, or the two sides of its first one. -/
theorem keyValue_cases (d : Str) :
    (equals ∉ d ∧ keyValue d = none) ∨
      ∃ key value, d = argLine (key, value) ∧ equals ∉ key ∧ keyValue d = some (key, value) := by
  by_cases h : equals ∈ d
  · obtain ⟨key, value, rfl, hkey⟩ := List.eq_append_cons_of_mem h
    exact Or.inr ⟨key, value, rfl, hkey, keyValue_argLine value hkey⟩
  · exact Or.inl ⟨h, keyValue_none h⟩

/-! ## §3. A round. -/

/-- The string `w` stands at `p`, with its terminator in front of `limit`. -/
def Before (buf : Nat → UInt8) (limit p : Nat) (w : Str) : Prop :=
  TextFrom buf p w ∧ p + w.length < limit

/-- What changes from `limit` on leaves it there. -/
theorem Before.frame {buf buf' : Nat → UInt8} {limit limit' p : Nat} {w : Str}
    (h : Before buf limit p w) (hsame : ∀ j, j < limit → buf' j = buf j) (hle : limit ≤ limit') :
    Before buf' limit' p w :=
  ⟨h.1.congr fun j _ hj => hsame j (Nat.lt_of_le_of_lt hj h.2), Nat.lt_of_lt_of_le h.2 hle⟩

/-- The name found, and the arguments. -/
def NameAt (buf : Nat → UInt8) (limit : Nat) : Option Nat → Option Str → Prop :=
  Option.Rel (Before buf limit)

def ArgsAt (buf : Nat → UInt8) (limit : Nat) : List (Nat × Nat) → List (Str × Str) → Prop :=
  List.Forall₂ fun p kv => Before buf limit p.1 kv.1 ∧ Before buf limit p.2 kv.2

section Frame

variable {buf buf' : Nat → UInt8} {limit limit' : Nat}

theorem NameAt.frame {p : Option Nat} {name : Option Str} (h : NameAt buf limit p name)
    (hsame : ∀ j, j < limit → buf' j = buf j) (hle : limit ≤ limit') :
    NameAt buf' limit' p name := by
  cases h with
  | none => exact Option.Rel.none
  | some hb => exact Option.Rel.some (hb.frame hsame hle)

theorem NameAt.text {p : Option Nat} {name : Option Str} (h : NameAt buf limit p name) :
    Option.Rel (TextFrom buf) p name := by
  cases h with
  | none => exact Option.Rel.none
  | some hb => exact Option.Rel.some hb.1

theorem ArgsAt.frame {ps : List (Nat × Nat)} {args : List (Str × Str)}
    (h : ArgsAt buf limit ps args) (hsame : ∀ j, j < limit → buf' j = buf j)
    (hle : limit ≤ limit') : ArgsAt buf' limit' ps args :=
  List.Forall₂.imp (fun _ _ hkv => ⟨hkv.1.frame hsame hle, hkv.2.frame hsame hle⟩) h

end Frame

/-- **The loop invariant**: `rest` is still to be parsed, and the strings found stand in
front of it. -/
structure Inv (length : Nat) (rest : Str) (name : Option Str) (args : List (Str × Str))
    (s : Parser) : Prop where
  rest : (rest = [] ∧ length ≤ s.offset) ∨
    (rest ≠ [] ∧ TextFrom s.dataCopy s.offset rest ∧ s.offset + rest.length = length)
  name : NameAt s.dataCopy s.offset s.eventName name
  args : ArgsAt s.dataCopy s.offset s.eventArgs args

/-- What a line adds: a name, when it is the first one and has no `=`. -/
def nameAfter (first : Bool) (name : Option Str) (d : Str) : Option Str :=
  if first = true ∧ equals ∉ d then some d else name

/-- What a line adds: an argument, when it has a `=`. -/
def argsAfter (args : List (Str × Str)) (d : Str) : List (Str × Str) := args ++ (keyValue d).toList

section Rounds

variable {length : Nat} {d rest : Str} {name : Option Str} {args : List (Str × Str)} {s : Parser}

/-- What a round does to the variables with a line that ends at its NUL. -/
def Line (buf : Nat → UInt8) (o n : Nat) (p : Option Nat) (ps : List (Nat × Nat)) (d : Str)
    (name : Option Str) (args : List (Str × Str)) : Prop :=
  ∃ valueSeparator, strchrFrom buf equals n o = some valueSeparator ∧
    ∃ buf' p' ps', (⟨buf, p, ps, o⟩ : Parser).line valueSeparator = ⟨buf', p', ps', o⟩
      ∧ NameAt buf' (o + d.length + 1) p' name
      ∧ ArgsAt buf' (o + d.length + 1) ps' args
      ∧ ∀ j, o + d.length < j → buf' j = buf j

/-- A line without a `=` is the name if it is the first one. -/
theorem line_plain {buf : Nat → UInt8} {o n : Nat} {p : Option Nat} {ps : List (Nat × Nat)}
    (hd : TextFrom buf o d) (hn : d.length < n) (hname : NameAt buf o p name)
    (hargs : ArgsAt buf o ps args) (hnone : equals ∉ d) :
    Line buf o n p ps d (if o = 0 then some d else name) args := by
  have hle : o ≤ o + d.length + 1 := by omega
  refine ⟨none, strchrFrom_absent hd hn hnone (by decide), ?_⟩
  by_cases ho : o = 0
  · subst ho
    refine ⟨buf, some 0, ps, if_pos ⟨rfl, rfl⟩, ?_, hargs.frame (fun _ _ => rfl) hle,
      fun _ _ => rfl⟩
    rw [if_pos rfl]
    exact Option.Rel.some ⟨hd, by omega⟩
  · refine ⟨buf, p, ps, ?_, ?_, hargs.frame (fun _ _ => rfl) hle, fun _ _ => rfl⟩
    · show (if o = 0 ∧ none = none then _ else if buf o ≠ 0 then _ else _) = _
      rw [if_neg (fun h => ho h.1)]
      exact ite_self _
    · rw [if_neg ho]
      exact hname.frame (fun _ _ => rfl) hle

/-- A line with a `=` is not empty. -/
theorem argLine_first {buf : Nat → UInt8} {o : Nat} {key value : Str}
    (hd : TextFrom buf o (argLine (key, value))) : buf o ≠ 0 := by
  intro hzero
  have hhead := hd.2 0 (Nat.zero_le _)
  rw [Nat.add_zero, hzero] at hhead
  cases key with
  | nil => exact absurd (show (0 : UInt8) = equals from hhead) (by decide)
  | cons c key =>
      refine hd.1 ?_
      rw [show (0 : UInt8) = c from hhead]
      exact List.mem_cons_self

/-- A line with a `=` is an argument: its key ends where the `=` was. -/
theorem line_arg {buf : Nat → UInt8} {o n : Nat} {p : Option Nat} {ps : List (Nat × Nat)}
    {key value : Str} (hd : TextFrom buf o (argLine (key, value)))
    (hn : (argLine (key, value)).length < n) (hname : NameAt buf o p name)
    (hargs : ArgsAt buf o ps args) (hkey : equals ∉ key) :
    Line buf o n p ps (argLine (key, value)) name (args ++ [(key, value)]) := by
  have hlen : (argLine (key, value)).length = key.length + (value.length + 1) := by
    simp [argLine]
  have hle : o ≤ o + (argLine (key, value)).length + 1 := by omega
  have hkeyText : TextFrom (update buf (o + key.length) 0) o key := TextFrom.cut hd
  have hvalue : TextFrom buf (o + key.length + 1) value := (TextFrom.drop hd).cons.2.2
  have hvalueText : TextFrom (update buf (o + key.length) 0) (o + key.length + 1) value :=
    hvalue.congr fun j hj _ => update_of_ne (by omega) _ _
  have hsame : ∀ j, j < o → update buf (o + key.length) 0 j = buf j :=
    fun j hj => update_of_ne (by omega) _ _
  refine ⟨some (o + key.length), strchrFrom_found hd (by omega) hkey,
    update buf (o + key.length) 0, p, ps ++ [(o, o + key.length + 1)], ?_,
    hname.frame hsame hle, ?_, ?_⟩
  · show (if o = 0 ∧ some (o + key.length) = none then _ else if buf o ≠ 0 then _ else _) = _
    rw [if_neg (fun h => (nomatch h.2)), if_pos (argLine_first hd)]
  · refine List.rel_append (hargs.frame hsame hle)
      (List.Forall₂.cons ⟨⟨hkeyText, ?_⟩, hvalueText, ?_⟩ List.Forall₂.nil)
    · show o + key.length < _
      omega
    · show o + key.length + 1 + value.length < _
      omega
  · intro j hj
    exact update_of_ne (by omega) _ _

/-- **What a line does to the variables** once it ends at its NUL. -/
theorem line_spec {buf : Nat → UInt8} {o n : Nat} {p : Option Nat} {ps : List (Nat × Nat)}
    (hd : TextFrom buf o d) (hn : d.length < n) (hname : NameAt buf o p name)
    (hargs : ArgsAt buf o ps args) :
    Line buf o n p ps d (nameAfter (decide (o = 0)) name d) (argsAfter args d) := by
  unfold nameAfter argsAfter
  rcases keyValue_cases d with ⟨hnone, hkv⟩ | ⟨key, value, hdkv, hkey, hkv⟩
  · rw [hkv, Option.toList_none, List.append_nil]
    simpa [hnone] using line_plain hd hn hname hargs hnone
  · rw [hkv]
    subst hdkv
    rw [if_neg (fun h => h.2 (List.mem_append_right _ List.mem_cons_self))]
    exact line_arg hd hn hname hargs hkey

/-- The text of a line, from where it starts: it ends at its newline, or with the text. -/
theorem line_cut {buf : Nat → UInt8} {o : Nat} {text : Str} (hall : TextFrom buf o text)
    (hlength : o + text.length = length) (hd : newline ∉ d)
    (htext : text = d ++ newline :: rest ∨ text = d ∧ d ≠ [] ∧ rest = []) :
    (∃ found, strchrFrom buf newline (length + 1 - o) o = some found
        ∧ found.getD length = o + d.length)
      ∧ TextFrom (update buf (o + d.length) 0) o d := by
  rcases htext with rfl | ⟨rfl, _, _⟩
  · rw [List.length_append] at hlength
    exact ⟨⟨_, strchrFrom_found hall (by omega) hd, rfl⟩, TextFrom.cut hall⟩
  · refine ⟨⟨none, strchrFrom_absent hall (by omega) hd (by decide), hlength.symm⟩, ?_⟩
    rw [← List.append_nil text] at hall
    exact TextFrom.cut hall

/-- **A round takes one line off.** -/
theorem parseRound_line {text : Str} (h : Inv length text name args s)
    (htext : text = d ++ newline :: rest ∨ text = d ∧ d ≠ [] ∧ rest = []) (hd : newline ∉ d) :
    ∃ s', s.parseRound length = .inl s' ∧ s'.offset = s.offset + d.length + 1
      ∧ Inv length rest (nameAfter (decide (s.offset = 0)) name d) (argsAfter args d) s' := by
  have hne : text ≠ [] := by
    rcases htext with rfl | ⟨rfl, hne, _⟩
    · simp
    · exact hne
  obtain ⟨hall, hlength⟩ : TextFrom s.dataCopy s.offset text ∧ s.offset + text.length = length := by
    rcases h.rest with ⟨hnil, _⟩ | ⟨_, hrest⟩
    · exact absurd hnil hne
    · exact hrest
  have hdlen : d.length ≤ text.length := by
    rcases htext with rfl | ⟨rfl, _⟩
    · simp
    · exact Nat.le_refl _
  have hpos : 0 < text.length := List.length_pos_iff.mpr hne
  obtain ⟨⟨found, hfound, hsep⟩, hline⟩ := line_cut hall hlength hd htext
  have hsame : ∀ j, j < s.offset →
      update s.dataCopy (s.offset + d.length) 0 j = s.dataCopy j :=
    fun j hj => update_of_ne (by omega) _ _
  obtain ⟨valueSeparator, hvalue, buf', p', ps', hstep, hname, hargs, hrest⟩ :=
    line_spec (n := length + 1 - s.offset) hline (by omega)
      (h.name.frame hsame (Nat.le_refl _)) (h.args.frame hsame (Nat.le_refl _))
  refine ⟨⟨buf', p', ps', s.offset + d.length + 1⟩, ?_, rfl, ?_, hname, hargs⟩
  · unfold Parser.parseRound
    rw [if_pos (by omega), hfound]
    dsimp only
    rw [hsep, hvalue]
    dsimp only
    rw [hstep]
  · rcases htext with rfl | ⟨rfl, _, rfl⟩
    · rw [List.length_append, List.length_cons] at hlength
      by_cases hnil : rest = []
      · subst hnil
        exact Or.inl ⟨rfl, by show length ≤ s.offset + d.length + 1; simp at hlength; omega⟩
      · refine Or.inr ⟨hnil, ?_, by show s.offset + d.length + 1 + rest.length = length; omega⟩
        -- neither of the two NULs is behind the line
        refine (TextFrom.drop hall).cons.2.2.congr fun j hj _ => ?_
        show buf' j = s.dataCopy j
        rw [hrest j (by omega)]
        exact update_of_ne (by omega) _ _
    · exact Or.inl ⟨rfl, by show length ≤ s.offset + text.length + 1; omega⟩

end Rounds

/-! ## §4. The whole text. -/

section Text

variable {length : Nat} {name : Option Str} {args : List (Str × Str)} {s : Parser}

/-- Behind the text the loop ends, with the event. -/
theorem parse_end (h : Inv length [] name args s) :
    Loop.Returns (Parser.parseRound length) s (some s.event) ∧ s.event.Denotes name args := by
  have hend : length ≤ s.offset := by
    rcases h.rest with ⟨_, hle⟩ | ⟨hne, _⟩
    · exact hle
    · exact absurd rfl hne
  refine ⟨Loop.Returns.inr ?_, h.name.text, ?_⟩
  · unfold Parser.parseRound
    rw [if_neg (Nat.not_lt.mpr hend)]
  · show List.Forall₂ _ (s.eventArgs.map fun entry => (⟨entry.1, entry.2⟩ : UEventArg)) args
    rw [List.forall₂_map_left_iff]
    exact List.Forall₂.imp (fun _ _ hkv => ⟨hkv.1.1, hkv.2.1⟩) h.args

theorem argsAfter_append (args : List (Str × Str)) (d : Str) (ds : List Str) :
    argsAfter args d ++ ds.filterMap keyValue = args ++ (d :: ds).filterMap keyValue := by
  unfold argsAfter
  rw [List.append_assoc, List.filterMap_eq_flatMap_toList, List.filterMap_eq_flatMap_toList,
    List.flatMap_cons]

/-- The lines behind the first one: arguments only. -/
theorem parse_lines {rest : Str} {ds : List Str} (hlines : Lines rest ds)
    (hpos : 0 < s.offset) (h : Inv length rest name args s) :
    ∃ ev, Loop.Returns (Parser.parseRound length) s (some ev)
      ∧ ev.Denotes name (args ++ ds.filterMap keyValue) := by
  induction hlines generalizing name args s with
  | nil =>
      rw [List.filterMap_nil, List.append_nil]
      exact ⟨s.event, parse_end h⟩
  | @last d hne hd =>
      obtain ⟨s', hround, hoffset, h'⟩ := parseRound_line h (Or.inr ⟨rfl, hne, rfl⟩) hd
      obtain ⟨hreturns, hdenotes⟩ := parse_end h'
      rw [decide_eq_false (Nat.ne_of_gt hpos)] at hdenotes
      refine ⟨s'.event, hreturns.inl hround, ?_⟩
      rw [← argsAfter_append, List.filterMap_nil, List.append_nil]
      exact hdenotes
  | @line d rest ds hd hrest ih =>
      obtain ⟨s', hround, hoffset, h'⟩ := parseRound_line h (Or.inl rfl) hd
      rw [decide_eq_false (Nat.ne_of_gt hpos)] at h'
      obtain ⟨ev, hreturns, hdenotes⟩ := ih (by omega) h'
      refine ⟨ev, hreturns.inl hround, ?_⟩
      rw [← argsAfter_append]
      exact hdenotes

/-- What the first line is good for. -/
theorem nameAfter_first (d : Str) (ds : List Str) :
    nameAfter true none d = (d :: ds).head?.filter fun d => decide (equals ∉ d) := by
  unfold nameAfter
  by_cases h : equals ∈ d <;> simp [Option.filter, h]

theorem inv_start (fresh : Nat → UInt8) {data : Str} (hdata : 0 ∉ data) :
    Inv data.length data none [] (Parser.start fresh data) := by
  refine ⟨?_, Option.Rel.none, List.Forall₂.nil⟩
  by_cases hnil : data = []
  · subst hnil
    exact Or.inl ⟨rfl, Nat.le_refl _⟩
  · refine Or.inr ⟨hnil, ⟨hdata, fun j hj => ?_⟩, Nat.zero_add _⟩
    show copied fresh data (0 + j) = _
    rw [Nat.zero_add]
    unfold copied
    by_cases hlt : j < data.length
    · rw [if_pos hlt]
    · rw [if_neg hlt, if_pos (by omega), List.getD_eq_default data 0 (by omega)]

/-- **`parse_uevent` finds what the text says.** -/
theorem parse_text (fresh : Nat → UInt8) {data : Str} (hdata : 0 ∉ data) :
    ∃ ev, Loop.Returns (Parser.parseRound data.length) (Parser.start fresh data) (some ev)
      ∧ ev.Denotes (eventName data) (eventArgs data) := by
  have hstart := inv_start fresh hdata
  have hlines := lines_textLines data
  unfold eventName eventArgs
  cases hds : textLines data with
  | nil =>
      rw [hds] at hlines
      cases hlines
      exact ⟨_, parse_end hstart⟩
  | cons d ds =>
      rw [hds] at hlines
      rw [← nameAfter_first, ← List.nil_append ((d :: ds).filterMap keyValue), ← argsAfter_append]
      cases hlines with
      | last hne hd =>
          obtain ⟨s', hround, _, h'⟩ := parseRound_line hstart (Or.inr ⟨rfl, hne, rfl⟩) hd
          obtain ⟨hreturns, hdenotes⟩ := parse_end h'
          refine ⟨s'.event, hreturns.inl hround, ?_⟩
          rw [List.filterMap_nil, List.append_nil]
          exact hdenotes
      | line hd hrest =>
          obtain ⟨s', hround, hoffset, h'⟩ := parseRound_line hstart (Or.inl rfl) hd
          obtain ⟨ev, hreturns, hdenotes⟩ := parse_lines hrest (by omega) h'
          exact ⟨ev, hreturns.inl hround, hdenotes⟩

end Text

/-! ## §5. `get_arg`. -/

/-- A difference of two characters is 0 for equal ones only. -/
theorem char_sub_eq_zero (x y : UInt8) : x.toInt8.toInt - y.toInt8.toInt = 0 ↔ x = y := by
  rw [Int.sub_eq_zero, Int8.toInt_inj]
  exact ⟨fun h => by simpa using congrArg Int8.toUInt8 h, congrArg _⟩

/-- `strcmp` ends, with 0 for equal strings only. -/
theorem strcmp_returns {a b : Nat → UInt8} {i j : Nat} {u v : Str} (hu : TextFrom a i u)
    (hv : TextFrom b j v) :
    ∃ r, Loop.Returns (strcmpRound a b) (i, j) r ∧ (r = 0 ↔ u = v) := by
  -- the loop leaves where the characters differ or one string ends
  have hleave : ∀ {i j : Nat} {u v : Str}, ¬ (a i = b j ∧ a i ≠ 0 ∧ b j ≠ 0) → (a i = b j ↔ u = v) →
      ∃ r, Loop.Returns (strcmpRound a b) (i, j) r ∧ (r = 0 ↔ u = v) := by
    intro i j u v hstop hiff
    refine ⟨_, Loop.Returns.inr (if_neg hstop), ?_⟩
    rw [char_sub_eq_zero]
    exact hiff
  induction u generalizing i j v with
  | nil =>
      have ha : a i = 0 := hu.nil
      refine hleave (fun h => h.2.1 ha) ?_
      cases v with
      | nil => exact iff_of_true (ha.trans hv.nil.symm) rfl
      | cons y v =>
          obtain ⟨hb, hy, _⟩ := hv.cons
          exact iff_of_false (fun h => hy (hb.symm.trans (h.symm.trans ha))) (by simp)
  | cons x u ih =>
      obtain ⟨ha, hx, hu'⟩ := hu.cons
      cases v with
      | nil =>
          have hb : b j = 0 := hv.nil
          exact hleave (fun h => h.2.2 hb)
            (iff_of_false (fun h => hx (ha.symm.trans (h.trans hb))) (by simp))
      | cons y v =>
          obtain ⟨hb, hy, hv'⟩ := hv.cons
          by_cases hxy : x = y
          · subst hxy
            obtain ⟨r, hr, hiff⟩ := ih hu' hv'
            refine ⟨r, hr.inl (if_pos ⟨ha.trans hb.symm, ?_, ?_⟩), hiff.trans (by simp)⟩
            · exact fun h => hx (ha.symm.trans h)
            · exact fun h => hy (hb.symm.trans h)
          · have hne : a i ≠ b j := fun h => hxy (ha.symm.trans (h.trans hb))
            exact hleave (fun h => hne h.1) (iff_of_false hne (by simp [hxy]))

theorem getArgLoop_returns {buffer name : Nat → UInt8} {k : Str} (hname : TextFrom name 0 k)
    {argv : List UEventArg} {args : List (Str × Str)}
    (h : List.Forall₂ (fun arg kv => TextFrom buffer arg.name kv.1 ∧
      TextFrom buffer arg.value kv.2) argv args) :
    ∃ r, (∃ n, ∀ fuel, n ≤ fuel → getArgLoop buffer name fuel argv = some r) ∧
      Option.Rel (TextFrom buffer) r (args.lookup k) := by
  induction h with
  | nil => exact ⟨none, ⟨0, fun _ _ => rfl⟩, Option.Rel.none⟩
  | @cons arg kv argv args hkv _ ih =>
      obtain ⟨c, ⟨m, hm⟩, hc⟩ := strcmp_returns hname hkv.1
      have hstep : ∀ fuel, m ≤ fuel → getArgLoop buffer name fuel (arg :: argv)
          = if c = 0 then some (some arg.value) else getArgLoop buffer name fuel argv := by
        intro fuel hle
        show (Loop.run (strcmpRound name buffer) fuel (0, arg.name)).bind _ = _
        rw [Loop.run_mono hle hm]
        rfl
      by_cases hk : k = kv.1
      · refine ⟨some arg.value, ⟨m, fun fuel hle => ?_⟩, ?_⟩
        · rw [hstep fuel hle, if_pos (hc.mpr hk)]
        · have hbeq : (k == kv.1) = true := by simpa using hk
          rw [List.lookup_cons, hbeq]
          exact Option.Rel.some hkv.2
      · obtain ⟨r, ⟨n, hn⟩, hr⟩ := ih
        refine ⟨r, ⟨max m n, fun fuel hle => ?_⟩, ?_⟩
        · rw [hstep fuel (Nat.le_trans (Nat.le_max_left m n) hle), if_neg (fun h => hk (hc.mp h))]
          exact hn fuel (Nat.le_trans (Nat.le_max_right m n) hle)
        · have hbeq : (k == kv.1) = false := by simpa using hk
          rw [List.lookup_cons, hbeq]
          exact hr

/-- **`get_arg`** answers with the value of the first argument of the name. -/
theorem getArg_returns {ev : UEvent} {eventName : Option Str} {args : List (Str × Str)}
    (h : ev.Denotes eventName args) {name : Nat → UInt8} {k : Str} (hname : TextFrom name 0 k) :
    ∃ r, (∃ n, ∀ fuel, n ≤ fuel → ev.getArg fuel name = some r) ∧
      Option.Rel (TextFrom ev.buffer) r (args.lookup k) :=
  getArgLoop_returns hname h.args

/-! ## §6. Parsing. -/

theorem newline_notMem_argLine {arg : Str × Str} (hkey : newline ∉ arg.1) (hvalue : newline ∉ arg.2) :
    newline ∉ argLine arg := by
  unfold argLine
  rw [List.mem_append, List.mem_cons]
  rintro (hmem | heq | hmem)
  · exact hkey hmem
  · exact absurd heq (by decide)
  · exact hvalue hmem

theorem zero_notMem_join {ds : List Str} {rest : Str} (hds : ∀ d ∈ ds, 0 ∉ d) (hrest : 0 ∉ rest) :
    0 ∉ join newline ds rest := by
  induction ds with
  | nil => exact hrest
  | cons d ds ih =>
      show 0 ∉ d ++ newline :: join newline ds rest
      rw [List.mem_append, List.mem_cons]
      rintro (hmem | heq | hmem)
      · exact hds d List.mem_cons_self hmem
      · exact absurd heq (by decide)
      · exact ih (fun e he => hds e (List.mem_cons_of_mem d he)) hmem

/-- Without its final newline a text ends in its last line. -/
theorem dropLast_join (ds : List Str) (d : Str) :
    (join newline (ds ++ [d]) []).dropLast = join newline ds d := by
  have happend : join newline (ds ++ [d]) [] = join newline ds d ++ [newline] := by
    induction ds with
    | nil => rfl
    | cons e ds ih =>
        show e ++ newline :: join newline (ds ++ [d]) [] = (e ++ newline :: join newline ds d) ++ _
        rw [ih, List.append_assoc, List.cons_append]
  rw [happend, List.dropLast_concat]

/-- Names and arguments that a text can be made of. -/
structure Writable (name : Str) (args : List (Str × Str)) : Prop where
  name_ne : name ≠ []
  name_equals : equals ∉ name
  name_newline : newline ∉ name
  name_noNul : 0 ∉ name
  key_equals : ∀ arg ∈ args, equals ∉ arg.1
  arg_newline : ∀ arg ∈ args, newline ∉ arg.1 ∧ newline ∉ arg.2
  arg_noNul : ∀ arg ∈ args, 0 ∉ arg.1 ∧ 0 ∉ arg.2

section Written

variable {name : Str} {args : List (Str × Str)}

/-- The lines of a text that was written, which are not empty. -/
theorem Writable.lines (h : Writable name args) :
    ∀ d ∈ name :: args.map argLine, newline ∉ d ∧ 0 ∉ d ∧ d ≠ [] := by
  intro d hd
  rcases List.mem_cons.mp hd with rfl | hd
  · exact ⟨h.name_newline, h.name_noNul, h.name_ne⟩
  · obtain ⟨arg, harg, rfl⟩ := List.mem_map.mp hd
    refine ⟨newline_notMem_argLine (h.arg_newline arg harg).1 (h.arg_newline arg harg).2, ?_, ?_⟩
    · have hnul := h.arg_noNul arg harg
      simp [argLine, hnul.1, hnul.2, equals]
    · simp [argLine]

theorem Writable.filterMap_keyValue (h : Writable name args) :
    (name :: args.map argLine).filterMap keyValue = args := by
  rw [List.filterMap_cons_none (keyValue_none h.name_equals), List.filterMap_map]
  have hall : ∀ arg ∈ args, (keyValue ∘ argLine) arg = some arg :=
    fun arg harg => keyValue_argLine arg.2 (h.key_equals arg harg)
  rw [List.filterMap_congr hall, List.filterMap_some]

/-- **What was written is read**: any text with these lines has the name and the
arguments. -/
theorem Writable.read (h : Writable name args) {data : Str}
    (hdata : textLines data = name :: args.map argLine) :
    eventName data = some name ∧ eventArgs data = args := by
  unfold eventName eventArgs
  rw [hdata]
  refine ⟨?_, h.filterMap_keyValue⟩
  simp [Option.filter, h.name_equals]

/-- The lines of the text, with its final newline and without it. -/
theorem Writable.textLines_eq (h : Writable name args) :
    (0 ∉ eventText name args ∧ textLines (eventText name args) = name :: args.map argLine)
      ∧ 0 ∉ (eventText name args).dropLast
        ∧ textLines (eventText name args).dropLast = name :: args.map argLine := by
  have hlines := h.lines
  obtain ⟨ds, d, hds⟩ : ∃ ds d, name :: args.map argLine = ds ++ [d] :=
    ⟨_, _, (List.dropLast_concat_getLast (List.cons_ne_nil name _)).symm⟩
  unfold eventText
  rw [hds] at hlines ⊢
  have hmem : ∀ e ∈ ds, e ∈ ds ++ [d] := fun e he => List.mem_append_left [d] he
  obtain ⟨hnewline, hnul, hne⟩ := hlines d (by simp)
  rw [dropLast_join]
  refine ⟨⟨zero_notMem_join (fun e he => (hlines e he).2.1) List.not_mem_nil, ?_⟩,
    zero_notMem_join (fun e he => (hlines e (hmem e he)).2.1) hnul, ?_⟩
  · rw [textLines_join (fun e he => (hlines e he).1) List.not_mem_nil, if_pos rfl, List.append_nil]
  · rw [textLines_join (fun e he => (hlines e (hmem e he)).1) hnewline, if_neg hne]

end Written

/-- **`uevent` parsing.**  For every NUL-free text and whatever the memory of the copy
held, `parse_uevent` ends with the event the lines of the text describe, and `get_arg` of
any name ends with the value of the first argument of that name, or with null if there is
none.  A text written from a name and arguments, with or without its final newline, is
parsed to these. -/
theorem uevent_parsing (fresh : Nat → UInt8) :
    (∀ data : Str, 0 ∉ data →
      ∃ ev, Loop.Returns (Parser.parseRound data.length) (Parser.start fresh data) (some ev)
        ∧ ev.Denotes (eventName data) (eventArgs data)
        ∧ ∀ (name : Nat → UInt8) (k : Str), TextFrom name 0 k →
            ∃ r, (∃ n, ∀ fuel, n ≤ fuel → ev.getArg fuel name = some r)
              ∧ Option.Rel (TextFrom ev.buffer) r ((eventArgs data).lookup k))
      ∧ ∀ (name : Str) (args : List (Str × Str)), Writable name args →
          ∀ data, data = eventText name args ∨ data = (eventText name args).dropLast →
            ∃ ev, Loop.Returns (Parser.parseRound data.length) (Parser.start fresh data) (some ev)
              ∧ ev.Denotes (some name) args := by
  constructor
  · intro data hdata
    obtain ⟨ev, hreturns, hdenotes⟩ := parse_text fresh hdata
    exact ⟨ev, hreturns, hdenotes, fun _ _ hname => getArg_returns hdenotes hname⟩
  · intro name args h data hdata
    obtain ⟨⟨hnul, hlines⟩, hnul', hlines'⟩ := h.textLines_eq
    have htext : 0 ∉ data ∧ textLines data = name :: args.map argLine := by
      rcases hdata with rfl | rfl
      · exact ⟨hnul, hlines⟩
      · exact ⟨hnul', hlines'⟩
    obtain ⟨hname, hargs⟩ := h.read htext.2
    obtain ⟨ev, hreturns, hdenotes⟩ := parse_text fresh htext.1
    rw [hname, hargs] at hdenotes
    exact ⟨ev, hreturns, hdenotes⟩

end MierOS.Event.Uevent
