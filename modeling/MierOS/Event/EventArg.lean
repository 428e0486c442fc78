/-
  MierOS.Event.EventArg
  **THE ARGUMENTS OF AN EVENT**: `Event::Event` encodes them into 1024 bytes
  inside the event, `get_arg` takes them out again one by one.

  A trivially copyable value and a null pointer have a fixed size, a string ends
  with its NUL.  An array of strings begins with a 16-bit count of its own bytes,
  behind which come a table of pointers and the characters.  The count is built
  with `*bytesTaken += ..` on a storage that the constructor does not clear: it
  begins with whatever was there.

  Main results: `encode_encoded`, `decode_encoded`.
-/
import MierOS.Tasking.ExecStack

namespace MierOS.EventArgs

open Lib
open Tasking.ExecStack

/-! ## §1. Encoding. -/

/-- `f_arg_storage`: 1024 bytes that do not go around the end of memory. -/
structure Storage where
  addr : Word
  fits : addr.toNat + 1024 ≤ 2 ^ 64

/-- The place at this offset of the storage. -/
def Storage.place (s : Storage) (pos : Nat) : Word := s.addr + BitVec.ofNat 64 pos

/-- The supported arguments: the bytes of a trivially copyable value, `nullptr`,
a string, a null-terminated array of strings. -/
inductive Arg where
  | value (bytes : List (BitVec 8)) (sized : 0 < bytes.length)
  | null
  | string (str : Str) (noNul : 0 ∉ str)
  | strings (strs : List Str) (noNul : ∀ str ∈ strs, 0 ∉ str)

/-- `*bytesTaken += n`, where `bytesTaken` is a `u16_t*`. -/
def addTaken (bytesTaken : Word) (mem : ByteMemory) (n : Nat) : ByteMemory :=
  Write.apply mem ⟨bytesTaken, halfBytes (readHalf mem bytesTaken + BitVec.ofNat 16 n)⟩

/-- The memory, `argPtrs` and `dataBuffer`. -/
structure Encoder where
  mem : ByteMemory
  argPtrs : Word
  dataBuffer : Word

/-- One round of `for(char** arg = value; *arg != 0; ++arg)`. -/
def Encoder.put (bytesTaken : Word) (e : Encoder) (arg : Str) : Encoder :=
  let argLen := arg.length
  let mem := Write.apply e.mem ⟨e.dataBuffer, arg ++ [0]⟩
  let mem := Write.apply mem ⟨e.argPtrs, wordBytes e.dataBuffer⟩
  { mem := addTaken bytesTaken mem (argLen + 1)
    argPtrs := e.argPtrs + 8
    dataBuffer := e.dataBuffer + BitVec.ofNat 64 (argLen + 1) }

/-- `EventArg<char**>::encode(buffer, value)`. -/
def encodeStrings (mem : ByteMemory) (buffer : Word) (value : List Str) : ByteMemory × Word :=
  let bytesTaken := buffer
  let mem := addTaken bytesTaken mem 2
  let buffer := buffer + 2
  let argCount := value.length
  let mem := addTaken bytesTaken mem (8 * (argCount + 1))
  let dataBuffer := buffer + BitVec.ofNat 64 (8 * (argCount + 1))
  let e := value.foldl (Encoder.put bytesTaken) ⟨mem, buffer, dataBuffer⟩
  let mem := Write.apply e.mem ⟨e.argPtrs, wordBytes 0⟩
  (mem, (readHalf mem bytesTaken).setWidth 64)

/-- `EventArg<Arg>().encode(buffer, arg)`: the memory, and how far `buffer` goes
on. -/
def encode (mem : ByteMemory) (buffer : Word) : Arg → ByteMemory × Word
  | .value bytes _ => (Write.apply mem ⟨buffer, bytes⟩, BitVec.ofNat 64 bytes.length)
  | .null => (Write.apply mem ⟨buffer, List.replicate 8 0⟩, 8)
  | .string str _ => (Write.apply mem ⟨buffer, str ++ [0]⟩, BitVec.ofNat 64 (str.length + 1))
  | .strings strs _ => encodeStrings mem buffer strs

/-- The bytes that `encode` writes. -/
def Arg.size : Arg → Nat
  | .value bytes _ => bytes.length
  | .null => 8
  | .string str _ => str.length + 1
  | .strings strs _ => 2 + 8 * (strs.length + 1) + stringBytes strs

/-- `encode_arg(buffer, args...)`: the memory, and where each argument was
encoded.  Behind the storage lie `f_arg_ptr` and memory of others, and the
assertion after each `encode` only logs; `none` is a write there. -/
def encodeArg (s : Storage) (mem : ByteMemory) (buffer : Word) :
    List Arg → Option (ByteMemory × List Word)
  | [] => some (mem, [])
  | arg :: targs =>
      if (buffer - s.addr).toNat + arg.size ≤ 1024 then
        let r := encode mem buffer arg
        (encodeArg s r.1 (buffer + r.2) targs).map fun t => (t.1, buffer :: t.2)
      else none

/-- The fields that the constructor sets, without the storage. -/
structure Event where
  identifier : Word
  argPtr : Word
  flags : BitVec 32
  status : Word

/-- `Event(id, args...)`. -/
def construct (s : Storage) (mem : ByteMemory) (id : Word) (args : List Arg) :
    Option (Event × ByteMemory × List Word) :=
  -- EVENT_FLAG_CLEAR
  (encodeArg s mem s.addr args).map fun r => (⟨id, s.addr, 2, 0⟩, r)

/-! ## §2. Decoding. -/

/-- The type `get_arg` is called with. -/
inductive Kind where
  | value (size : Nat)
  | null
  | string
  | strings
  deriving DecidableEq

def Arg.kind : Arg → Kind
  | .value bytes _ => .value bytes.length
  | .null => .null
  | .string _ _ => .string
  | .strings _ _ => .strings

/-- What `get_arg` returns: a copy of the value, or a pointer. -/
inductive Decoded where
  | value (bytes : List (BitVec 8))
  | null
  | string (ptr : Word)
  | strings (ptr : Word)

/-- `EventArg<T>().decode(buffer)`: the result and the new `buffer`; `none` when
`strlen` takes more than `chars` rounds. -/
def decode (mem : ByteMemory) (chars : Nat) (buffer : Word) : Kind → Option (Decoded × Word)
  | .value size => some (.value (readBytes mem buffer size), buffer + BitVec.ofNat 64 size)
  | .null => some (.null, buffer + 8)
  | .string =>
      (Loop.run (strlenRound mem buffer) chars 0).map fun len =>
        (.string buffer, buffer + BitVec.ofNat 64 (len + 1))
  | .strings => some (.strings (buffer + 2), buffer + (readHalf mem buffer).setWidth 64)

/-- `get_arg<T>()`. -/
def Event.getArg (mem : ByteMemory) (chars : Nat) (e : Event) (kind : Kind) :
    Option (Decoded × Event) :=
  (decode mem chars e.argPtr kind).map fun r => (r.1, { e with argPtr := r.2 })

/-- `reset_arg_ptr()`. -/
def Event.resetArgPtr (s : Storage) (e : Event) : Event := { e with argPtr := s.addr }

/-! ## §3. What the codec is for. -/

def encodedSize : List Arg → Nat
  | [] => 0
  | arg :: args => arg.size + encodedSize args

/-- What was decoded is the argument: the same bytes, a null pointer, the same
characters, the same strings in the same order. -/
def Denotes (mem : ByteMemory) : Decoded → Arg → Prop
  | .value bytes, .value bytes' _ => bytes = bytes'
  | .null, .null => True
  | .string ptr, .string str _ => ∃ chars, newString mem chars ptr = some str
  | .strings ptr, .strings strs _ => ∃ chars fuel, copyArray mem chars fuel ptr = some strs
  | _, _ => False

/-- `get_arg` with the kinds of these arguments in order gives them, each from
where it was encoded. -/
inductive GetArgs (mem : ByteMemory) : Event → List Arg → List Word → Event → Prop
  | nil (e : Event) : GetArgs mem e [] [] e
  | cons {e e' last : Event} {arg : Arg} {args : List Arg} {starts : List Word} {chars : Nat}
      {got : Decoded} (hget : e.getArg mem chars arg.kind = some (got, e'))
      (hgot : Denotes mem got arg) (hrest : GetArgs mem e' args starts last) :
      GetArgs mem e (arg :: args) (e.argPtr :: starts) last

/-- **The arguments come back**, and again after `reset_arg_ptr`. -/
def RoundTrips (s : Storage) (mem : ByteMemory) (id : Word) (args : List Arg) : Prop :=
  ∃ e mem' starts last last',
    construct s mem id args = some (e, mem', starts)
      ∧ GetArgs mem' e args starts last
      ∧ GetArgs mem' (last.resetArgPtr s) args starts last'

/-! ## §4. What `encode` leaves in the storage. -/

/-- The write goes to the bytes `[lo, hi)` behind `buffer`. -/
def Within (buffer : Word) (lo hi : Nat) (w : Write) : Prop :=
  ∃ offset bytes, w = ⟨buffer + BitVec.ofNat 64 offset, bytes⟩
    ∧ lo ≤ offset ∧ offset + bytes.length ≤ hi

theorem Within.covers {buffer : Word} {lo hi : Nat} {w : Write} (h : Within buffer lo hi w)
    (hhi : hi ≤ 2 ^ 64) {x : Word} (hx : w.Covers x) :
    lo ≤ (x - buffer).toNat ∧ (x - buffer).toNat < hi := by
  obtain ⟨offset, bytes, rfl, hlo, hle⟩ := h
  have hne : 0 < bytes.length := Nat.lt_of_le_of_lt (Nat.zero_le _) hx
  have hin := (covers_offset_iff hne (by omega)).mp hx
  omega

theorem Within.length_le {buffer : Word} {lo hi : Nat} {w : Write} (h : Within buffer lo hi w) :
    w.bytes.length ≤ hi := by
  obtain ⟨offset, bytes, rfl, -, hle⟩ := h
  show bytes.length ≤ hi
  omega

/-- A write behind `buffer` itself. -/
theorem within_here (buffer : Word) {bytes : List (BitVec 8)} {hi : Nat} (hle : bytes.length ≤ hi) :
    Within buffer 0 hi ⟨buffer, bytes⟩ :=
  ⟨0, bytes, congrArg (Write.mk · bytes) (BitVec.add_zero buffer).symm, Nat.le_refl 0, by omega⟩

/-- Behind the count at `buffer`. -/
abbrev Behind (buffer : Word) (w : Write) : Prop := Within buffer 2 (2 ^ 64) w

/-- These writes have been made and the count at `buffer` has grown by `n`;
nothing else has changed. -/
structure Wrote (buffer : Word) (ws : List Write) (n : Nat) (mem mem' : ByteMemory) : Prop where
  count : readHalf mem' buffer = readHalf mem buffer + BitVec.ofNat 16 n
  there : AllThere mem' ws
  frame : ∀ x, 2 ≤ (x - buffer).toNat → (∀ w ∈ ws, ¬ w.Covers x) → mem' x = mem x

/-- A half word is that of two memories that agree on its bytes. -/
theorem readHalf_congr {mem mem' : ByteMemory} {addr : Word}
    (h : ∀ x, (x - addr).toNat < 2 → mem' x = mem x) : readHalf mem' addr = readHalf mem addr := by
  apply readHalf_of_bytes
  rw [halfBytes_readHalf]
  unfold readBytes
  apply List.map_congr_left
  intro k hk
  have hlt : k < 2 := List.mem_range.mp hk
  apply h
  rw [add_sub_ofNat (by omega)]
  exact hlt

theorem wrote_addTaken (buffer : Word) (mem : ByteMemory) (n : Nat) :
    Wrote buffer [] n mem (addTaken buffer mem n) where
  count := by
    apply readHalf_of_bytes
    exact Write.there_apply (w := ⟨buffer, _⟩) (by simp) mem
  there := fun _ hw => nomatch hw
  frame := fun x hx _ => by
    apply Write.apply_of_not_covers
    show ¬ (x - buffer).toNat < 2
    omega

theorem wrote_apply {buffer : Word} {w : Write} (hw : Behind buffer w) (mem : ByteMemory) :
    Wrote buffer [w] 0 mem (w.apply mem) where
  count := by
    have hzero : readHalf mem buffer + BitVec.ofNat 16 0 = readHalf mem buffer :=
      BitVec.add_zero _
    rw [hzero]
    apply readHalf_congr
    intro x hx
    apply Write.apply_of_not_covers
    intro hcovers
    have hin := hw.covers (Nat.le_refl _) hcovers
    omega
  there := fun v hv => by
    rw [List.mem_singleton.mp hv]
    exact Write.there_apply hw.length_le mem
  frame := fun x _ hnot => Write.apply_of_not_covers (hnot w (List.mem_singleton.mpr rfl)) mem

/-- One after the other, on different bytes. -/
theorem Wrote.trans {buffer : Word} {ws ws' : List Write} {n n' : Nat}
    {mem mem' mem'' : ByteMemory} (h : Wrote buffer ws n mem mem')
    (h' : Wrote buffer ws' n' mem' mem'') (hbehind : ∀ w ∈ ws, Behind buffer w)
    (hapart : ∀ w ∈ ws, ∀ w' ∈ ws', w.Apart w') :
    Wrote buffer (ws ++ ws') (n + n') mem mem'' where
  count := by rw [h'.count, h.count, BitVec.ofNat_add, BitVec.add_assoc]
  there := fun w hw => by
    rcases List.mem_append.mp hw with hw | hw
    · -- the second part touches neither the count's bytes nor these
      refine (h.there w hw).congr (hbehind w hw).length_le fun x hx => h'.frame x ?_ ?_
      · exact ((hbehind w hw).covers (Nat.le_refl _) hx).1
      · exact fun w' hw' => hapart w hw w' hw' x hx
    · exact h'.there w hw
  frame := fun x hx hnot => by
    rw [h'.frame x hx fun w hw => hnot w (List.mem_append_right _ hw),
      h.frame x hx fun w hw => hnot w (List.mem_append_left _ hw)]

/-- The order of the writes does not matter. -/
theorem Wrote.of_mem {buffer : Word} {ws ws' : List Write} {n : Nat} {mem mem' : ByteMemory}
    (h : Wrote buffer ws n mem mem') (hws : ∀ w, w ∈ ws ↔ w ∈ ws') :
    Wrote buffer ws' n mem mem' where
  count := h.count
  there := fun w hw => h.there w ((hws w).mpr hw)
  frame := fun x hx hnot => h.frame x hx fun w hw => hnot w ((hws w).mp hw)

/-- One string: its characters, its pointer, its part of the count. -/
theorem put_wrote {buffer : Word} {e : Encoder} {arg : Str}
    (hptr : Behind buffer ⟨e.argPtrs, wordBytes e.dataBuffer⟩)
    (hdata : Behind buffer ⟨e.dataBuffer, arg ++ [0]⟩)
    (hapart : Write.Apart ⟨e.argPtrs, wordBytes e.dataBuffer⟩ ⟨e.dataBuffer, arg ++ [0]⟩) :
    Wrote buffer [⟨e.argPtrs, wordBytes e.dataBuffer⟩, ⟨e.dataBuffer, arg ++ [0]⟩]
      (arg.length + 1) e.mem (e.put buffer arg).mem := by
  have hwrites := (wrote_apply hdata e.mem).trans (wrote_apply hptr _)
    (fun w hw => by rw [List.mem_singleton.mp hw]; exact hdata)
    (fun w hw w' hw' => by
      rw [List.mem_singleton.mp hw, List.mem_singleton.mp hw']
      exact hapart.symm)
  -- the count is made last and lies apart from both
  have hcounted := hwrites.trans (wrote_addTaken buffer _ (arg.length + 1))
    (fun w hw => by
      rcases List.mem_cons.mp hw with rfl | hw
      · exact hdata
      · rw [List.mem_singleton.mp hw]
        exact hptr)
    (fun _ _ _ hw' => nomatch hw')
  rw [Nat.zero_add] at hcounted
  -- the code writes the characters first, `layout` lists the pointer first
  refine hcounted.of_mem fun w => ?_
  simp [or_comm]

/-- In front of the table entry `k`, with the next string `pos` bytes behind the
beginning of the strings. -/
def Encoder.reached (mem : ByteMemory) (stack : Word) (area k pos : Nat) : Encoder where
  mem := mem
  argPtrs := stack + BitVec.ofNat 64 (8 * k)
  dataBuffer := stack + BitVec.ofNat 64 (area + pos)

theorem put_reached (buffer stack : Word) (area k pos : Nat) (mem : ByteMemory) (str : Str) :
    (Encoder.reached mem stack area k pos).put buffer str
      = .reached ((Encoder.reached mem stack area k pos).put buffer str).mem stack area (k + 1)
          (pos + (str.length + 1)) := by
  have hdata : stack + BitVec.ofNat 64 (area + pos) + BitVec.ofNat 64 (str.length + 1)
      = stack + BitVec.ofNat 64 (area + (pos + (str.length + 1))) := by
    rw [BitVec.add_assoc, ← Nat.add_assoc, BitVec.ofNat_add (area + pos)]
  unfold Encoder.reached
  rw [← next_entry, ← hdata]
  rfl

/-- **The loop writes the table entries and the strings of `layout`**, and counts
the bytes of the strings. -/
theorem foldl_put {buffer stack : Word} {area : Nat} {strs : List Str} :
    ∀ {k pos : Nat} (mem : ByteMemory),
      (∀ w ∈ layout stack area (strs.map Entry.string) k pos, Behind buffer w) →
      (layout stack area (strs.map Entry.string) k pos).Pairwise Write.Apart →
      Wrote buffer (layout stack area (strs.map Entry.string) k pos) (stringBytes strs) mem
          (strs.foldl (Encoder.put buffer) (.reached mem stack area k pos)).mem
        ∧ (strs.foldl (Encoder.put buffer) (.reached mem stack area k pos)).argPtrs
          = stack + BitVec.ofNat 64 (8 * (k + strs.length)) := by
  induction strs with
  | nil =>
      -- no string, no byte
      intro k pos mem _ _
      refine ⟨⟨?_, (fun _ hw => nomatch hw), fun _ _ _ => rfl⟩, rfl⟩
      exact (BitVec.add_zero (readHalf mem buffer)).symm
  | cons str strs ih =>
      intro k pos mem hbehind hapart
      -- the two writes of a string, which are apart from each other and from the rest
      obtain ⟨hptrApart, hrestApart⟩ := List.pairwise_cons.mp hapart
      obtain ⟨hdataApart, hrestApart⟩ := List.pairwise_cons.mp hrestApart
      have hptr := hbehind _ (List.mem_cons_self ..)
      have hdata := hbehind _ (List.mem_cons_of_mem _ (List.mem_cons_self ..))
      have hput := put_wrote (e := .reached mem stack area k pos) hptr hdata
        (hptrApart _ (List.mem_cons_self ..))
      obtain ⟨hrest, hend⟩ := ih ((Encoder.reached mem stack area k pos).put buffer str).mem
        (fun w hw => hbehind w (List.mem_cons_of_mem _ (List.mem_cons_of_mem _ hw))) hrestApart
      -- the rest of the loop goes on behind them
      rw [List.foldl_cons, put_reached]
      constructor
      · refine hput.trans hrest (fun w hw => ?_) fun w hw w' hw' => ?_
        · rcases List.mem_cons.mp hw with rfl | hw
          · exact hptr
          · rw [List.mem_singleton.mp hw]
            exact hdata
        · rcases List.mem_cons.mp hw with rfl | hw
          · exact hptrApart w' (List.mem_cons_of_mem _ hw')
          · rw [List.mem_singleton.mp hw]
            exact hdataApart w' hw'
      · rw [hend, List.length_cons, Nat.add_assoc k 1, Nat.add_comm 1]

/-- The table of an array: a pointer to each string, then a null. -/
def pointers (strs : List Str) : List Entry := strs.map Entry.string ++ [.word 0]

/-- The writes for the table and the strings, behind the count. -/
def arrayWrites (buffer : Word) (strs : List Str) : List Write :=
  layout (buffer + 2) (8 * (strs.length + 1)) (pointers strs) 0 0

theorem length_pointers (strs : List Str) : (pointers strs).length = strs.length + 1 := by
  unfold pointers
  rw [List.length_append, List.length_map, List.length_singleton]

theorem tableStrings_pointers (strs : List Str) :
    tableStrings (pointers strs) = stringBytes strs := by
  unfold pointers
  rw [tableStrings_append, tableStrings_strings]
  rfl

theorem arrayWrites_within (buffer : Word) (strs : List Str) :
    ∀ w ∈ arrayWrites buffer strs,
      Within buffer 2 (2 + 8 * (strs.length + 1) + stringBytes strs) w := by
  intro w hw
  have hlies := layout_lies _ _ _ 0 0 w hw
  rw [length_pointers, tableStrings_pointers] at hlies
  obtain ⟨offset, bytes, rfl, -, hwhere⟩ := hlies
  refine ⟨2 + offset, bytes, ?_, by omega, by omega⟩
  rw [BitVec.ofNat_add, ← BitVec.add_assoc]
  rfl

theorem arrayWrites_apart (buffer : Word) (strs : List Str)
    (hsize : 8 * (strs.length + 1) + stringBytes strs ≤ 2 ^ 64) :
    (arrayWrites buffer strs).Pairwise Write.Apart := by
  unfold arrayWrites
  apply layout_apart
  · rw [length_pointers]
    omega
  · rw [tableStrings_pointers]
    omega

/-- The null pointer is the last of the writes. -/
theorem arrayWrites_eq (buffer : Word) (strs : List Str) :
    arrayWrites buffer strs
      = layout (buffer + 2) (8 * (strs.length + 1)) (strs.map Entry.string) 0 0
        ++ [⟨buffer + 2 + BitVec.ofNat 64 (8 * (0 + strs.length)), wordBytes 0⟩] := by
  unfold arrayWrites pointers
  rw [layout_append, List.length_map]
  rfl

/-- **An array of strings**: its table and its strings are written, and the count
grows by all that the array takes. -/
theorem encodeStrings_wrote (mem : ByteMemory) (buffer : Word) (strs : List Str)
    (hsize : 2 + 8 * (strs.length + 1) + stringBytes strs ≤ 2 ^ 64) :
    Wrote buffer (arrayWrites buffer strs) (2 + 8 * (strs.length + 1) + stringBytes strs) mem
      (encodeStrings mem buffer strs).1 := by
  have hwithin := arrayWrites_within buffer strs
  have hapart := arrayWrites_apart buffer strs (by omega)
  rw [arrayWrites_eq] at hwithin hapart ⊢
  have hbehind : ∀ w ∈ layout (buffer + 2) (8 * (strs.length + 1)) (strs.map Entry.string) 0 0 ++
      [⟨buffer + 2 + BitVec.ofNat 64 (8 * (0 + strs.length)), wordBytes 0⟩], Behind buffer w := by
    intro w hw
    obtain ⟨offset, bytes, hat, hlo, hle⟩ := hwithin w hw
    exact ⟨offset, bytes, hat, hlo, by omega⟩
  obtain ⟨hstrings, hnull, hnullApart⟩ := List.pairwise_append.mp hapart
  -- the count for the count itself and the table, then the loop, then the null pointer
  have hcounts := (wrote_addTaken buffer mem 2).trans
    (wrote_addTaken buffer _ (8 * (strs.length + 1))) (fun _ hw => nomatch hw)
    (fun _ hw => nomatch hw)
  have hloop := foldl_put (addTaken buffer (addTaken buffer mem 2) (8 * (strs.length + 1)))
    (fun w hw => hbehind w (List.mem_append_left _ hw)) hstrings
  have hupTo := hcounts.trans hloop.1 (fun _ hw => nomatch hw) (fun _ hw => nomatch hw)
  rw [List.nil_append, List.nil_append] at hupTo
  have hlast := hupTo.trans
    (wrote_apply (hbehind _ (List.mem_append_right _ (List.mem_singleton.mpr rfl))) _)
    (fun w hw => hbehind w (List.mem_append_left _ hw)) hnullApart
  have hstart : Encoder.reached (addTaken buffer (addTaken buffer mem 2) (8 * (strs.length + 1)))
        (buffer + 2) (8 * (strs.length + 1)) 0 0
      = ⟨addTaken buffer (addTaken buffer mem 2) (8 * (strs.length + 1)), buffer + 2,
        buffer + 2 + BitVec.ofNat 64 (8 * (strs.length + 1))⟩ :=
    congrArg (Encoder.mk _ · _) (BitVec.add_zero _)
  rw [← hloop.2, hstart] at hlast ⊢
  exact hlast

/-- What is in memory for an argument at `buffer`; `count` is that of an array of
strings. -/
def Arg.writes (buffer : Word) (count : BitVec 16) : Arg → List Write
  | .value bytes _ => [⟨buffer, bytes⟩]
  | .null => [⟨buffer, List.replicate 8 0⟩]
  | .string str _ => [⟨buffer, str ++ [0]⟩]
  | .strings strs _ => ⟨buffer, halfBytes count⟩ :: arrayWrites buffer strs

/-- How far the buffer goes on behind an argument. -/
def Arg.advance (count : BitVec 16) : Arg → Word
  | .strings _ _ => count.setWidth 64
  | arg => BitVec.ofNat 64 arg.size

theorem Arg.writes_within (buffer : Word) (count : BitVec 16) (arg : Arg) :
    ∀ w ∈ arg.writes buffer count, Within buffer 0 arg.size w := by
  intro w hw
  cases arg with
  | value bytes sized =>
      rw [List.mem_singleton.mp hw]
      exact within_here buffer (Nat.le_refl _)
  | null =>
      rw [List.mem_singleton.mp hw]
      exact within_here buffer (by simp [size])
  | string str noNul =>
      rw [List.mem_singleton.mp hw]
      exact within_here buffer (by simp [size])
  | strings strs noNul =>
      rcases List.mem_cons.mp hw with rfl | hw
      · exact within_here buffer (by simp [size]; omega)
      · obtain ⟨offset, bytes, hat, -, hle⟩ := arrayWrites_within buffer strs w hw
        exact ⟨offset, bytes, hat, Nat.zero_le _, hle⟩

/-- What is right after an argument has been encoded. -/
structure Encoded (mem : ByteMemory) (buffer : Word) (arg : Arg) (count : BitVec 16) : Prop where
  there : AllThere (encode mem buffer arg).1 (arg.writes buffer count)
  frame : ∀ x, arg.size ≤ (x - buffer).toNat → (encode mem buffer arg).1 x = mem x
  next : (encode mem buffer arg).2 = arg.advance count

/-- One write of the whole argument. -/
theorem encoded_single {mem : ByteMemory} {buffer : Word} {arg : Arg} {count : BitVec 16}
    {bytes : List (BitVec 8)} (hwrites : arg.writes buffer count = [⟨buffer, bytes⟩])
    (hmem : (encode mem buffer arg).1 = Write.apply mem ⟨buffer, bytes⟩)
    (hlength : bytes.length = arg.size) (hsize : arg.size ≤ 2 ^ 64)
    (hnext : (encode mem buffer arg).2 = arg.advance count) : Encoded mem buffer arg count where
  there := by
    rw [hwrites, hmem]
    intro w hw
    rw [List.mem_singleton.mp hw]
    exact Write.there_apply (show bytes.length ≤ 2 ^ 64 by omega) mem
  frame := fun x hx => by
    rw [hmem]
    apply Write.apply_of_not_covers
    show ¬ (x - buffer).toNat < bytes.length
    omega
  next := hnext

/-- **What `encode` leaves**: the argument, with the count that an array of
strings began at and its size added up; nothing behind it has changed. -/
theorem encode_encoded (mem : ByteMemory) (buffer : Word) {arg : Arg} (hsize : arg.size ≤ 2 ^ 64) :
    Encoded mem buffer arg (readHalf mem buffer + BitVec.ofNat 16 arg.size) := by
  cases arg with
  | value bytes sized => exact encoded_single rfl rfl rfl hsize rfl
  | null => exact encoded_single rfl rfl rfl hsize rfl
  | string str noNul => exact encoded_single rfl rfl (by simp [Arg.size]) hsize rfl
  | strings strs noNul =>
      have hwrote := encodeStrings_wrote mem buffer strs hsize
      refine ⟨fun w hw => ?_, fun x hx => ?_, ?_⟩
      · rcases List.mem_cons.mp hw with rfl | hw
        · -- the count is what is read there in the end
          show readBytes (encodeStrings mem buffer strs).1 buffer 2 = halfBytes _
          rw [← halfBytes_readHalf, hwrote.count]
          rfl
        · exact hwrote.there w hw
      · -- behind the array neither the count nor a write of the table
        have hlarge : 2 + 8 * (strs.length + 1) + stringBytes strs ≤ (x - buffer).toNat := hx
        refine hwrote.frame x (by omega) fun w hw hcovers => ?_
        have hin := (arrayWrites_within buffer strs w hw).covers hsize hcovers
        omega
      · show (readHalf (encodeStrings mem buffer strs).1 buffer).setWidth 64 = _
        rw [hwrote.count]
        rfl

/-! ## §5. What `decode` gives back. -/

theorem decode_string {mem : ByteMemory} {buffer : Word} {str : Str}
    (hheld : HoldsString mem buffer str) {chars : Nat} (hchars : str.length < chars) :
    decode mem chars buffer .string
      = some (.string buffer, buffer + BitVec.ofNat 64 (str.length + 1)) := by
  unfold decode
  rw [strlen_run hheld chars 0 (Nat.zero_le _) (by omega)]
  rfl

/-- The pointers behind a count lead to the strings. -/
theorem holdsStrings_of_writes {mem : ByteMemory} {buffer : Word} {strs : List Str}
    (hthere : AllThere mem (arrayWrites buffer strs)) (hnoNul : ∀ str ∈ strs, 0 ∉ str)
    (hfits : buffer.toNat + (2 + 8 * (strs.length + 1) + stringBytes strs) ≤ 2 ^ 64) :
    HoldsStrings mem (buffer + 2) strs
      ∧ HoldsWord mem (buffer + 2 + 8 * BitVec.ofNat 64 strs.length) 0 := by
  rw [arrayWrites_eq] at hthere
  obtain ⟨hstrings, hnull⟩ := hthere.append
  have hstart : buffer + 2 + BitVec.ofNat 64 (8 * 0) = buffer + 2 := BitVec.add_zero _
  have hheld := holdsStrings_of_layout hstrings hnoNul fun offset _ hlt hzero => by
    -- a string lies behind the count, so not at address 0
    have hnat := congrArg BitVec.toNat hzero
    have htwo : (2 : Word).toNat = 2 := rfl
    have hnone : (0 : Word).toNat = 0 := rfl
    rw [BitVec.toNat_add, BitVec.toNat_add, BitVec.toNat_ofNat, htwo, hnone] at hnat
    omega
  rw [hstart] at hheld
  refine ⟨hheld, ?_⟩
  have hword := holdsWord_of_readBytes (hnull.cons).1
  rw [← hstart, entries_on]
  exact hword

/-- **`decode` gives back what is there**, and goes on as `encode` did. -/
theorem decode_encoded {mem : ByteMemory} {buffer : Word} {arg : Arg} {count : BitVec 16}
    (hthere : AllThere mem (arg.writes buffer count)) (hfits : buffer.toNat + arg.size ≤ 2 ^ 64) :
    ∃ chars got, decode mem chars buffer arg.kind = some (got, buffer + arg.advance count)
      ∧ Denotes mem got arg := by
  cases arg with
  | value bytes sized => exact ⟨0, _, rfl, (hthere.cons).1⟩
  | null => exact ⟨0, _, rfl, trivial⟩
  | string str noNul =>
      have hheld : HoldsString mem buffer str := by
        refine ⟨?_, noNul⟩
        have hbytes := (hthere.cons).1
        unfold Write.There at hbytes
        rwa [List.length_append] at hbytes
      exact ⟨str.length + 1, _, decode_string hheld (Nat.lt_succ_self _), str.length + 1,
        newString_eq hheld (Nat.lt_succ_self _)⟩
  | strings strs noNul =>
      obtain ⟨hcount, harray⟩ := hthere.cons
      obtain ⟨hstrs, hnull⟩ := holdsStrings_of_writes harray noNul hfits
      have hskip : readHalf mem buffer = count := readHalf_of_bytes hcount
      refine ⟨0, .strings (buffer + 2), ?_, stringBytes strs, strs.length + 1, ?_⟩
      · show some (_, buffer + (readHalf mem buffer).setWidth 64) = _
        rw [hskip]
        rfl
      · exact copyArray_eq hstrs hnull (fun str => length_lt_stringBytes) (Nat.lt_succ_self _)

end MierOS.EventArgs
