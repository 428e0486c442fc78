/-
  MierOS.Tasking.ExecStack
  **THE STACK OF A NEW PROGRAM**: how `Process::execve` copies `argv` and `envp`
  and lays them out below the end of the stack.

  The block is a table of 64-bit entries (argc, pointers to the arguments, null,
  pointers to the environment, null, an empty auxiliary vector) with the
  characters behind it.  Its size is computed first, the entries and the strings
  are then written side by side.

  Main results: `copyStrings_passed`, `setup_eq`, `exec_stack_iff`.
-/
import MierOS.Lib.ByteWrites
import MierOS.Lib.Loop
import MierOS.Lib.LowBits

namespace MierOS.Tasking.ExecStack

open Lib

/-! ## §1. The argument copy. -/

/-- The characters of a `String<>`, without the NUL behind them. -/
abbrev Str := List (BitVec 8)

section Copy

variable (mem : ByteMemory)

/-- One round of `strlen(str)`. -/
def strlenRound (str : Word) (len : Nat) : Nat ⊕ Nat :=
  if mem (str + BitVec.ofNat 64 len) ≠ 0 then .inl (len + 1) else .inr len

/-- `String(init_str)`; `none` when `strlen` takes more than `chars` rounds. -/
def newString (chars : Nat) (initStr : Word) : Option Str :=
  (Loop.run (strlenRound mem initStr) chars 0).map fun len => readBytes mem initStr len

/-- One round of `while(*argPtr) argStore.push_back(String(*argPtr++));`. -/
def copyRound (chars : Nat) (s : Word × List Str) : Word × List Str ⊕ Option (List Str) :=
  if readWord mem s.1 ≠ 0 then
    match newString mem chars (readWord mem s.1) with
    | none => .inr none
    | some str => .inl (s.1 + 8, s.2 ++ [str])
  else .inr (some s.2)

/-- The strings of an array of pointers that ends with a null. -/
def copyArray (chars fuel : Nat) (argPtr : Word) : Option (List Str) :=
  (Loop.run (copyRound mem chars) fuel (argPtr, [])).join

/-- `argStore` after `if(argv) { .. }`. -/
def copyStrings (chars fuel : Nat) (argv : Word) : Option (List Str) :=
  if argv ≠ 0 then copyArray mem chars fuel argv else some []

end Copy

/-! ## §2. The stack setup. -/

/-- `List::size()`, an `unsigned int`. -/
def listSize (args : List Str) : BitVec 32 := BitVec.ofNat 32 args.length

/-- `getArgStoreSize(args)`. -/
def getArgStoreSize (args : List Str) : Word :=
  args.foldl (fun size arg => size + (BitVec.ofNat 64 arg.length + 1)) 0

/-- `(4 + argStore.size() + envStore.size()) * sizeof(u64_t)`: an `unsigned int`
that is widened for the product. -/
def tableBytes (argStore envStore : List Str) : Word :=
  (4 + listSize argStore + listSize envStore).setWidth 64 * 8

/-- `execStackSize`, aligned up to 16 bytes. -/
def execStackSize (argStore envStore : List Str) : Word :=
  let size := tableBytes argStore envStore + getArgStoreSize argStore + getArgStoreSize envStore
  if size &&& 0xF ≠ 0 then (size ||| 0xF) + 1 else size

/-- `execStack`. -/
def execStack (argStore envStore : List Str) (stackEnd : Word) : Word :=
  stackEnd - execStackSize argStore envStore

/-- `stackOffset` and `infoBlock`, and what has been written so far. -/
structure Setup where
  stackOffset : Word
  infoBlock : Word
  writes : List Write

/-- `execStack[stackOffset++] = value;`. -/
def Setup.put (stack : Word) (s : Setup) (value : Word) : Setup where
  stackOffset := s.stackOffset + 1
  infoBlock := s.infoBlock
  writes := s.writes ++ [⟨stack + 8 * s.stackOffset, wordBytes value⟩]

/-- One round of the loops over `argStore` and `envStore`. -/
def Setup.putString (stack : Word) (s : Setup) (arg : Str) : Setup :=
  let s := s.put stack s.infoBlock
  { s with
    infoBlock := s.infoBlock + (BitVec.ofNat 64 arg.length + 1)
    writes := s.writes ++ [⟨s.infoBlock, arg ++ [0]⟩] }

/-- Everything the setup writes, in order. -/
def setup (argStore envStore : List Str) (stackEnd : Word) : List Write :=
  let stack := execStack argStore envStore stackEnd
  let s : Setup := ⟨0, stack + tableBytes argStore envStore, []⟩
  let s := s.put stack ((listSize argStore).setWidth 64)
  let s := argStore.foldl (Setup.putString stack) s
  let s := s.put stack 0
  let s := envStore.foldl (Setup.putString stack) s
  let s := s.put stack 0
  -- null aux vector
  (s.put stack 0).writes

/-! ## §3. What the block is for. -/

section ReadBack

variable (mem : ByteMemory)

/-- The strings of the first `n` pointers of an array. -/
def readStrings (chars : Nat) : Nat → Word → Option (List Str)
  | 0, _ => some []
  | n + 1, argPtr =>
      match newString mem chars (readWord mem argPtr), readStrings chars n (argPtr + 8) with
      | some str, some rest => some (str :: rest)
      | _, _ => none

/-- A program's `argv` and `envp`: `argc`, that many pointers, a null, pointers
up to a null, and a null entry for the auxiliary vector. -/
def readBlock (chars fuel : Nat) (stack : Word) : Option (List Str × List Str) :=
  let argc := readWord mem stack
  let argv := stack + 8
  let envp := argv + 8 * argc + 8
  match readStrings mem chars argc.toNat argv, copyArray mem chars fuel envp with
  | some args, some envs =>
      let auxv := envp + 8 * BitVec.ofNat 64 envs.length + 8
      if readWord mem (argv + 8 * argc) = 0 ∧ readWord mem auxv = 0 then some (args, envs)
      else none
  | _, _ => none

/-- With enough rounds for the loops, the block reads as these lists. -/
def ReadsAs (stack : Word) (argv envp : List Str) : Prop :=
  ∃ c f, ∀ chars fuel, c ≤ chars → f ≤ fuel → readBlock mem chars fuel stack = some (argv, envp)

end ReadBack

/-- **The block is right.** -/
structure Right (mem : ByteMemory) (argv envp : List Str) (stackEnd : Word) : Prop where
  aligned : (execStack argv envp stackEnd).toNat % 16 = 0
  within : ∀ w ∈ setup argv envp stackEnd,
    (execStack argv envp stackEnd).toNat ≤ w.addr.toNat
      ∧ w.addr.toNat + w.bytes.length ≤ stackEnd.toNat
  apart : (setup argv envp stackEnd).Pairwise Write.Apart
  reads : ReadsAs (writeAll mem (setup argv envp stackEnd)) (execStack argv envp stackEnd) argv envp

/-- The bytes of the strings, each with its NUL. -/
def stringBytes : List Str → Nat
  | [] => 0
  | str :: strs => str.length + 1 + stringBytes strs

/-- The bytes the whole block takes. -/
def blockBytes (argv envp : List Str) : Nat :=
  8 * (4 + argv.length + envp.length) + (stringBytes argv + stringBytes envp)

/-- A string in memory, closed by the first NUL. -/
def HoldsString (mem : ByteMemory) (addr : Word) (str : Str) : Prop :=
  readBytes mem addr (str.length + 1) = str ++ [0] ∧ 0 ∉ str

/-- An array of pointers to strings. -/
def HoldsStrings (mem : ByteMemory) : Word → List Str → Prop
  | _, [] => True
  | addr, str :: rest =>
      (∃ p, p ≠ 0 ∧ HoldsWord mem addr p ∧ HoldsString mem p str)
        ∧ HoldsStrings mem (addr + 8) rest

/-- What `execve` is called with: a null pointer for no strings, or an array
that ends with a null. -/
def Passed (mem : ByteMemory) (argv : Word) (strs : List Str) : Prop :=
  (argv = 0 ∧ strs = [])
    ∨ (argv ≠ 0 ∧ HoldsStrings mem argv strs
      ∧ HoldsWord mem (argv + 8 * BitVec.ofNat 64 strs.length) 0)

/-! ## §4. Reading strings. -/

/-- The entry behind one of a table of words. -/
theorem entry_succ (addr : Word) (n : Nat) :
    addr + 8 * BitVec.ofNat 64 (n + 1) = addr + 8 + 8 * BitVec.ofNat 64 n := by
  have height : (8 : Word).toNat = 8 := rfl
  apply BitVec.eq_of_toNat_eq
  simp only [BitVec.toNat_add, BitVec.toNat_mul, BitVec.toNat_ofNat, height]
  omega

/-- `strlen` from inside a string comes to its end. -/
theorem strlen_run {mem : ByteMemory} {addr : Word} {str : Str} (h : HoldsString mem addr str) :
    ∀ (fuel len : Nat), len ≤ str.length → str.length < len + fuel →
      Loop.run (strlenRound mem addr) fuel len = some str.length := by
  intro fuel
  have hbytes := readBytes_eq_iff.mp
    (show readBytes mem addr (str ++ [0]).length = _ by rw [List.length_append]; exact h.1)
  -- on the rounds that are left; `len` never passes the end of the string
  induction fuel with
  | zero => omega
  | succ fuel ih =>
      intro len hle hlt
      have hbyte := hbytes len (by simp; omega)
      by_cases hend : len = str.length
      · -- the NUL
        have hround : strlenRound mem addr len = .inr len := by
          unfold strlenRound
          rw [hbyte]
          simp [hend]
        rw [Loop.run_inr hround, hend]
      · -- a character, which is no NUL
        have hin : len < str.length := by omega
        have hround : strlenRound mem addr len = .inl (len + 1) := by
          unfold strlenRound
          rw [hbyte, List.getElem_append_left hin, if_pos]
          intro hzero
          exact h.2 (hzero ▸ List.getElem_mem hin)
        rw [Loop.run_inl hround]
        exact ih (len + 1) hin (by omega)

theorem newString_eq {mem : ByteMemory} {addr : Word} {str : Str} (h : HoldsString mem addr str)
    {chars : Nat} (hchars : str.length < chars) : newString mem chars addr = some str := by
  unfold newString
  rw [strlen_run h chars 0 (Nat.zero_le _) (by omega), Option.map_some]
  have hfront := h.1
  rw [readBytes_append] at hfront
  exact congrArg some (List.append_inj_left hfront (length_readBytes mem addr _))

theorem copyArray_run {mem : ByteMemory} {chars : Nat} {strs : List Str} :
    ∀ {addr : Word} (store : List Str) {fuel : Nat}, HoldsStrings mem addr strs →
      HoldsWord mem (addr + 8 * BitVec.ofNat 64 strs.length) 0 →
      (∀ str ∈ strs, str.length < chars) → strs.length < fuel →
      Loop.run (copyRound mem chars) fuel (addr, store) = some (some (store ++ strs)) := by
  induction strs with
  | nil =>
      intro addr store fuel _ hnull _ hfuel
      -- the null pointer
      have hround : copyRound mem chars (addr, store) = .inr (some store) := by
        unfold copyRound
        have hzero : readWord mem addr = 0 := readWord_of_holds (by simpa using hnull)
        simp [hzero]
      obtain ⟨rounds, rfl⟩ : ∃ rounds, fuel = rounds + 1 := ⟨fuel - 1, by simp at hfuel; omega⟩
      rw [Loop.run_inr hround, List.append_nil]
  | cons str strs ih =>
      intro addr store fuel ⟨⟨p, hp, hword, hstr⟩, hrest⟩ hnull hchars hfuel
      -- one string is copied and the rest of the array begins an entry further on
      have hread := readWord_of_holds hword
      have hnew := newString_eq hstr (hchars str (List.mem_cons_self ..))
      have hround : copyRound mem chars (addr, store) = .inl (addr + 8, store ++ [str]) := by
        unfold copyRound
        simp only [hread, hnew, if_pos hp]
      rw [List.length_cons, entry_succ] at hnull
      obtain ⟨rounds, rfl⟩ : ∃ rounds, fuel = rounds + 1 := ⟨fuel - 1, by simp at hfuel; omega⟩
      rw [Loop.run_inl hround, ih (store ++ [str]) hrest hnull
        (fun s hs => hchars s (List.mem_cons_of_mem _ hs)) (by simpa using hfuel),
        List.append_assoc, List.singleton_append]

theorem copyArray_eq {mem : ByteMemory} {addr : Word} {strs : List Str}
    (hstrs : HoldsStrings mem addr strs)
    (hnull : HoldsWord mem (addr + 8 * BitVec.ofNat 64 strs.length) 0) {chars fuel : Nat}
    (hchars : ∀ str ∈ strs, str.length < chars) (hfuel : strs.length < fuel) :
    copyArray mem chars fuel addr = some strs := by
  unfold copyArray
  rw [copyArray_run [] hstrs hnull hchars hfuel]
  rfl

theorem readStrings_eq {mem : ByteMemory} {chars : Nat} {strs : List Str} :
    ∀ {addr : Word}, HoldsStrings mem addr strs → (∀ str ∈ strs, str.length < chars) →
      readStrings mem chars strs.length addr = some strs := by
  induction strs with
  | nil => exact fun _ _ => rfl
  | cons str strs ih =>
      intro addr ⟨⟨p, _, hword, hstr⟩, hrest⟩ hchars
      have hnew := newString_eq hstr (hchars str (List.mem_cons_self ..))
      have htail := ih hrest fun s hs => hchars s (List.mem_cons_of_mem _ hs)
      rw [List.length_cons, readStrings, readWord_of_holds hword, hnew, htail]

theorem length_lt_stringBytes {str : Str} {strs : List Str} (h : str ∈ strs) :
    str.length < stringBytes strs := by
  induction strs with
  | nil => exact nomatch h
  | cons s strs ih =>
      show str.length < s.length + 1 + stringBytes strs
      rcases List.mem_cons.mp h with rfl | h
      · omega
      · have hlt := ih h
        omega

theorem stringBytes_replicate (n : Nat) (str : Str) :
    stringBytes (List.replicate n str) = n * (str.length + 1) := by
  induction n with
  | zero => exact (Nat.zero_mul _).symm
  | succ n ih =>
      show str.length + 1 + stringBytes (List.replicate n str) = _
      rw [ih, Nat.succ_mul, Nat.add_comm]

/-- **The copies are the strings that were passed.** -/
theorem copyStrings_passed {mem : ByteMemory} {argv : Word} {strs : List Str}
    (h : Passed mem argv strs) : ∃ chars fuel, copyStrings mem chars fuel argv = some strs := by
  unfold copyStrings
  rcases h with ⟨hnull, hnone⟩ | ⟨hptr, hstrs, hend⟩
  · exact ⟨0, 0, by simp [hnull, hnone]⟩
  · refine ⟨stringBytes strs, strs.length + 1, ?_⟩
    rw [if_pos hptr]
    exact copyArray_eq hstrs hend (fun str => length_lt_stringBytes) (Nat.lt_succ_self _)

/-! ## §5. Where everything goes. -/

/-- What goes into an entry of the table: a word, or a pointer to a string. -/
inductive Entry where
  | word (value : Word)
  | string (str : Str)

/-- One step of the setup. -/
def Setup.putEntry (stack : Word) (s : Setup) : Entry → Setup
  | .word value => s.put stack value
  | .string str => s.putString stack str

/-- The table, in order. -/
def table (argStore envStore : List Str) : List Entry :=
  .word ((listSize argStore).setWidth 64) :: (argStore.map .string ++
    .word 0 :: (envStore.map .string ++ [.word 0, .word 0]))

theorem foldl_putString (stack : Word) (s : Setup) (args : List Str) :
    args.foldl (Setup.putString stack) s
      = (args.map Entry.string).foldl (Setup.putEntry stack) s := by
  rw [List.foldl_map]
  rfl

/-- The setup goes through the table once. -/
theorem setup_table (argStore envStore : List Str) (stackEnd : Word) :
    setup argStore envStore stackEnd
      = ((table argStore envStore).foldl (Setup.putEntry (execStack argStore envStore stackEnd))
          ⟨0, execStack argStore envStore stackEnd + tableBytes argStore envStore, []⟩).writes := by
  unfold setup table
  simp only [List.foldl_cons, List.foldl_append, foldl_putString, List.foldl_nil]
  rfl

/-- The bytes of the string behind an entry. -/
def Entry.bytes : Entry → Nat
  | .word _ => 0
  | .string str => str.length + 1

/-- The bytes of all strings of a table. -/
def tableStrings : List Entry → Nat
  | [] => 0
  | e :: es => e.bytes + tableStrings es

/-- The writes for the entries from number `k` on, with the next string `pos`
bytes behind the beginning of the strings at `area`. -/
def layout (stack : Word) (area : Nat) : List Entry → Nat → Nat → List Write
  | [], _, _ => []
  | .word value :: es, k, pos =>
      ⟨stack + BitVec.ofNat 64 (8 * k), wordBytes value⟩ :: layout stack area es (k + 1) pos
  | .string str :: es, k, pos =>
      ⟨stack + BitVec.ofNat 64 (8 * k), wordBytes (stack + BitVec.ofNat 64 (area + pos))⟩
        :: ⟨stack + BitVec.ofNat 64 (area + pos), str ++ [0]⟩
        :: layout stack area es (k + 1) (pos + (str.length + 1))

/-- The running positions of the code are those of `layout`. -/
theorem foldl_putEntry (stack : Word) (area : Nat) (es : List Entry) :
    ∀ (k pos : Nat) (ws : List Write),
      (es.foldl (Setup.putEntry stack)
          ⟨BitVec.ofNat 64 k, stack + BitVec.ofNat 64 (area + pos), ws⟩).writes
        = ws ++ layout stack area es k pos := by
  induction es with
  | nil => exact fun _ _ ws => (List.append_nil ws).symm
  | cons e es ih =>
      intro k pos ws
      have hindex : BitVec.ofNat 64 k + 1 = (BitVec.ofNat 64 (k + 1) : Word) :=
        (BitVec.ofNat_add k 1).symm
      have hentry : stack + 8 * BitVec.ofNat 64 k = stack + BitVec.ofNat 64 (8 * k) := by
        rw [BitVec.ofNat_mul]
        rfl
      -- an entry moves the one position, a string both
      cases e with
      | word value =>
          show (es.foldl _ (Setup.put stack _ value)).writes = _
          unfold Setup.put
          rw [hindex, hentry, ih (k + 1) pos, List.append_assoc]
          rfl
      | string str =>
          have harea : stack + BitVec.ofNat 64 (area + pos) + (BitVec.ofNat 64 str.length + 1)
              = stack + BitVec.ofNat 64 (area + (pos + (str.length + 1))) := by
            rw [BitVec.add_assoc, ← Nat.add_assoc, BitVec.ofNat_add (area + pos),
              BitVec.ofNat_add str.length]
            rfl
          show (es.foldl _ (Setup.putString stack _ str)).writes = _
          unfold Setup.putString Setup.put
          simp only [hindex, hentry, harea]
          rw [ih (k + 1) (pos + (str.length + 1)), List.append_assoc, List.append_assoc]
          rfl

/-- The number of entries, as an `unsigned int` counts them. -/
def countedEntries (argv envp : List Str) : Nat := (4 + argv.length + envp.length) % 2 ^ 32

theorem tableBytes_eq (argv envp : List Str) :
    tableBytes argv envp = BitVec.ofNat 64 (8 * countedEntries argv envp) := by
  have hfour : (4 : BitVec 32).toNat = 4 := rfl
  have height : (8 : Word).toNat = 8 := rfl
  apply BitVec.eq_of_toNat_eq
  unfold tableBytes listSize countedEntries
  simp only [BitVec.toNat_mul, BitVec.toNat_setWidth, BitVec.toNat_add, BitVec.toNat_ofNat, hfour,
    height]
  omega

/-- **Where every entry and every string goes.** -/
theorem setup_eq (argv envp : List Str) (stackEnd : Word) :
    setup argv envp stackEnd
      = layout (execStack argv envp stackEnd) (8 * countedEntries argv envp)
          (table argv envp) 0 0 := by
  rw [setup_table, tableBytes_eq]
  exact foldl_putEntry _ (8 * countedEntries argv envp) _ 0 0 []

/-! ## §6. No two writes overlap. -/

/-- The write lies in one of two ranges of offsets from the block's beginning. -/
def Lies (stack : Word) (lo hi lo' hi' : Nat) (w : Write) : Prop :=
  ∃ offset bytes, w = ⟨stack + BitVec.ofNat 64 offset, bytes⟩ ∧ 0 < bytes.length
    ∧ ((lo ≤ offset ∧ offset + bytes.length ≤ hi)
      ∨ (lo' ≤ offset ∧ offset + bytes.length ≤ hi'))

theorem Lies.mono {stack : Word} {lo hi lo' hi' lo₁ lo₁' hi₁' : Nat} {w : Write}
    (h : Lies stack lo hi lo' hi' w) (hlo : lo₁ ≤ lo) (hlo' : lo₁' ≤ lo') (hhi' : hi' ≤ hi₁') :
    Lies stack lo₁ hi lo₁' hi₁' w := by
  obtain ⟨offset, bytes, hw, hne, hwhere⟩ := h
  exact ⟨offset, bytes, hw, hne, by omega⟩

/-- A write in front of both ranges is apart from what lies in them. -/
theorem Lies.behind {stack : Word} {lo hi lo' hi' : Nat} {w : Write}
    (h : Lies stack lo hi lo' hi' w) (hhi : hi ≤ 2 ^ 64) (hhi' : hi' ≤ 2 ^ 64) {offset : Nat}
    {bytes : List (BitVec 8)} (hlo : offset + bytes.length ≤ lo)
    (hlo' : offset + bytes.length ≤ lo') :
    Write.Apart ⟨stack + BitVec.ofNat 64 offset, bytes⟩ w := by
  obtain ⟨offset', bytes', rfl, -, hwhere⟩ := h
  apply Write.apart_of_le <;> omega

/-- What is still to be written lies behind what has been. -/
theorem layout_lies (stack : Word) (area : Nat) (es : List Entry) :
    ∀ (k pos : Nat), ∀ w ∈ layout stack area es k pos,
      Lies stack (8 * k) (8 * (k + es.length)) (area + pos) (area + pos + tableStrings es) w := by
  induction es with
  | nil => exact fun _ _ w hw => nomatch hw
  | cons e es ih =>
      intro k pos w hw
      have hcount : k + (e :: es).length = k + 1 + es.length := by
        rw [List.length_cons]
        omega
      rw [hcount]
      cases e with
      | word value =>
          have hstrings : tableStrings (.word value :: es) = tableStrings es := Nat.zero_add _
          rcases List.mem_cons.mp hw with rfl | hw
          · refine ⟨8 * k, wordBytes value, rfl, by simp, Or.inl ?_⟩
            rw [length_wordBytes]
            omega
          · exact (ih (k + 1) pos w hw).mono (by omega) (Nat.le_refl _) (by omega)
      | string str =>
          have hstrings : tableStrings (.string str :: es) = str.length + 1 + tableStrings es := rfl
          rcases List.mem_cons.mp hw with rfl | hw
          · refine ⟨8 * k, _, rfl, by simp, Or.inl ?_⟩
            rw [length_wordBytes]
            omega
          rcases List.mem_cons.mp hw with rfl | hw
          · refine ⟨area + pos, _, rfl, by simp, Or.inr ?_⟩
            rw [List.length_append, List.length_singleton, hstrings]
            omega
          · exact (ih (k + 1) (pos + (str.length + 1)) w hw).mono (by omega) (by omega)
              (by rw [hstrings]; omega)

/-- **No two writes overlap** when the strings begin behind the whole table. -/
theorem layout_apart {stack : Word} {area : Nat} {es : List Entry} :
    ∀ {k pos : Nat}, 8 * (k + es.length) ≤ area → area + pos + tableStrings es ≤ 2 ^ 64 →
      (layout stack area es k pos).Pairwise Write.Apart := by
  induction es with
  | nil => exact fun _ _ => List.Pairwise.nil
  | cons e es ih =>
      intro k pos htable hfits
      rw [List.length_cons] at htable
      cases e with
      | word value =>
          have hstrings : tableStrings (.word value :: es) = tableStrings es := Nat.zero_add _
          rw [hstrings] at hfits
          refine List.pairwise_cons.mpr ⟨fun w hw => ?_, ih (by omega) hfits⟩
          have hlies := layout_lies stack area es (k + 1) pos w hw
          refine hlies.behind (by omega) hfits ?_ ?_
          all_goals
            rw [length_wordBytes]
            omega
      | string str =>
          have hstrings : tableStrings (.string str :: es) = str.length + 1 + tableStrings es := rfl
          have hlength : (str ++ [(0 : BitVec 8)]).length = str.length + 1 := by simp
          have hlies := layout_lies stack area es (k + 1) (pos + (str.length + 1))
          rw [hstrings] at hfits
          refine List.pairwise_cons.mpr
            ⟨fun w hw => ?_, List.pairwise_cons.mpr ⟨fun w hw => ?_, ih (by omega) (by omega)⟩⟩
          · -- the pointer against its string and everything behind
            rcases List.mem_cons.mp hw with rfl | hw
            · apply Write.apart_of_le
              · rw [length_wordBytes]
                omega
              · rw [hlength]
                omega
            · refine (hlies w hw).behind (by omega) (by omega) ?_ ?_
              all_goals
                rw [length_wordBytes]
                omega
          · -- the string against later entries, which lie before it, and later strings
            obtain ⟨offset, bytes, rfl, -, hword | hstring⟩ := hlies w hw
            · apply Write.Apart.symm
              apply Write.apart_of_le
              · omega
              · rw [hlength]
                omega
            · apply Write.apart_of_le
              · rw [hlength]
                omega
              · omega

theorem entry_written (stack : Word) (area : Nat) (es : List Entry) :
    ∀ {k c : Nat} (pos : Nat), k ≤ c → c < k + es.length →
      ∃ w ∈ layout stack area es k pos,
        w.addr = stack + BitVec.ofNat 64 (8 * c) ∧ 0 < w.bytes.length := by
  induction es with
  | nil =>
      intro k c pos hle hlt
      simp at hlt
      omega
  | cons e es ih =>
      intro k c pos hle hlt
      rw [List.length_cons] at hlt
      by_cases hhere : k = c
      · -- the write of the entry itself comes first, whatever the entry is
        subst hhere
        cases e with
        | word value => exact ⟨_, List.mem_cons_self .., rfl, by simp⟩
        | string str => exact ⟨_, List.mem_cons_self .., rfl, by simp⟩
      · cases e with
        | word value =>
            obtain ⟨w, hw, hat⟩ := ih (k := k + 1) pos (by omega) (show c < _ by omega)
            exact ⟨w, List.mem_cons_of_mem _ hw, hat⟩
        | string str =>
            obtain ⟨w, hw, hat⟩ := ih (k := k + 1) (pos + (str.length + 1)) (by omega)
              (show c < _ by omega)
            exact ⟨w, List.mem_cons_of_mem _ (List.mem_cons_of_mem _ hw), hat⟩

/-- The first string is written where the strings begin. -/
theorem string_written (stack : Word) (area : Nat) {es : List Entry} {str : Str}
    (h : Entry.string str ∈ es) :
    ∀ (k pos : Nat), ∃ w ∈ layout stack area es k pos,
      w.addr = stack + BitVec.ofNat 64 (area + pos) ∧ 0 < w.bytes.length := by
  induction es with
  | nil => exact nomatch h
  | cons e es ih =>
      intro k pos
      cases e with
      | word value =>
          have hrest : Entry.string str ∈ es := by simpa using h
          obtain ⟨w, hw, hat⟩ := ih hrest (k + 1) pos
          exact ⟨w, List.mem_cons_of_mem _ hw, hat⟩
      | string s =>
          exact ⟨_, List.mem_cons_of_mem _ (List.mem_cons_self ..), rfl, by simp⟩

/-- **Where the strings begin inside the table, two writes overlap.** -/
theorem layout_overlaps (stack : Word) {c : Nat} {es : List Entry} {str : Str}
    (h : Entry.string str ∈ es) :
    ∀ {k : Nat}, k ≤ c → c < k + es.length →
      ¬ (layout stack (8 * c) es k 0).Pairwise Write.Apart := by
  induction es with
  | nil => exact nomatch h
  | cons e es ih =>
      intro k hle hlt hapart
      rw [List.length_cons] at hlt
      cases e with
      | word value =>
          have hrest : Entry.string str ∈ es := by simpa using h
          have hcons := List.pairwise_cons.mp hapart
          by_cases hhere : k = c
          · -- the first string is written over this entry
            obtain ⟨w, hw, haddr, hne⟩ := string_written stack (8 * c) hrest (k + 1) 0
            refine Write.not_apart_of_addr ?_ (by simp) hne (hcons.1 w hw)
            rw [haddr, hhere]
            rfl
          · exact ih hrest (by omega) (by omega) hcons.2
      | string s =>
          have hcons := List.pairwise_cons.mp hapart
          by_cases hhere : k = c
          · -- its own pointer lies where the string goes
            refine Write.not_apart_of_addr ?_ (by simp) ?_ (hcons.1 _ (List.mem_cons_self ..))
            · rw [hhere]
              rfl
            · simp
          · -- a later entry is written over this string
            obtain ⟨w, hw, haddr, hne⟩ := entry_written stack (8 * c) es (k := k + 1)
              (0 + (s.length + 1)) (by omega) (show c < _ by omega)
            refine Write.not_apart_of_addr ?_ ?_ hne ((List.pairwise_cons.mp hcons.2).1 w hw)
            · exact haddr.symm
            · simp

/-! ## §7. The block reads back. -/

theorem next_entry (stack : Word) (k : Nat) :
    stack + BitVec.ofNat 64 (8 * k) + 8 = stack + BitVec.ofNat 64 (8 * (k + 1)) := by
  rw [BitVec.add_assoc, Nat.mul_add, BitVec.ofNat_add (8 * k)]
  rfl

theorem entries_on (stack : Word) (k n : Nat) :
    stack + BitVec.ofNat 64 (8 * k) + 8 * BitVec.ofNat 64 n
      = stack + BitVec.ofNat 64 (8 * (k + n)) := by
  rw [BitVec.add_assoc, Nat.mul_add, BitVec.ofNat_add (8 * k), BitVec.ofNat_mul 8 n]
  rfl

theorem tableStrings_strings (strs : List Str) :
    tableStrings (strs.map Entry.string) = stringBytes strs := by
  induction strs with
  | nil => rfl
  | cons str strs ih =>
      show str.length + 1 + tableStrings (strs.map Entry.string) = _
      rw [ih]
      rfl

theorem tableStrings_append (es es' : List Entry) :
    tableStrings (es ++ es') = tableStrings es + tableStrings es' := by
  induction es with
  | nil => exact (Nat.zero_add _).symm
  | cons e es ih =>
      show e.bytes + tableStrings (es ++ es') = e.bytes + tableStrings es + tableStrings es'
      rw [ih, Nat.add_assoc]

theorem layout_append (stack : Word) (area : Nat) (es es' : List Entry) :
    ∀ k pos : Nat, layout stack area (es ++ es') k pos
      = layout stack area es k pos
        ++ layout stack area es' (k + es.length) (pos + tableStrings es) := by
  induction es with
  | nil => exact fun _ _ => rfl
  | cons e es ih =>
      intro k pos
      cases e with
      | word value =>
          have hstrings : tableStrings (.word value :: es) = tableStrings es := Nat.zero_add _
          show _ :: layout stack area (es ++ es') (k + 1) pos = _
          rw [ih, hstrings, List.length_cons, Nat.add_assoc k, Nat.add_comm 1]
          rfl
      | string str =>
          have hstrings : tableStrings (.string str :: es) = str.length + 1 + tableStrings es := rfl
          show _ :: _ :: layout stack area (es ++ es') (k + 1) (pos + (str.length + 1)) = _
          rw [ih, hstrings, List.length_cons, Nat.add_assoc k, Nat.add_comm 1,
            Nat.add_assoc pos (str.length + 1)]
          rfl

/-- All of these writes are in memory. -/
def AllThere (mem : ByteMemory) (ws : List Write) : Prop := ∀ w ∈ ws, w.There mem

theorem AllThere.cons {mem : ByteMemory} {w : Write} {ws : List Write}
    (h : AllThere mem (w :: ws)) : w.There mem ∧ AllThere mem ws :=
  ⟨h w (List.mem_cons_self ..), fun v hv => h v (List.mem_cons_of_mem _ hv)⟩

theorem AllThere.append {mem : ByteMemory} {ws ws' : List Write} (h : AllThere mem (ws ++ ws')) :
    AllThere mem ws ∧ AllThere mem ws' :=
  ⟨fun w hw => h w (List.mem_append_left _ hw), fun w hw => h w (List.mem_append_right _ hw)⟩

/-- The pointers of a table lead to its strings, if none of them is null. -/
theorem holdsStrings_of_layout {mem : ByteMemory} {stack : Word} {area : Nat} {strs : List Str} :
    ∀ {k pos : Nat}, AllThere mem (layout stack area (strs.map Entry.string) k pos) →
      (∀ str ∈ strs, 0 ∉ str) →
      (∀ offset, pos ≤ offset → offset < pos + stringBytes strs →
        stack + BitVec.ofNat 64 (area + offset) ≠ 0) →
      HoldsStrings mem (stack + BitVec.ofNat 64 (8 * k)) strs := by
  induction strs with
  | nil => exact fun _ _ _ => trivial
  | cons str strs ih =>
      intro k pos hthere hnul hnonnull
      have hstrings : stringBytes (str :: strs) = str.length + 1 + stringBytes strs := rfl
      rw [hstrings] at hnonnull
      -- the two writes of a string, then those of the rest
      obtain ⟨hpointer, hrest⟩ := hthere.cons
      obtain ⟨hchars, hrest⟩ := hrest.cons
      refine ⟨⟨_, hnonnull pos (Nat.le_refl _) (by omega), holdsWord_of_readBytes hpointer, ?_,
        hnul str (List.mem_cons_self ..)⟩, ?_⟩
      · unfold Write.There at hchars
        rwa [List.length_append] at hchars
      · rw [next_entry]
        exact ih hrest (fun s hs => hnul s (List.mem_cons_of_mem _ hs))
          fun offset hle hlt => hnonnull offset (by omega) (by omega)

/-- **A table that is in memory reads as the strings it was made from.** -/
theorem readsAs_of_table {mem : ByteMemory} {stack : Word} (area : Nat) {argv envp : List Str}
    (hthere : AllThere mem (layout stack area (table argv envp) 0 0))
    (hargv : ∀ str ∈ argv, 0 ∉ str) (henvp : ∀ str ∈ envp, 0 ∉ str)
    (hcount : argv.length < 2 ^ 32)
    (hnonnull : ∀ offset, offset < stringBytes argv + stringBytes envp →
      stack + BitVec.ofNat 64 (area + offset) ≠ 0) :
    ReadsAs mem stack argv envp := by
  unfold table at hthere
  -- the writes in the order of the table
  obtain ⟨hargc, hthere⟩ := hthere.cons
  rw [layout_append, List.length_map, tableStrings_strings] at hthere
  obtain ⟨hargs, hthere⟩ := hthere.append
  obtain ⟨hnull, hthere⟩ := hthere.cons
  rw [layout_append, List.length_map, tableStrings_strings] at hthere
  obtain ⟨henvs, hthere⟩ := hthere.append
  obtain ⟨hnull', hthere⟩ := hthere.cons
  obtain ⟨hauxv, -⟩ := hthere.cons
  have hargc : readWord mem stack = BitVec.ofNat 64 argv.length := by
    have hword := readWord_of_holds (holdsWord_of_readBytes hargc)
    rw [show stack + BitVec.ofNat 64 (8 * 0) = stack from BitVec.add_zero stack] at hword
    rw [hword]
    unfold listSize
    rw [BitVec.setWidth_ofNat_of_le_of_lt (by decide) hcount]
  have hcounted : (BitVec.ofNat 64 argv.length : Word).toNat = argv.length := by
    rw [BitVec.toNat_ofNat]
    omega
  have hargs := holdsStrings_of_layout hargs hargv fun offset _ hlt => hnonnull offset (by omega)
  have henvs := holdsStrings_of_layout henvs henvp fun offset hle hlt => hnonnull offset (by omega)
  have hnull := readWord_of_holds (holdsWord_of_readBytes hnull)
  have hnull' := holdsWord_of_readBytes hnull'
  have hauxv := readWord_of_holds (holdsWord_of_readBytes hauxv)
  have hchars : ∀ chars, stringBytes argv + stringBytes envp ≤ chars →
      (∀ str ∈ argv, str.length < chars) ∧ ∀ str ∈ envp, str.length < chars := fun chars h =>
    ⟨fun str hstr => by have hlt := length_lt_stringBytes hstr; omega,
      fun str hstr => by have hlt := length_lt_stringBytes hstr; omega⟩
  refine ⟨stringBytes argv + stringBytes envp, envp.length + 1, fun chars fuel hc hf => ?_⟩
  have hreadArgs := readStrings_eq hargs (hchars chars hc).1
  have hreadEnvs := copyArray_eq henvs ?_ (hchars chars hc).2 hf
  · have hargv : stack + 8 = stack + BitVec.ofNat 64 (8 * (0 + 1)) := rfl
    unfold readBlock
    simp only [hargc, hcounted, hargv, entries_on, next_entry, hreadArgs, hreadEnvs]
    rw [if_pos ⟨hnull, hauxv⟩]
  · rw [entries_on]
    exact hnull'

/-! ## §8. The size. -/

theorem toNat_getArgStoreSize (args : List Str) :
    (getArgStoreSize args).toNat = stringBytes args % 2 ^ 64 := by
  have hsum : ∀ (args : List Str) (size : Word),
      (args.foldl (fun size arg => size + (BitVec.ofNat 64 arg.length + 1)) size).toNat
        = (size.toNat + stringBytes args) % 2 ^ 64 := by
    intro args
    induction args with
    | nil => exact fun size => (Nat.mod_eq_of_lt size.isLt).symm
    | cons arg args ih =>
        intro size
        have hone : (1 : Word).toNat = 1 := rfl
        have hstrings : stringBytes (arg :: args) = arg.length + 1 + stringBytes args := rfl
        rw [List.foldl_cons, ih, hstrings]
        simp only [BitVec.toNat_add, BitVec.toNat_ofNat, hone]
        omega
  unfold getArgStoreSize
  rw [hsum args 0]
  show (0 + stringBytes args) % 2 ^ 64 = _
  rw [Nat.zero_add]

theorem toNat_and_low (a : Word) : (a &&& 0xF).toNat = a.toNat % 16 :=
  LowBits.toNat_and_mask (show 4 ≤ 64 by decide) a

/-- `| 0xF` fills the last 16 bytes up. -/
theorem toNat_or_low (a : Word) : (a ||| 0xF).toNat = a.toNat / 16 * 16 + 15 :=
  LowBits.toNat_or_mask (show 4 ≤ 64 by decide) a

theorem size_aligned (argv envp : List Str) : (execStackSize argv envp).toNat % 16 = 0 := by
  unfold execStackSize
  dsimp only
  generalize tableBytes argv envp + getArgStoreSize argv + getArgStoreSize envp = size
  have hlow := toNat_and_low size
  by_cases hfull : size &&& 0xF = 0
  · rw [if_neg (not_not.mpr hfull), ← hlow, hfull]
    rfl
  · rw [if_pos hfull, BitVec.toNat_add, toNat_or_low]
    show (_ + 1) % 2 ^ 64 % 16 = 0
    omega

/-- With the table counted right the size is that of the block, rounded up. -/
theorem size_eq {argv envp : List Str} (hcount : 4 + argv.length + envp.length < 2 ^ 32)
    (htotal : blockBytes argv envp < 2 ^ 63) :
    (execStackSize argv envp).toNat = (blockBytes argv envp + 15) / 16 * 16 := by
  have hsize : (tableBytes argv envp + getArgStoreSize argv + getArgStoreSize envp).toNat
      = blockBytes argv envp := by
    unfold blockBytes at htotal ⊢
    rw [BitVec.toNat_add, BitVec.toNat_add, tableBytes_eq, toNat_getArgStoreSize,
      toNat_getArgStoreSize, BitVec.toNat_ofNat]
    unfold countedEntries
    omega
  unfold execStackSize
  dsimp only
  generalize tableBytes argv envp + getArgStoreSize argv + getArgStoreSize envp = size at hsize
  have hlow := toNat_and_low size
  by_cases hfull : size &&& 0xF = 0
  · rw [hfull] at hlow
    have hzero : (0 : Word).toNat = 0 := rfl
    rw [if_neg (not_not.mpr hfull)]
    omega
  · -- `(size | 0xF) + 1` is the next multiple of 16
    have hne : (size &&& 0xF).toNat ≠ 0 := fun h => hfull (BitVec.eq_of_toNat_eq h)
    rw [if_pos hfull, BitVec.toNat_add, toNat_or_low]
    show (_ + 1) % 2 ^ 64 = _
    omega

theorem table_length (argv envp : List Str) :
    (table argv envp).length = 4 + argv.length + envp.length := by
  unfold table
  simp only [List.length_cons, List.length_append, List.length_map, List.length_nil]
  omega

theorem table_strings (argv envp : List Str) :
    tableStrings (table argv envp) = stringBytes argv + stringBytes envp := by
  have hword : ∀ (value : Word) (es : List Entry),
      tableStrings (.word value :: es) = tableStrings es :=
    fun _ _ => Nat.zero_add _
  unfold table
  rw [hword, tableStrings_append, hword, tableStrings_append, hword, hword, tableStrings_strings,
    tableStrings_strings]
  rfl

/-! ## §9. When the block is right. -/

section Main

variable {argv envp : List Str} {stackEnd : Word} {mem : ByteMemory}

/-- Where the block fits, it begins `execStackSize` below the end of the stack. -/
theorem toNat_execStack (hfits : (execStackSize argv envp).toNat ≤ stackEnd.toNat) :
    (execStack argv envp stackEnd).toNat = stackEnd.toNat - (execStackSize argv envp).toNat :=
  BitVec.toNat_sub_of_le (BitVec.le_def.mpr hfits)

theorem blockBytes_eq (hcount : 4 + argv.length + envp.length < 2 ^ 32) :
    blockBytes argv envp
      = 8 * countedEntries argv envp + (stringBytes argv + stringBytes envp) := by
  unfold blockBytes countedEntries
  rw [Nat.mod_eq_of_lt hcount]

/-- Up to the end of the stack an offset in the block is one in memory. -/
theorem toNat_block (htotal : blockBytes argv envp < 2 ^ 63)
    (hcount : 4 + argv.length + envp.length < 2 ^ 32)
    (hfits : blockBytes argv envp ≤ stackEnd.toNat) (haligned : stackEnd.toNat % 16 = 0)
    (offset : Nat) (hoffset : offset ≤ blockBytes argv envp) :
    (execStack argv envp stackEnd + BitVec.ofNat 64 offset).toNat
        = (execStack argv envp stackEnd).toNat + offset
      ∧ (execStack argv envp stackEnd).toNat + blockBytes argv envp ≤ stackEnd.toNat := by
  have hend := stackEnd.isLt
  have hsize := size_eq hcount htotal
  have hstack : (execStack argv envp stackEnd).toNat
      = stackEnd.toNat - (execStackSize argv envp).toNat := toNat_execStack (by omega)
  rw [BitVec.toNat_add, BitVec.toNat_ofNat]
  omega

/-- Every write goes to an offset in the block. -/
theorem setup_within (hcount : 4 + argv.length + envp.length < 2 ^ 32) :
    ∀ w ∈ setup argv envp stackEnd, ∃ offset,
      w.addr = execStack argv envp stackEnd + BitVec.ofNat 64 offset
        ∧ offset + w.bytes.length ≤ blockBytes argv envp := by
  intro w hw
  have hblock := blockBytes_eq hcount
  have htable : countedEntries argv envp = 4 + argv.length + envp.length := Nat.mod_eq_of_lt hcount
  rw [setup_eq] at hw
  have hlies := layout_lies _ _ _ 0 0 w hw
  rw [table_length, table_strings] at hlies
  obtain ⟨offset, bytes, rfl, -, hwhere⟩ := hlies
  refine ⟨offset, rfl, ?_⟩
  show offset + bytes.length ≤ _
  omega

theorem setup_apart (stackEnd : Word) (htotal : blockBytes argv envp < 2 ^ 63)
    (hcount : 4 + argv.length + envp.length < 2 ^ 32) :
    (setup argv envp stackEnd).Pairwise Write.Apart := by
  have hblock := blockBytes_eq hcount
  have htable : countedEntries argv envp = 4 + argv.length + envp.length := Nat.mod_eq_of_lt hcount
  have hlength := table_length argv envp
  have hstrings := table_strings argv envp
  rw [setup_eq]
  apply layout_apart
  · omega
  · omega

/-- **A block with few enough entries that fits is right.** -/
theorem right_of_fits (hargv : ∀ str ∈ argv, 0 ∉ str) (henvp : ∀ str ∈ envp, 0 ∉ str)
    (htotal : blockBytes argv envp < 2 ^ 63) (haligned : stackEnd.toNat % 16 = 0)
    (hcount : 4 + argv.length + envp.length < 2 ^ 32)
    (hfits : blockBytes argv envp ≤ stackEnd.toNat) : Right mem argv envp stackEnd := by
  have hend := stackEnd.isLt
  have hsize := size_eq hcount htotal
  have hblock := blockBytes_eq hcount
  have hapart := setup_apart stackEnd htotal hcount
  have haddr := toNat_block htotal hcount hfits haligned
  refine ⟨?_, fun w hw => ?_, hapart, ?_⟩
  · have halign := size_aligned argv envp
    unfold execStack
    rw [BitVec.toNat_sub]
    omega
  · obtain ⟨offset, hw, hlen⟩ := setup_within hcount w hw
    have hplace := haddr offset (by omega)
    rw [hw]
    omega
  · refine readsAs_of_table (8 * countedEntries argv envp) ?_ hargv henvp (by omega) ?_
    · rw [← setup_eq]
      refine readBytes_writeAll hapart (fun w hw => ?_) mem
      obtain ⟨offset, -, hlen⟩ := setup_within hcount w hw
      omega
    · -- a string lies behind `argc`, so not at address 0
      intro offset hlt hzero
      have hplace := haddr (8 * countedEntries argv envp + offset) (by omega)
      rw [hzero] at hplace
      have hnull : (0 : Word).toNat = 0 := rfl
      unfold countedEntries at hplace
      omega

/-- The entry of `argc` is the first one written. -/
theorem argc_written (argv envp : List Str) (stackEnd : Word) : ∃ w ∈ setup argv envp stackEnd,
    w.addr = execStack argv envp stackEnd ∧ w.bytes.length = 8 := by
  rw [setup_eq]
  exact ⟨_, List.mem_cons_self .., BitVec.add_zero _, length_wordBytes _⟩

/-- A right block has fewer than `2^32` entries: behind that the strings begin
inside the table. -/
theorem Right.count (h : Right mem argv envp stackEnd) :
    4 + argv.length + envp.length < 2 ^ 32 := by
  refine Nat.lt_of_not_le fun hmany => ?_
  have hstring : ∃ str, Entry.string str ∈ table argv envp := by
    cases argv with
    | cons str argv => exact ⟨str, List.mem_cons_of_mem _ (List.mem_cons_self ..)⟩
    | nil =>
        cases envp with
        | cons str envp => exact ⟨str, by simp [table]⟩
        | nil => exact absurd hmany (by decide)
  obtain ⟨str, hstr⟩ := hstring
  have hapart := h.apart
  rw [setup_eq] at hapart
  refine layout_overlaps _ hstr (Nat.zero_le _) ?_ hapart
  rw [table_length]
  unfold countedEntries
  omega

/-- A right block fits below the end of the stack. -/
theorem Right.fits (h : Right mem argv envp stackEnd) (htotal : blockBytes argv envp < 2 ^ 63) :
    blockBytes argv envp ≤ stackEnd.toNat := by
  have hend := stackEnd.isLt
  have hsize := size_eq h.count htotal
  obtain ⟨w, hw, haddr, hlen⟩ := argc_written argv envp stackEnd
  have hwithin := h.within w hw
  rw [haddr, hlen] at hwithin
  refine Nat.le_of_not_lt fun hlow => ?_
  -- the difference wraps, so that the block begins above its own end
  have hwraps : (execStack argv envp stackEnd).toNat
      = 2 ^ 64 + stackEnd.toNat - (execStackSize argv envp).toNat := by
    unfold execStack
    rw [BitVec.toNat_sub]
    omega
  omega

end Main

/-- **`execve` copies what it is given, and the block it writes is right EXACTLY
WHEN the table has fewer than `2^32` entries and the block fits below the end of
the stack.** -/
theorem exec_stack_iff {argv envp : List Str} {stackEnd : Word} (mem : ByteMemory)
    (hargv : ∀ str ∈ argv, 0 ∉ str) (henvp : ∀ str ∈ envp, 0 ∉ str)
    (htotal : blockBytes argv envp < 2 ^ 63) (haligned : stackEnd.toNat % 16 = 0) :
    (∀ user p, Passed user p argv → ∃ chars fuel, copyStrings user chars fuel p = some argv)
      ∧ (∀ user p, Passed user p envp → ∃ chars fuel, copyStrings user chars fuel p = some envp)
      ∧ (Right mem argv envp stackEnd
        ↔ 4 + argv.length + envp.length < 2 ^ 32 ∧ blockBytes argv envp ≤ stackEnd.toNat) :=
  ⟨fun _ _ => copyStrings_passed, fun _ _ => copyStrings_passed,
    fun h => ⟨h.count, h.fits htotal⟩,
    fun ⟨hcount, hfits⟩ => right_of_fits hargv henvp htotal haligned hcount hfits⟩

/-- One argument and an empty variable, at the usual place. -/
theorem exec_stack_iff_small :
    Right (fun _ => 0) [[0x6C, 0x73]] [[]] 0x7FFF00000000 :=
  (exec_stack_iff (fun _ => 0) (by decide) (by decide) (by decide) (by decide)).2.2.mpr (by decide)

/-- The block of `n` empty arguments. -/
theorem blockBytes_replicate (n : Nat) : blockBytes (List.replicate n []) [] = 32 + 9 * n := by
  unfold blockBytes
  rw [stringBytes_replicate, List.length_replicate]
  show 8 * (4 + n + 0) + (n * (0 + 1) + 0) = _
  omega

/-- `2^32 - 4` empty arguments: the table counts as empty. -/
theorem exec_stack_overlaps :
    blockBytes (List.replicate 4294967292 []) [] < 2 ^ 63
      ∧ ¬ Right (fun _ => 0) (List.replicate 4294967292 []) [] 0x7FFF00000000 := by
  constructor
  · rw [blockBytes_replicate]
    omega
  · intro h
    have hcount := h.count
    rw [List.length_replicate] at hcount
    have hnone : ([] : List Str).length = 0 := rfl
    omega

end MierOS.Tasking.ExecStack
