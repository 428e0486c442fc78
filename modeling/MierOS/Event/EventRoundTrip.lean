/-
  MierOS.Event.EventRoundTrip
  **THE ROUND TRIP OF AN EVENT'S ARGUMENTS**: constructing the event, then
  `get_arg` for one argument after the other.

  The count of an array of strings begins at what its place in the storage held
  before.  The array is followed by a gap of as many bytes, for the encoder and
  for the decoder alike; where the 16 bits go around, the next argument is
  written over the array.

  Main results: `roundTrips_iff_fits`, `event_codec_iff`.
-/
import MierOS.Event.EventArg

namespace MierOS.EventArgs

open Lib
open Tasking.ExecStack

/-! ## §1. Gaps. -/

/-- What the count of an array of strings at this offset begins at. -/
def countAt (s : Storage) (mem : ByteMemory) (pos : Nat) : Nat :=
  (readHalf mem (s.place pos)).toNat

section Extent

variable (count : Nat → Nat)

/-- From this argument to the next one: behind an array of strings there is a gap
of as many bytes as its count began at. -/
def Arg.extent (pos : Nat) : Arg → Nat
  | .strings strs noNul => (Arg.strings strs noNul).size + count pos
  | arg => arg.size

/-- Every argument lies in the storage. -/
def Fits : Nat → List Arg → Prop
  | _, [] => True
  | pos, arg :: args => pos + arg.size ≤ 1024 ∧ Fits (pos + arg.extent count pos) args

/-- No count goes around, except that of the last argument: what follows an array
is not written over it. -/
def NoneAround : Nat → List Arg → Prop
  | pos, arg :: arg' :: args =>
      arg.extent count pos < 2 ^ 16 ∧ NoneAround (pos + arg.extent count pos) (arg' :: args)
  | _, _ => True

end Extent

/-! ## §2. Where the arguments go. -/

section Run

variable {s : Storage} {count : Nat → Nat}

theorem place_zero (s : Storage) : s.place 0 = s.addr := BitVec.add_zero _

theorem place_add (s : Storage) (pos n : Nat) :
    s.place pos + BitVec.ofNat 64 n = s.place (pos + n) := by
  unfold Storage.place
  rw [BitVec.ofNat_add, BitVec.add_assoc]

theorem place_sub (s : Storage) {pos : Nat} (hpos : pos < 2 ^ 64) :
    (s.place pos - s.addr).toNat = pos := add_sub_ofNat hpos

theorem toNat_place (s : Storage) {pos : Nat} (hpos : pos < 1024) :
    (s.place pos).toNat = s.addr.toNat + pos := by
  have hfits := s.fits
  unfold Storage.place
  rw [BitVec.toNat_add, BitVec.toNat_ofNat]
  omega

/-- A place in the storage is a range of offsets. -/
theorem offset_of_place {pos n : Nat} (hfits : pos + n ≤ 2 ^ 64) {x : Word}
    (hx : (x - s.place pos).toNat < n) :
    pos ≤ (x - s.addr).toNat ∧ (x - s.addr).toNat < pos + n := by
  have hlt := (x - s.addr).isLt
  unfold Storage.place at hx
  rw [offset_in_range (by omega)] at hx
  omega

/-- An argument leaves the storage in front of it and behind it alone. -/
theorem encode_frame (mem : ByteMemory) {pos : Nat} {arg : Arg} (hfits : pos + arg.size ≤ 1024)
    {x : Word} (hx : (x - s.addr).toNat < pos ∨ pos + arg.size ≤ (x - s.addr).toNat) :
    (encode mem (s.place pos) arg).1 x = mem x := by
  apply (encode_encoded mem (s.place pos) (by omega)).frame
  refine Nat.le_of_not_lt fun hin => ?_
  have hoffset := offset_of_place (by omega) hin
  omega

/-- From `pos` on the memory has these numbers. -/
def Agrees (s : Storage) (count : Nat → Nat) (mem : ByteMemory) (pos : Nat) : Prop :=
  ∀ q, pos ≤ q → q < 1024 → countAt s mem q = count q

/-- Behind an argument they are as before. -/
theorem Agrees.encode {mem : ByteMemory} {pos next : Nat} {arg : Arg} (h : Agrees s count mem pos)
    (hfits : pos + arg.size ≤ 1024) (hnext : pos + arg.size ≤ next) :
    Agrees s count (encode mem (s.place pos) arg).1 next := by
  intro q hle hlt
  rw [← h q (by omega) hlt]
  unfold countAt
  congr 1
  apply readHalf_congr
  intro x hx
  exact encode_frame mem hfits (Or.inr (by have hin := offset_of_place (by omega) hx; omega))

theorem size_pos (arg : Arg) : 0 < arg.size := by
  cases arg with
  | value bytes sized => exact sized
  | null => exact Nat.succ_pos _
  | string str noNul => exact Nat.succ_pos _
  | strings strs noNul =>
      show 0 < 2 + 8 * (strs.length + 1) + stringBytes strs
      omega

theorem ten_le_size {arg : Arg} (h : arg.kind = .strings) : 10 ≤ arg.size := by
  cases arg with
  | strings strs noNul =>
      show 10 ≤ 2 + 8 * (strs.length + 1) + stringBytes strs
      omega
  | value bytes sized => exact nomatch h
  | null => exact nomatch h
  | string str noNul => exact nomatch h

theorem size_le_extent (count : Nat → Nat) (arg : Arg) (pos : Nat) :
    arg.size ≤ arg.extent count pos := by
  cases arg with
  | strings strs noNul => exact Nat.le_add_right _ _
  | value bytes sized => exact Nat.le_refl _
  | null => exact Nat.le_refl _
  | string str noNul => exact Nat.le_refl _

theorem extent_of_kind {arg : Arg} (h : arg.kind ≠ .strings) (pos : Nat) :
    arg.extent count pos = arg.size := by
  cases arg with
  | strings strs noNul => exact absurd rfl h
  | value bytes sized => rfl
  | null => rfl
  | string str noNul => rfl

theorem extent_of_strings {arg : Arg} (h : arg.kind = .strings) (pos : Nat) :
    arg.extent count pos = arg.size + count pos := by
  cases arg with
  | strings strs noNul => rfl
  | value bytes sized => exact nomatch h
  | null => exact nomatch h
  | string str noNul => exact nomatch h

/-- The count comes out as the extent, modulo 2^16. -/
theorem encode_extent {mem : ByteMemory} {pos : Nat} (arg : Arg) (hsize : arg.size ≤ 2 ^ 64)
    (hcount : countAt s mem pos = count pos) :
    AllThere (encode mem (s.place pos) arg).1
        (arg.writes (s.place pos) (BitVec.ofNat 16 (arg.extent count pos)))
      ∧ (encode mem (s.place pos) arg).2
        = arg.advance (BitVec.ofNat 16 (arg.extent count pos)) := by
  have hencoded := encode_encoded mem (s.place pos) hsize
  cases arg with
  | strings strs noNul =>
      have hsum : readHalf mem (s.place pos) + BitVec.ofNat 16 (Arg.strings strs noNul).size
          = BitVec.ofNat 16 ((Arg.strings strs noNul).extent count pos) := by
        have hread : BitVec.ofNat 16 (count pos) = readHalf mem (s.place pos) := by
          rw [← hcount]
          show BitVec.ofNat 16 (readHalf mem (s.place pos)).toNat = _
          rw [BitVec.ofNat_toNat, BitVec.setWidth_eq]
        rw [extent_of_strings rfl, BitVec.ofNat_add, hread, BitVec.add_comm]
      rw [hsum] at hencoded
      exact ⟨hencoded.there, hencoded.next⟩
  | value bytes sized => exact ⟨hencoded.there, hencoded.next⟩
  | null => exact ⟨hencoded.there, hencoded.next⟩
  | string str noNul => exact ⟨hencoded.there, hencoded.next⟩

/-- An extent that does not go around is how far the buffer goes on. -/
theorem advance_extent {arg : Arg} {pos : Nat} (h : arg.extent count pos < 2 ^ 16) :
    arg.advance (BitVec.ofNat 16 (arg.extent count pos))
      = BitVec.ofNat 64 (arg.extent count pos) := by
  cases arg with
  | strings strs noNul => exact BitVec.setWidth_ofNat_of_le_of_lt (by decide) h
  | value bytes sized => rfl
  | null => rfl
  | string str noNul => rfl

/-- One step of `encode_arg` inside the storage. -/
theorem encodeArg_cons {mem : ByteMemory} {pos n : Nat} {arg : Arg} {args : List Arg}
    (hfits : pos + arg.size ≤ 1024)
    (hnext : args = [] ∨ (encode mem (s.place pos) arg).2 = BitVec.ofNat 64 n) :
    encodeArg s mem (s.place pos) (arg :: args)
      = (encodeArg s (encode mem (s.place pos) arg).1 (s.place (pos + n)) args).map
          fun r => (r.1, s.place pos :: r.2) := by
  rw [encodeArg, place_sub s (by omega), if_pos hfits]
  rcases hnext with rfl | hnext
  · -- behind the last argument nothing is encoded
    rfl
  · dsimp only
    rw [hnext, place_add]

/-- One step of `encode_arg` that goes over the end. -/
theorem encodeArg_over {mem : ByteMemory} {pos : Nat} {arg : Arg} (args : List Arg)
    (hpos : pos < 2 ^ 64) (hover : 1024 < pos + arg.size) :
    encodeArg s mem (s.place pos) (arg :: args) = none := by
  rw [encodeArg, place_sub s hpos, if_neg (Nat.not_le.mpr hover)]

theorem Fits.start {args : List Arg} {pos : Nat} (h : Fits count pos args) :
    args = [] ∨ pos < 1024 := by
  cases args with
  | nil => exact Or.inl rfl
  | cons arg args =>
      have hpos := size_pos arg
      have hle := h.1
      exact Or.inr (by omega)

theorem Fits.noneAround {args : List Arg} :
    ∀ {pos : Nat}, Fits count pos args → NoneAround count pos args := by
  induction args with
  | nil => exact fun _ => trivial
  | cons arg args ih =>
      intro pos h
      cases args with
      | nil => exact trivial
      | cons arg' args =>
          have hlt := h.2.start.resolve_left fun hnil => nomatch hnil
          exact ⟨by omega, ih h.2⟩

/-- Where the arguments go. -/
def places (s : Storage) (count : Nat → Nat) : Nat → List Arg → List Word
  | _, [] => []
  | pos, arg :: args => s.place pos :: places s count (pos + arg.extent count pos) args

/-- The arguments are in memory from `pos` on. -/
def Stored (s : Storage) (count : Nat → Nat) (mem : ByteMemory) : Nat → List Arg → Prop
  | _, [] => True
  | pos, arg :: args =>
      AllThere mem (arg.writes (s.place pos) (BitVec.ofNat 16 (arg.extent count pos)))
        ∧ Stored s count mem (pos + arg.extent count pos) args

/-- **Arguments that fit are all encoded.** -/
theorem encodeArg_fits {args : List Arg} :
    ∀ {pos : Nat} {mem : ByteMemory}, Fits count pos args → Agrees s count mem pos →
      ∃ mem', encodeArg s mem (s.place pos) args = some (mem', places s count pos args)
        ∧ Stored s count mem' pos args ∧ ∀ x, (x - s.addr).toNat < pos → mem' x = mem x := by
  induction args with
  | nil => exact fun {_ mem} _ _ => ⟨mem, rfl, trivial, fun _ _ => rfl⟩
  | cons arg args ih =>
      intro pos mem ⟨hhere, hrest⟩ hagrees
      -- one `encode`, behind which the counts are still those of the beginning
      have hpos := size_pos arg
      have hextent := size_le_extent count arg pos
      obtain ⟨hthere, hnext⟩ := encode_extent arg (by omega)
        (hagrees pos (Nat.le_refl _) (by omega))
      obtain ⟨mem', hencode, hstored, hkept⟩ := ih hrest (hagrees.encode hhere (by omega))
      refine ⟨mem', ?_, ⟨fun w hw => ?_, hstored⟩, fun x hx => ?_⟩
      · -- the last argument may move the buffer anywhere
        have hadvance : args = [] ∨ (encode mem (s.place pos) arg).2
            = BitVec.ofNat 64 (arg.extent count pos) := by
          refine hrest.start.imp id fun hlt => ?_
          rw [hnext, advance_extent (by omega)]
        rw [encodeArg_cons hhere hadvance, hencode]
        rfl
      · -- the later arguments leave this one as it is
        have hwithin := Arg.writes_within _ _ _ w hw
        refine (hthere w hw).congr (by have hle := hwithin.length_le; omega) fun x hx => ?_
        have hin := offset_of_place (by omega) (hwithin.covers (by omega) hx).2
        exact hkept x (by omega)
      · rw [hkept x (by omega), encode_frame mem hhere (Or.inl hx)]

/-- **Arguments that do not fit go over the end**, unless a count goes around. -/
theorem encodeArg_none {args : List Arg} :
    ∀ {pos : Nat} {mem : ByteMemory}, NoneAround count pos args → ¬ Fits count pos args →
      pos < 2 ^ 17 → Agrees s count mem pos → encodeArg s mem (s.place pos) args = none := by
  induction args with
  | nil => exact fun _ hnot _ _ => absurd trivial hnot
  | cons arg args ih =>
      intro pos mem haround hnot hpos hagrees
      by_cases hhere : pos + arg.size ≤ 1024
      · -- this one fits, so it is a later one that does not
        cases args with
        | nil => exact absurd ⟨hhere, trivial⟩ hnot
        | cons arg' args =>
            have hlt := haround.1
            have hsize := size_pos arg
            have hextent := size_le_extent count arg pos
            obtain ⟨-, hnext⟩ := encode_extent arg (by omega)
              (hagrees pos (Nat.le_refl _) (by omega))
            rw [advance_extent hlt] at hnext
            rw [encodeArg_cons hhere (Or.inr hnext), ih haround.2 (fun hrest => hnot ⟨hhere, hrest⟩)
              (by omega) (hagrees.encode hhere (by omega))]
            rfl
      · exact encodeArg_over args (by omega) (Nat.lt_of_not_le hhere)

/-- **Stored arguments are taken out again.** -/
theorem getArgs_of_stored {mem : ByteMemory} {args : List Arg} :
    ∀ {pos : Nat} {e : Event}, Stored s count mem pos args → Fits count pos args →
      (args = [] ∨ e.argPtr = s.place pos) →
      ∃ last, GetArgs mem e args (places s count pos args) last := by
  induction args with
  | nil => exact fun {_ e} _ _ _ => ⟨e, .nil e⟩
  | cons arg args ih =>
      intro pos e ⟨hthere, hstored⟩ ⟨hhere, hrest⟩ hat
      have hptr := hat.resolve_left fun hnil => nomatch hnil
      have hpos := size_pos arg
      have hplace := toNat_place s (show pos < 1024 by omega)
      have hstorage := s.fits
      obtain ⟨chars, got, hdecode, hgot⟩ := decode_encoded hthere (by omega)
      -- `decode` goes on by the count that `encode` left
      obtain ⟨last, hlast⟩ := ih (e := { e with
          argPtr := s.place pos + arg.advance (BitVec.ofNat 16 (arg.extent count pos)) })
        hstored hrest (hrest.start.imp id fun hlt => by
          show s.place pos + _ = _
          rw [advance_extent (by omega), place_add])
      have hget : e.getArg mem chars arg.kind = some (got, { e with
          argPtr := s.place pos + arg.advance (BitVec.ofNat 16 (arg.extent count pos)) }) := by
        unfold Event.getArg
        rw [hptr, hdecode]
        rfl
      refine ⟨last, ?_⟩
      show GetArgs mem e (arg :: args) (s.place pos :: places s count _ args) last
      rw [← hptr]
      exact .cons hget hgot hlast

end Run

/-- **The arguments come back, with no array written over, EXACTLY WHEN they fit**
with the gaps that the counts make. -/
theorem roundTrips_iff_fits (s : Storage) (mem : ByteMemory) (id : Word) (args : List Arg) :
    RoundTrips s mem id args ∧ NoneAround (countAt s mem) 0 args
      ↔ Fits (countAt s mem) 0 args := by
  constructor
  · rintro ⟨⟨e, mem', starts, last, last', hconstruct, -⟩, haround⟩
    -- what does not fit is written behind the storage
    refine Classical.byContradiction fun hnot => ?_
    have hnone := encodeArg_none (s := s) haround hnot (by decide) fun q _ _ => rfl
    unfold construct at hconstruct
    rw [← place_zero s, hnone] at hconstruct
    exact nomatch hconstruct
  · intro hfits
    obtain ⟨mem', hencode, hstored, -⟩ := encodeArg_fits (s := s) hfits fun q _ _ => rfl
    obtain ⟨last, hget⟩ := getArgs_of_stored (e := ⟨id, s.addr, 2, 0⟩) hstored hfits
      (Or.inr (place_zero s).symm)
    obtain ⟨last', hagain⟩ := getArgs_of_stored (e := last.resetArgPtr s) hstored hfits
      (Or.inr (place_zero s).symm)
    refine ⟨⟨_, mem', _, last, last', ?_, hget, hagain⟩, hfits.noneAround⟩
    unfold construct
    rw [← place_zero s, hencode]
    rfl

/-! ## §3. Lists that come back from every storage. -/

section Lists

variable {count : Nat → Nat}

/-- Without a gap the arguments take their sizes. -/
theorem fits_of_kinds {args : List Arg} (hkinds : ∀ arg ∈ args.dropLast, arg.kind ≠ .strings) :
    ∀ {pos : Nat}, pos + encodedSize args ≤ 1024 → Fits count pos args := by
  induction args with
  | nil => exact fun _ => trivial
  | cons arg args ih =>
      intro pos hfits
      have hsize : encodedSize (arg :: args) = arg.size + encodedSize args := rfl
      refine ⟨by omega, ?_⟩
      cases args with
      | nil => exact trivial
      | cons arg' args =>
          -- not the last one, so no array
          rw [extent_of_kind (hkinds arg (List.mem_cons_self ..))]
          exact ih (fun a ha => hkinds a (List.mem_cons_of_mem _ ha)) (by omega)

/-- A gap of 1028 bytes does not fit. -/
theorem not_fits_of_strings (hcount : ∀ q, count q = 1028) {args : List Arg}
    (h : ∃ arg ∈ args.dropLast, arg.kind = .strings) : ∀ {pos : Nat}, ¬ Fits count pos args := by
  induction args with
  | nil => exact nomatch h
  | cons arg args ih =>
      intro pos hfits
      cases args with
      | nil => exact nomatch h
      | cons arg' args =>
          by_cases hkind : arg.kind = .strings
          · -- the next argument begins behind the storage
            have hlt := hfits.2.start.resolve_left fun hnil => nomatch hnil
            rw [extent_of_strings hkind, hcount] at hlt
            omega
          · obtain ⟨a, ha, hstrings⟩ := h
            rcases List.mem_cons.mp ha with rfl | ha
            · exact hkind hstrings
            · exact ih ⟨a, ha, hstrings⟩ hfits.2

/-- Counts around 1028 do not go around. -/
theorem noneAround_of_small (hcount : ∀ q, count q = 1028) {args : List Arg} :
    ∀ {pos : Nat}, encodedSize args < 1024 → NoneAround count pos args := by
  induction args with
  | nil => exact fun _ => trivial
  | cons arg args ih =>
      intro pos hsmall
      have hsize : encodedSize (arg :: args) = arg.size + encodedSize args := rfl
      cases args with
      | nil => exact trivial
      | cons arg' args =>
          refine ⟨?_, ih (by omega)⟩
          by_cases hkind : arg.kind = .strings
          · rw [extent_of_strings hkind, hcount]
            omega
          · rw [extent_of_kind hkind]
            omega

theorem countAt_fours (s : Storage) (q : Nat) : countAt s (fun _ => 4) q = 1028 := by
  unfold countAt
  rw [toNat_readHalf]
  rfl

/-- **An array of strings in front of another argument is lost in some storage.** -/
theorem not_roundTrips_of_strings {s : Storage} {id : Word} {args : List Arg}
    (hsize : encodedSize args < 1024) (h : ∃ arg ∈ args.dropLast, arg.kind = .strings) :
    ¬ RoundTrips s (fun _ => 4) id args := by
  intro htrips
  have hcount := countAt_fours s
  have hfits := (roundTrips_iff_fits s (fun _ => 4) id args).mp
    ⟨htrips, noneAround_of_small hcount hsize⟩
  exact not_fits_of_strings hcount h hfits

end Lists

/-! ## §4. Storages that give back every list. -/

section Storages

variable {s : Storage} {mem : ByteMemory}

/-- An array that reads as empty begins with a null pointer. -/
theorem readWord_of_copyArray {mem : ByteMemory} {chars fuel : Nat} {addr : Word}
    (h : copyArray mem chars fuel addr = some []) : readWord mem addr = 0 := by
  refine Decidable.byContradiction fun hptr => ?_
  have hrun : Loop.Returns (copyRound mem chars) (addr, []) (some []) :=
    ⟨fuel, by rw [← Option.join_eq_some_iff]; exact h⟩
  cases hnew : newString mem chars (readWord mem addr) with
  | none =>
      have hround : copyRound mem chars (addr, []) = .inr none := by
        unfold copyRound
        simp only [hnew, if_pos hptr]
      exact nomatch (Loop.returns_inr_iff hround).mp hrun
  | some str =>
      have hround : copyRound mem chars (addr, []) = .inl (addr + 8, [str]) := by
        unfold copyRound
        simp only [hnew, if_pos hptr]
        rfl
      -- from then on there is a string in the store, whatever the loop does
      refine Loop.post_of_returns (fun t : Word × List Str => t.2 ≠ []) (fun r => r ≠ some [])
        (fun t t' ht hbody => ?_) (fun t r ht hbody => ?_) (by simp)
        ((Loop.returns_inl_iff hround).mp hrun) rfl
      · unfold copyRound at hbody
        split at hbody
        · split at hbody
          · exact nomatch hbody
          · rw [← Sum.inl.inj hbody]
            simp
        · exact nomatch hbody
      · unfold copyRound at hbody
        split at hbody
        · split at hbody
          · rw [← Sum.inr.inj hbody]
            simp
          · exact nomatch hbody
        · rw [← Sum.inr.inj hbody]
          simpa using ht

theorem GetArgs.cons_inv {mem : ByteMemory} {e last : Event} {arg : Arg} {args : List Arg}
    {start : Word} {starts : List Word} (h : GetArgs mem e (arg :: args) (start :: starts) last) :
    e.argPtr = start ∧ ∃ chars got e', e.getArg mem chars arg.kind = some (got, e')
      ∧ Denotes mem got arg ∧ GetArgs mem e' args starts last := by
  cases h with
  | cons hget hgot hrest => exact ⟨rfl, _, _, _, hget, hgot, hrest⟩

theorem countAt_eq (s : Storage) (mem : ByteMemory) (pos : Nat) :
    countAt s mem pos = (mem (s.place pos)).toNat + 256 * (mem (s.place (pos + 1))).toNat := by
  unfold countAt
  rw [toNat_readHalf, ← place_add]
  rfl

/-- An array that is empty. -/
def noStrings : Arg := .strings [] fun _ h => nomatch h

/-- The first ten bytes of an empty array are small: its count, if that is one of
its own offsets, and a null pointer. -/
theorem byte_of_noStrings {mem : ByteMemory} {pos n : Nat} (hn : n ≤ 9)
    (hcount : countAt s mem pos = n) (hnull : readWord mem (s.place pos + 2) = 0) :
    mem (s.place (pos + n)) ≠ 1 := by
  intro hbyte
  have hone : (1 : BitVec 8).toNat = 1 := rfl
  rw [countAt_eq] at hcount
  rcases Nat.lt_or_ge n 2 with hlow | hhigh
  · -- a byte of the count
    rcases (show n = 0 ∨ n = 1 by omega) with rfl | rfl
    · rw [show mem (s.place pos) = 1 from hbyte, hone] at hcount
      omega
    · rw [hbyte, hone] at hcount
      omega
  · -- a byte of the pointer
    have hbytes := holdsWord_readWord mem (s.place pos + 2) (n - 2) (by omega)
    have hplace : s.place pos + 2 + BitVec.ofNat 64 (n - 2) = s.place (pos + n) := by
      show s.place pos + BitVec.ofNat 64 2 + _ = _
      rw [place_add, place_add]
      congr 1
      omega
    have hzero : byteAt 0 (n - 2) = 0 := by
      unfold byteAt
      exact BitVec.extractLsb'_zero
    rw [hnull, hplace, hbyte, hzero] at hbytes
    exact absurd hbytes (by decide)

/-- An empty array whose last bytes have been written over is not taken out. -/
theorem not_getArgs_of_overwritten {mem : ByteMemory} {e last : Event} {pos n : Nat} {arg : Arg}
    (hn : n ≤ 9) (hbyte : mem (s.place (pos + n)) = 1) :
    ¬ GetArgs mem e [noStrings, arg] [s.place pos, s.place (pos + n)] last := by
  intro h
  obtain ⟨hptr, chars, got, e', hget, hgot, hrest⟩ := h.cons_inv
  obtain ⟨hnext, -⟩ := hrest.cons_inv
  have hresult : (Decoded.strings (e.argPtr + 2),
      { e with argPtr := e.argPtr + (readHalf mem e.argPtr).setWidth 64 }) = (got, e') :=
    Option.some.inj hget
  rw [hptr] at hresult
  obtain ⟨rfl, rfl⟩ := Prod.mk.inj hresult
  obtain ⟨chars, fuel, hcopy⟩ := hgot
  refine byte_of_noStrings hn ?_ (readWord_of_copyArray hcopy) hbyte
  -- the count is what the buffer moved by
  rw [← place_add] at hnext
  have hskip := congrArg BitVec.toNat ((BitVec.add_right_inj _).mp hnext)
  have hlt := (readHalf mem (s.place pos)).isLt
  rw [BitVec.toNat_setWidth, BitVec.toNat_ofNat] at hskip
  unfold countAt
  omega

/-- A value of `n + 1` bytes. -/
def zeros (n : Nat) : Arg :=
  .value (List.replicate (n + 1) 0) (by rw [List.length_replicate]; exact Nat.succ_pos n)

theorem size_zeros (n : Nat) : (zeros n).size = n + 1 := List.length_replicate

/-- A value of `n` bytes, or nothing. -/
def filler : Nat → List Arg
  | 0 => []
  | n + 1 => [zeros n]

theorem encodedSize_filler (n : Nat) (rest : List Arg) :
    encodedSize (filler n ++ rest) = n + encodedSize rest := by
  cases n with
  | zero => exact (Nat.zero_add _).symm
  | succ n => exact congrArg (· + encodedSize rest) (size_zeros n)

theorem fits_filler {count : Nat → Nat} {n : Nat} {rest : List Arg}
    (h : Fits count 0 (filler n ++ rest)) : Fits count n rest := by
  cases n with
  | zero => exact h
  | succ n =>
      have hrest : Fits count (0 + (zeros n).size) rest := h.2
      rwa [size_zeros, Nat.zero_add] at hrest

theorem noneAround_filler {count : Nat → Nat} {n : Nat} {arg : Arg} {rest : List Arg}
    (hn : n < 2 ^ 16) (h : NoneAround count n (arg :: rest)) :
    NoneAround count 0 (filler n ++ arg :: rest) := by
  cases n with
  | zero => exact h
  | succ n =>
      show (zeros n).size < 2 ^ 16 ∧ NoneAround count (0 + (zeros n).size) (arg :: rest)
      rw [size_zeros, Nat.zero_add]
      exact ⟨hn, h⟩

/-- Any place of the storage can be reached with its count as it was. -/
theorem encodeArg_filler (s : Storage) (mem : ByteMemory) (rest : List Arg) {pos : Nat}
    (hpos : pos < 1024) : ∃ mem' front, countAt s mem' pos = countAt s mem pos
      ∧ front.length = (filler pos).length
      ∧ encodeArg s mem (s.place 0) (filler pos ++ rest)
        = (encodeArg s mem' (s.place pos) rest).map fun r => (r.1, front ++ r.2) := by
  cases pos with
  | zero => exact ⟨mem, [], rfl, rfl, (Option.map_id_apply).symm⟩
  | succ n =>
      have hsize := size_zeros n
      have hagrees : Agrees s (countAt s mem) mem 0 := fun _ _ _ => rfl
      have hkept : Agrees s (countAt s mem) (encode mem (s.place 0) (zeros n)).1 (n + 1) :=
        hagrees.encode (by omega) (by omega)
      have hnext : (encode mem (s.place 0) (zeros n)).2 = BitVec.ofNat 64 (n + 1) :=
        congrArg (BitVec.ofNat 64) (size_zeros n)
      have hcons := encodeArg_cons (show 0 + (zeros n).size ≤ 1024 by omega)
        (show rest = [] ∨ _ from Or.inr hnext)
      rw [Nat.zero_add] at hcons
      exact ⟨_, [s.place 0], hkept _ (Nat.le_refl _) hpos, rfl, hcons⟩

/-- The arguments behind some others are taken out as well. -/
theorem GetArgs.drop {mem : ByteMemory} {front rest : List Arg} :
    ∀ {e last : Event} {starts starts' : List Word},
      GetArgs mem e (front ++ rest) (starts ++ starts') last → starts.length = front.length →
      ∃ e', GetArgs mem e' rest starts' last := by
  induction front with
  | nil =>
      intro e last starts starts' h hlength
      rw [List.length_eq_zero_iff.mp hlength] at h
      exact ⟨e, h⟩
  | cons arg front ih =>
      intro e last starts starts' h hlength
      cases starts with
      | nil => exact nomatch hlength
      | cons start starts =>
          obtain ⟨-, chars, got, e', -, -, hrest⟩ := GetArgs.cons_inv h
          exact ih hrest (Nat.succ.inj hlength)

/-- A count that goes around: the next argument is written over the array. -/
theorem not_roundTrips_of_around {id : Word} {pos n : Nat} (bytes : List (BitVec 8))
    (hlength : pos + 10 + (bytes.length + 1) = 1023)
    (haround : 10 + countAt s mem pos = 2 ^ 16 + n) :
    ¬ RoundTrips s mem id (filler pos ++ [noStrings, .value (1 :: bytes) (Nat.succ_pos _)]) := by
  have hlt : countAt s mem pos < 2 ^ 16 := (readHalf mem (s.place pos)).isLt
  have hsize : noStrings.size = 10 := rfl
  have hextent : noStrings.extent (countAt s mem) pos = 10 + countAt s mem pos := rfl
  obtain ⟨mem', front, hsame, hfront, hencode⟩ := encodeArg_filler s mem
    [noStrings, .value (1 :: bytes) (Nat.succ_pos _)] (show pos < 1024 by omega)
  -- the buffer goes on by less than the array takes
  have hadvance : (encode mem' (s.place pos) noStrings).2 = BitVec.ofNat 64 n := by
    rw [(@encode_extent s (countAt s mem) mem' pos noStrings (by omega) hsame).2, hextent, haround]
    apply BitVec.eq_of_toNat_eq
    show ((BitVec.ofNat 16 (2 ^ 16 + n)).setWidth 64).toNat = _
    rw [BitVec.toNat_setWidth, BitVec.toNat_ofNat, BitVec.toNat_ofNat]
    omega
  rw [encodeArg_cons (by omega) (Or.inr hadvance),
    encodeArg_cons (n := 0) (show pos + n + (bytes.length + 1) ≤ 1024 by omega) (Or.inl rfl)]
    at hencode
  rintro ⟨e, final, starts, last, last', hconstruct, hget, -⟩
  unfold construct at hconstruct
  rw [← place_zero s, hencode] at hconstruct
  obtain ⟨-, hresult⟩ := Prod.mk.inj (Option.some.inj hconstruct)
  obtain ⟨rfl, rfl⟩ := Prod.mk.inj hresult
  obtain ⟨e', hrest⟩ := hget.drop hfront
  refine not_getArgs_of_overwritten (show n ≤ 9 by omega) ?_ hrest
  show Write.apply _ ⟨s.place (pos + n), 1 :: bytes⟩ (s.place (pos + n)) = 1
  unfold Write.apply
  rw [BitVec.sub_self]
  rfl

/-- **A count that begins at 2 or more loses an argument**: the next one goes over
the end of the storage, or over the array where the count goes around. -/
theorem not_roundTrips_of_count {id : Word} {pos : Nat} (bytes : List (BitVec 8))
    (hlength : pos + 10 + (bytes.length + 1) = 1023) (hcount : 2 ≤ countAt s mem pos) :
    ¬ RoundTrips s mem id (filler pos ++ [noStrings, .value (1 :: bytes) (Nat.succ_pos _)]) := by
  by_cases hshort : 10 + countAt s mem pos < 2 ^ 16
  · intro htrips
    have hfits := fits_filler ((roundTrips_iff_fits s mem id _).mp
      ⟨htrips, noneAround_filler (by omega) ⟨hshort, trivial⟩⟩)
    have hover : pos + (10 + countAt s mem pos) + (bytes.length + 1) ≤ 1024 := hfits.2.1
    omega
  · exact not_roundTrips_of_around bytes hlength
      (show _ = 2 ^ 16 + (10 + countAt s mem pos - 2 ^ 16) by omega)

/-- Counts that begin at 0 leave no gap.  The last array that an argument follows
begins 11 bytes before the end at the latest. -/
theorem fits_of_zero {count : Nat → Nat} {bound : Nat} (hbound : bound ≤ 1013) {args : List Arg} :
    ∀ {pos : Nat}, (∀ q, pos ≤ q → q ≤ bound → count q = 0) →
      pos + encodedSize args ≤ bound + 11 → Fits count pos args := by
  induction args with
  | nil => exact fun _ _ => trivial
  | cons arg args ih =>
      intro pos hzero hfits
      have hsize : encodedSize (arg :: args) = arg.size + encodedSize args := rfl
      refine ⟨by omega, ?_⟩
      cases args with
      | nil => exact trivial
      | cons arg' args =>
          have hsize' : encodedSize (arg' :: args) = arg'.size + encodedSize args := rfl
          have hpos := size_pos arg'
          have hextent : arg.extent count pos = arg.size := by
            by_cases hkind : arg.kind = .strings
            · have hten := ten_le_size hkind
              rw [extent_of_strings hkind, hzero pos (Nat.le_refl _) (by omega), Nat.add_zero]
            · exact extent_of_kind hkind pos
          rw [hextent]
          exact ih (fun q hle hlt => hzero q (by omega) hlt) (by omega)

/-- An array in front, and one as far behind as it can be with an argument after
it. -/
def twoArrays : List Arg := [noStrings, zeros 1001, noStrings, .value [1] Nat.one_pos]

/-- With a gap of one byte behind the first array the second one lies at 1013. -/
theorem twoArrays_places {count : Nat → Nat} (hgap : count 0 = 1) :
    0 + noStrings.extent count 0
        + (zeros 1001).extent count (0 + noStrings.extent count 0) = 1013 := by
  have hfirst : noStrings.extent count 0 = 10 + count 0 := rfl
  have hsecond : (zeros 1001).extent count (0 + noStrings.extent count 0) = 1002 := size_zeros 1001
  omega

theorem twoArrays_noneAround {count : Nat → Nat} (hgap : count 0 = 1)
    (hcount : 10 + count 1013 < 2 ^ 16) : NoneAround count 0 twoArrays := by
  refine ⟨?_, ?_, ?_, trivial⟩
  · show 10 + count 0 < 2 ^ 16
    omega
  · exact lt_of_eq_of_lt (size_zeros 1001) (by decide)
  · rw [twoArrays_places hgap]
    exact hcount

theorem twoArrays_fits {count : Nat → Nat} (hgap : count 0 = 1) (h : Fits count 0 twoArrays) :
    count 1013 = 0 := by
  have hlast := h.2.2.2.1
  rw [twoArrays_places hgap] at hlast
  have hover : 1013 + (10 + count 1013) + 1 ≤ 1024 := hlast
  omega

theorem encodedSize_twoArrays : encodedSize twoArrays = 1023 := by
  have hsum : ∀ a b c d : Arg, encodedSize [a, b, c, d]
      = a.size + (b.size + (c.size + (d.size + 0))) := fun _ _ _ _ => rfl
  unfold twoArrays
  rw [hsum, size_zeros]
  rfl

/-- A storage that gives back every list has counts of 0 and 1. -/
theorem counts_of_roundTrips {id : Word}
    (h : ∀ args, encodedSize args < 1024 → RoundTrips s mem id args) :
    ∀ pos < 1013, countAt s mem pos < 2 := by
  intro pos hpos
  refine Nat.lt_of_not_le fun hcount => ?_
  have hlength : (List.replicate (1012 - pos) (1 : BitVec 8)).length = 1012 - pos :=
    List.length_replicate
  refine not_roundTrips_of_count (List.replicate (1012 - pos) 1) (by omega) hcount (h _ ?_)
  -- a list of 1023 bytes with an array at `pos`
  rw [encodedSize_filler]
  show pos + (10 + ((List.replicate (1012 - pos) (1 : BitVec 8)).length + 1 + 0)) < 1024
  omega

/-- A gap behind an array in front moves another array to the count at 1013. -/
theorem count_of_gap {id : Word} (h : ∀ args, encodedSize args < 1024 → RoundTrips s mem id args)
    (hgap : countAt s mem 0 = 1) (hlow : mem (s.place 1013) = 0) : mem (s.place 1014) = 0 := by
  have hzero : (0 : BitVec 8).toNat = 0 := rfl
  have hbyte := (mem (s.place 1014)).isLt
  have hmoved : countAt s mem 1013 = 256 * (mem (s.place 1014)).toNat := by
    rw [countAt_eq, hlow, hzero, Nat.zero_add]
  have htrips := h twoArrays (by rw [encodedSize_twoArrays]; decide)
  have hfits := twoArrays_fits hgap ((roundTrips_iff_fits s mem id twoArrays).mp
    ⟨htrips, twoArrays_noneAround hgap (by omega)⟩)
  exact BitVec.eq_of_toNat_eq (by omega)

/-- **A storage that gives back every list** is 0 where a count can be, but for a 1
in its first byte. -/
theorem bytes_of_roundTrips {id : Word}
    (h : ∀ args, encodedSize args < 1024 → RoundTrips s mem id args) :
    (∀ i < 1013, mem (s.place (i + 1)) = 0)
      ∧ (mem (s.place 0) = 0 ∨ mem (s.place 0) = 1 ∧ mem (s.place 1014) = 0) := by
  have hzero : (0 : BitVec 8).toNat = 0 := rfl
  have hhigh : ∀ i < 1013, mem (s.place (i + 1)) = 0 := by
    intro i hi
    have hcount := counts_of_roundTrips h i hi
    rw [countAt_eq] at hcount
    exact BitVec.eq_of_toNat_eq (by omega)
  refine ⟨hhigh, ?_⟩
  have hcount := countAt_eq s mem 0
  rw [hhigh 0 (by decide), hzero] at hcount
  have hlt := counts_of_roundTrips h 0 (by decide)
  rcases (show (mem (s.place 0)).toNat = 0 ∨ (mem (s.place 0)).toNat = 1 by omega) with hnone | hgap
  · exact Or.inl (BitVec.eq_of_toNat_eq hnone)
  · -- with the gap one more count matters
    exact Or.inr ⟨BitVec.eq_of_toNat_eq hgap,
      count_of_gap h (by omega) (hhigh 1012 (by decide))⟩

/-- With a gap of at most one byte behind the first argument all others fit. -/
theorem fits_of_gap {count : Nat → Nat} (hgap : count 0 ≤ 1)
    (hzero : ∀ q, 1 ≤ q → q ≤ 1013 → count q = 0) {args : List Arg}
    (hsize : encodedSize args < 1024) : Fits count 0 args := by
  cases args with
  | nil => exact trivial
  | cons arg args =>
      have hargs : encodedSize (arg :: args) = arg.size + encodedSize args := rfl
      have hpos := size_pos arg
      have hle := size_le_extent count arg 0
      have hextent : arg.extent count 0 ≤ arg.size + 1 := by
        by_cases hkind : arg.kind = .strings
        · rw [extent_of_strings hkind]
          exact Nat.add_le_add_left hgap _
        · exact Nat.le_succ_of_le (Nat.le_of_eq (extent_of_kind hkind 0))
      refine ⟨by omega, fits_of_zero (Nat.le_refl 1013) (fun q hq => hzero q (by omega)) (by omega)⟩

/-- Such a storage gives back every list. -/
theorem roundTrips_of_bytes {id : Word} (hbytes : ∀ i < 1013, mem (s.place (i + 1)) = 0)
    (hfirst : mem (s.place 0) = 0 ∨ mem (s.place 0) = 1 ∧ mem (s.place 1014) = 0)
    {args : List Arg} (hsize : encodedSize args < 1024) : RoundTrips s mem id args := by
  refine ((roundTrips_iff_fits s mem id args).mpr ?_).1
  have hcount : ∀ q, 1 ≤ q → q ≤ 1012 → countAt s mem q = 0 := by
    intro q hle hlt
    have hlow := hbytes (q - 1) (by omega)
    rw [Nat.sub_add_cancel hle] at hlow
    rw [countAt_eq, hlow, hbytes q (by omega)]
    rfl
  rcases hfirst with hnone | ⟨hgap, hlast⟩
  · -- no gap at all
    refine fits_of_zero (show 1012 ≤ 1013 by decide) (fun q _ hlt => ?_) (by omega)
    rcases Nat.eq_zero_or_pos q with rfl | hpos
    · rw [countAt_eq, hnone, hbytes 0 (by decide)]
      rfl
    · exact hcount q hpos hlt
  · have hmoved : countAt s mem 1013 = 0 := by
      rw [countAt_eq, hbytes 1012 (by decide), show mem (s.place (1013 + 1)) = 0 from hlast]
      rfl
    have hone : countAt s mem 0 = 1 := by
      rw [countAt_eq, hgap, hbytes 0 (by decide)]
      rfl
    -- a gap of one byte: 1023 bytes of arguments still end within the storage
    refine fits_of_gap (Nat.le_of_eq hone) (fun q hle hlt => ?_) hsize
    rcases Nat.lt_or_ge 1012 q with hlarge | hsmall
    · rw [show q = 1013 by omega]
      exact hmoved
    · exact hcount q hle hsmall

end Storages

/-- **The arguments of an event come back, with no array of strings written over,
EXACTLY WHEN they fit with a gap behind each array of as many bytes as its count
began at.**  A list comes back from EVERY storage exactly when no argument but the
last is an array of strings; a storage gives back EVERY list exactly when it is 0
where a count can be, but for a 1 in its first byte. -/
theorem event_codec_iff (s : Storage) (id : Word) :
    (∀ mem args, RoundTrips s mem id args ∧ NoneAround (countAt s mem) 0 args
        ↔ Fits (countAt s mem) 0 args)
      ∧ (∀ args, encodedSize args < 1024 →
        ((∀ mem, RoundTrips s mem id args) ↔ ∀ arg ∈ args.dropLast, arg.kind ≠ .strings))
      ∧ ∀ mem, (∀ args, encodedSize args < 1024 → RoundTrips s mem id args)
        ↔ (∀ i < 1013, mem (s.place (i + 1)) = 0)
          ∧ (mem (s.place 0) = 0 ∨ mem (s.place 0) = 1 ∧ mem (s.place 1014) = 0) := by
  refine ⟨fun mem args => roundTrips_iff_fits s mem id args, fun args hsize => ⟨?_, ?_⟩,
    fun mem => ⟨bytes_of_roundTrips, ?_⟩⟩
  · intro h arg harg hkind
    exact not_roundTrips_of_strings hsize ⟨arg, harg, hkind⟩ (h fun _ => 4)
  · intro hkinds mem
    exact ((roundTrips_iff_fits s mem id args).mpr (fits_of_kinds hkinds (by omega))).1
  · rintro ⟨hbytes, hfirst⟩ args hsize
    exact roundTrips_of_bytes hbytes hfirst hsize

/-- An argument of each kind, in a storage that is 0. -/
theorem event_codec_iff_mixed :
    RoundTrips ⟨0x1000, by decide⟩ (fun _ => 0) 7
      [.value [1, 2] (by decide), .strings [[0x61], [0x62, 0x63]] (by decide), .null,
        .string [0x64] (by decide)] :=
  ((event_codec_iff ⟨0x1000, by decide⟩ 7).2.2 fun _ => 0).mpr
    ⟨fun _ _ => rfl, Or.inl rfl⟩ _ (by decide)

/-- An array with one string and a byte behind it, in a storage full of fours. -/
theorem strings_run_out :
    encodedSize [.strings [[0x61]] (by decide), .value [1] (by decide)] < 1024
      ∧ ¬ RoundTrips ⟨0x1000, by decide⟩ (fun _ => 4) 7
        [.strings [[0x61]] (by decide), .value [1] (by decide)] :=
  ⟨by decide, not_roundTrips_of_strings (by decide) ⟨_, List.mem_singleton.mpr rfl, rfl⟩⟩

end MierOS.EventArgs
