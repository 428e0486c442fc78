/-
  MierOS.Streams.ParityMarks
  **PARITY MARKS**: whether a reader can tell the marks of `translate_character_input` from
  the data around them.

  A byte with a parity error comes out behind the marker 0177 and a 0, the marker itself
  comes out twice.  `ISTRIP` is applied behind these two branches, and makes a marker of
  the byte 0377, which nothing doubles.

  Main results: `translated_eq`, `marks`, `parity_marks_iff`.
-/
import MierOS.Lib.PrefixCode
import MierOS.Streams.Termios

namespace MierOS.Streams.Termios

open Lib InformationTheory

/-! ## §1. Input without breaks. -/

/-- A received byte, with its parity-error flag, as the driver passes it on. -/
def received (x : Byte × Bool) : BitVec 16 := x.1.setWidth 16 ||| if x.2 then 0x100 else 0

/-- The marker, 0177. -/
def marker : Byte := 0o177

/-- What is stored for a sequence of received bytes. -/
def translateAll (t : Settings) (xs : List (Byte × Bool)) : List Byte :=
  xs.flatMap fun x => translateCharacterInput t (received x)

/-- The byte as it is translated: one with an error as it is, others by `INLCR`, `ICRNL` and
`ISTRIP`. -/
def translatedByte (t : Settings) (x : Byte × Bool) : Byte :=
  if x.2 then x.1
  else if x.1 = newline ∧ has t.iflag INLCR then carriageReturn
  else if x.1 = carriageReturn ∧ has t.iflag ICRNL then newline
  else x.1 &&& if has t.iflag ISTRIP then 0x7F else 0xFF

/-- What a reader is to find out: the bytes, and which of them had an error. -/
def marks (t : Settings) (xs : List (Byte × Bool)) : List (Byte × Bool) :=
  xs.map fun x => (translatedByte t x, x.2)

section Output

variable {t : Settings}

theorem hasStatus_received (x : Byte × Bool) :
    hasStatus (received x) 0x100 = x.2 ∧ hasStatus (received x) 0x200 = false
      ∧ (received x).setWidth 8 = x.1 := by
  obtain ⟨b, error⟩ := x
  revert b
  cases error <;> decide +kernel

theorem received_eq_iff (b c : Byte) : received (b, false) = c.setWidth 16 ↔ b = c := by
  have hzero : received (b, false) = b.setWidth 16 := BitVec.or_zero
  rw [hzero]
  constructor
  · intro h
    have hback := congrArg (BitVec.setWidth 8) h
    rwa [BitVec.setWidth_setWidth_of_le _ (by decide), BitVec.setWidth_setWidth_of_le _ (by decide),
      BitVec.setWidth_eq, BitVec.setWidth_eq] at hback
  · exact fun h => congrArg _ h

/-- **The three kinds of output.** -/
theorem translated_eq (hpar : has t.iflag PARENB = true) (hmrk : has t.iflag PARMRK = true)
    (x : Byte × Bool) :
    translateCharacterInput t (received x)
      = if x.2 then [marker, 0, x.1]
        else if x.1 = marker then [marker, marker]
        else [translatedByte t x] := by
  obtain ⟨herror, hbreak, hbyte⟩ := hasStatus_received x
  obtain ⟨b, error⟩ := x
  dsimp only at herror hbyte ⊢
  unfold translateCharacterInput translateParity
  rw [if_pos hpar, if_pos hmrk, herror, hbreak, hbyte]
  cases error with
  | true => rfl
  | false =>
      have hmarker : received (b, false) = 127 ↔ b = marker := received_eq_iff b marker
      simp only [Bool.false_eq_true, if_false, hmarker, received_eq_iff, Bool.and_false]
      by_cases hb : b = marker
      · rw [if_pos hb, if_pos hb]
        rfl
      · rw [if_neg hb, if_neg hb]
        dsimp only
        have hbyte : translatedByte t (b, false)
            = if b = newline ∧ has t.iflag INLCR then carriageReturn
              else if b = carriageReturn ∧ has t.iflag ICRNL then newline
              else b &&& if has t.iflag ISTRIP then 0x7F else 0xFF := if_neg Bool.false_ne_true
        -- the branches behind the escape are those of the translated byte
        rw [hbyte]
        split_ifs <;> rfl

/-- A byte that is no marker is translated to one by `ISTRIP` only, and only 0377 is. -/
theorem translatedByte_ne_marker {b : Byte} (hb : b ≠ marker)
    (hstrip : has t.iflag ISTRIP = true → b ≠ 0xFF) : translatedByte t (b, false) ≠ marker := by
  have hstripped : ∀ b : Byte, b ≠ marker → b ≠ 0xFF → b &&& 0x7F ≠ marker := by decide +kernel
  have hwhole : ∀ b : Byte, b &&& 0xFF = b := by decide +kernel
  unfold translatedByte
  rw [if_neg Bool.false_ne_true]
  split_ifs with hnewline hreturn hmask
  · decide
  · decide
  · exact hstripped b hb (hstrip hmask)
  · rw [hwhole]
    exact hb

end Output

/-! ## §2. The code. -/

/-- The outputs that can be told: the mark of an error, the doubled marker, any other byte. -/
def codeWords : Set (List Byte) :=
  {w | (∃ b, w = [marker, 0, b]) ∨ w = [marker, marker] ∨ ∃ b, b ≠ marker ∧ w = [b]}

/-- **None of them begins another one.** -/
theorem prefixCode_codeWords : PrefixCode codeWords where
  nonempty := by
    rintro (⟨b, h⟩ | h | ⟨b, -, h⟩)
    all_goals exact absurd h (by simp)
  prefix_free := by
    have hzero : marker ≠ 0 := by decide
    rintro u (⟨b, rfl⟩ | rfl | ⟨b, hb, rfl⟩) v (⟨c, rfl⟩ | rfl | ⟨c, hc, rfl⟩) huv
    all_goals simp_all [List.cons_prefix_cons]

/-- What a reader makes of one of the outputs. -/
def read : List Byte → Byte × Bool
  | [b] => (b, false)
  | [_, _] => (marker, false)
  | [_, _, b] => (b, true)
  | _ => (0, false)

/-- The byte is no 0377 that `ISTRIP` makes a marker of. -/
def Told (t : Settings) (x : Byte × Bool) : Prop := has t.iflag ISTRIP = true → x ≠ (0xFF, false)

theorem Told.read_back {t : Settings} (hpar : has t.iflag PARENB = true)
    (hmrk : has t.iflag PARMRK = true) {x : Byte × Bool} (h : Told t x) :
    translateCharacterInput t (received x) ∈ codeWords
      ∧ read (translateCharacterInput t (received x)) = (translatedByte t x, x.2) := by
  obtain ⟨b, error⟩ := x
  rw [translated_eq hpar hmrk]
  cases error with
  | true => exact ⟨Or.inl ⟨b, rfl⟩, rfl⟩
  | false =>
      dsimp only
      rw [if_neg Bool.false_ne_true]
      by_cases hb : b = marker
      · rw [if_pos hb, hb]
        refine ⟨Or.inr (Or.inl rfl), ?_⟩
        -- the marker is itself under every mask
        show (marker, false) = (translatedByte t (marker, false), false)
        unfold translatedByte
        rw [if_neg Bool.false_ne_true]
        cases has t.iflag ISTRIP <;> rfl
      · rw [if_neg hb]
        have hne := translatedByte_ne_marker hb fun hstrip heq => h hstrip (by rw [heq])
        exact ⟨Or.inr (Or.inr ⟨_, hne, rfl⟩), rfl⟩

/-! ## §3. When marks can be told. -/

section Marks

variable {t : Settings}

/-- **Marks can be told** between bytes that no stripping makes markers of. -/
theorem marks_eq_of_told (hpar : has t.iflag PARENB = true) (hmrk : has t.iflag PARMRK = true)
    {xs ys : List (Byte × Bool)} (hxs : ∀ x ∈ xs, Told t x) (hys : ∀ y ∈ ys, Told t y)
    (heq : translateAll t xs = translateAll t ys) : marks t xs = marks t ys :=
  map_eq_of_flatMap_eq prefixCode_codeWords.uniquelyDecodable
    (fun x hx => (hxs x hx).read_back hpar hmrk) (fun y hy => (hys y hy).read_back hpar hmrk) heq

/-- Three bytes without an error, and one with an error. -/
def strippedMark : List (Byte × Bool) := [(0xFF, false), (0, false), (0x41, false)]
def errorMark : List (Byte × Bool) := [(0x41, true)]

/-- **With `ISTRIP` they give the same output.** -/
theorem translateAll_strippedMark (hpar : has t.iflag PARENB = true)
    (hmrk : has t.iflag PARMRK = true) (hstrip : has t.iflag ISTRIP = true) :
    translateAll t strippedMark = translateAll t errorMark := by
  have hplain : ∀ b : Byte, b ≠ marker → b ≠ newline → b ≠ carriageReturn →
      translateCharacterInput t (received (b, false)) = [b &&& 0x7F] := by
    intro b hb hnewline hreturn
    rw [translated_eq hpar hmrk, if_neg Bool.false_ne_true, if_neg hb]
    unfold translatedByte
    rw [if_neg Bool.false_ne_true, if_neg fun h => hnewline h.1, if_neg fun h => hreturn h.1,
      if_pos hstrip]
  have herror : translateCharacterInput t (received (0x41, true)) = [marker, 0, 0x41] := by
    rw [translated_eq hpar hmrk]
    exact if_pos rfl
  unfold translateAll strippedMark errorMark
  simp only [List.flatMap_cons, List.flatMap_nil]
  rw [hplain 0xFF (by decide) (by decide) (by decide), hplain 0 (by decide) (by decide) (by decide),
    hplain 0x41 (by decide) (by decide) (by decide), herror]
  rfl

/-- What a reader is to find out about the two differs in its length. -/
theorem marks_strippedMark_ne : marks t strippedMark ≠ marks t errorMark := fun h =>
  absurd (congrArg List.length h) (by simp [marks, strippedMark, errorMark])

/-- **WHEN PARITY MARKS CAN BE TOLD.**  With `PARENB` and `PARMRK` set, the output of every
sequence of bytes determines the translated bytes and which of them had a parity error
exactly when `ISTRIP` is not set; with `ISTRIP`, it does so among the sequences in which no
byte without an error is 0377. -/
theorem parity_marks_iff (hpar : has t.iflag PARENB = true) (hmrk : has t.iflag PARMRK = true) :
    ((∀ xs ys, translateAll t xs = translateAll t ys → marks t xs = marks t ys)
        ↔ has t.iflag ISTRIP = false)
      ∧ ∀ xs ys, (0xFF, false) ∉ xs → (0xFF, false) ∉ ys →
          translateAll t xs = translateAll t ys → marks t xs = marks t ys := by
  refine ⟨⟨fun hall => ?_, fun hstrip xs ys heq => ?_⟩, fun xs ys hxs hys heq => ?_⟩
  · refine Bool.eq_false_iff.mpr fun hstrip => ?_
    exact marks_strippedMark_ne (hall _ _ (translateAll_strippedMark hpar hmrk hstrip))
  · have htold : ∀ x : Byte × Bool, Told t x := fun x h => absurd (hstrip.symm.trans h) (by simp)
    exact marks_eq_of_told hpar hmrk (fun x _ => htold x) (fun y _ => htold y) heq
  · exact marks_eq_of_told hpar hmrk (fun x hx _ h => hxs (h ▸ hx)) (fun y hy _ h => hys (h ▸ hy)) heq

/-- The flags of a terminal that marks parity errors, and more. -/
def markingSettings (more : BitVec 32) : Settings :=
  { iflag := PARENB ||| PARMRK ||| more, oflag := 0, lflag := 0, cc := fun _ => 0 }

/-- A terminal that marks parity errors and translates newlines: a newline with a parity
error is not taken for one without. -/
theorem parity_marks_told :
    translateAll (markingSettings INLCR) [(0x0A, true)]
      ≠ translateAll (markingSettings INLCR) [(0x0A, false)] := by
  intro heq
  have hmarks := (parity_marks_iff (t := markingSettings INLCR) (by decide) (by decide)).1.mpr
    (by decide) _ _ heq
  exact absurd hmarks (by simp [marks])

/-- **A stripped 0377 is taken for a mark.** -/
theorem stripped_byte_reads_as_mark :
    ¬ ∀ t : Settings, has t.iflag PARENB = true → has t.iflag PARMRK = true →
      ∀ xs ys, translateAll t xs = translateAll t ys → marks t xs = marks t ys := by
  intro hclaim
  exact marks_strippedMark_ne (hclaim (markingSettings ISTRIP) (by decide) (by decide) _ _
    (translateAll_strippedMark (by decide) (by decide) (by decide)))

end Marks

end MierOS.Streams.Termios
