/-
  MierOS.Ext2.ShortRead
  **SHORT READS OF THE DEVICE**: what `read` of `rw.cpp` returns when `block_read`
  reads fewer sectors than it was asked for.

  `block_read` returns how many sectors it has read.  `read` looks only at whether there
  was an error, and moves its pointers by what it asked for, so that the requests it
  makes do not depend on what the device reads.

  A cell of a buffer is the place on the device that its byte has been read from, or
  `none`, so that the bytes of the file are told from others that happen to be equal.
  What a request does not read stays as it was in the buffer.

  Main results: `readBlocks_cases`, `read_cases`, `readFor_iff`,
  `short_read_iff`.
-/
import MierOS.Ext2.Lba
import MierOS.Ext2.Seek

namespace MierOS.Ext2

/-! ## §1. The device and the requests. -/

/-- A device that reads `answer lba count` sectors, and no more than it is asked for. -/
def shortRead (answer : Nat → Nat → Except Errno Nat) : BlockReadOf (Option Nat) :=
  fun lba count =>
    match answer lba count with
    | .error errno => .error errno
    | .ok k => .ok ((List.range (min k count * 512)).map fun i => some (lba * 512 + i))

section Requests

variable (mi : MountInfo) (inode : Inode)

/-- The requests for `left` whole blocks from `start` on: first block and number. -/
def requests : Nat → Nat → Nat → List (Nat × Nat)
  | _, _, 0 => []
  | 0, _, _ + 1 => []
  | fuel + 1, start, left + 1 =>
      let c := countBlocks mi inode (getInodeBlock mi inode (start % 2 ^ 32)) (start % 2 ^ 32)
        (left + 1) 0
      (start % 2 ^ 32, c) :: requests fuel (start + c) (left + 1 - c)

/-- The bytes that come from the buffer of the stream. -/
def headSize (position n : Nat) : Nat :=
  if position % mi.blockSize = 0 then 0 else min (mi.blockSize - position % mi.blockSize) n

/-- The block at which the requests start, and the bytes they are for. -/
def startBlock (position n : Nat) : Nat := (position + headSize mi position n) / mi.blockSize
def bodySize (position n : Nat) : Nat := n - headSize mi position n

/-- The requests of a read of `n` bytes for whole blocks. -/
def wholeRequests (position n : Nat) : List (Nat × Nat) :=
  requests mi inode (bodySize mi position n / mi.blockSize) (startBlock mi position n)
    (bodySize mi position n / mi.blockSize)

/-- The request for the block that the last bytes are in, and how many they are. -/
def tailRequest (position n : Nat) : Nat × Nat :=
  ((startBlock mi position n + bodySize mi position n / mi.blockSize) % 2 ^ 32, 1)
def tailSize (position n : Nat) : Nat := bodySize mi position n % mi.blockSize

/-- **All requests** of a read of `n` bytes. -/
def allRequests (position n : Nat) : List (Nat × Nat) :=
  wholeRequests mi inode position n
    ++ if tailSize mi position n = 0 then [] else [tailRequest mi position n]

/-- The bytes that `read` sets out to read. -/
def readLength (position length : Nat) : Nat :=
  min length ((inode.size.toNat + (2 ^ 64 - position)) % 2 ^ 64)

variable {α : Type}

/-- What the device answers to a request. -/
def ask (blockRead : BlockReadOf α) (r : Nat × Nat) : Except Errno (List α) :=
  blockRead (mi.getLba (getInodeBlock mi inode r.1)) (mi.blockSize / 512 * r.2 % 2 ^ 32)

/-- What it reads. -/
def got (blockRead : BlockReadOf α) (r : Nat × Nat) : List α :=
  match ask mi inode blockRead r with
  | .ok cells => cells
  | .error _ => []

/-- What then stands in the blocks it is for, with `held` there before. -/
def placed (blockRead : BlockReadOf α) (held : List α) (r : Nat × Nat) : List α :=
  overwrite held (r.2 * mi.blockSize) (got mi inode blockRead r)

/-- The same for requests into one buffer. -/
def wholeOut (blockRead : BlockReadOf α) : List α → List (Nat × Nat) → List α
  | _, [] => []
  | held, r :: rs => placed mi inode blockRead held r
      ++ wholeOut blockRead (held.drop (r.2 * mi.blockSize)) rs

/-- What a read of `n` bytes stores from the buffer of the stream, and what stands behind
that after its requests. -/
def headOut (data : StreamDataOf α) (n : Nat) : List α :=
  (data.buffer.drop (data.position % mi.blockSize)).take (headSize mi data.position n)
def bodyOut (blockRead : BlockReadOf α) (user : List α) (data : StreamDataOf α) (n : Nat) :
    List α :=
  wholeOut mi inode blockRead (user.drop (headSize mi data.position n))
      (wholeRequests mi inode data.position n)
    ++ if tailSize mi data.position n = 0 then []
      else (placed mi inode blockRead data.buffer (tailRequest mi data.position n)).take
        (tailSize mi data.position n)

/-- Every one of the requests is answered. -/
def Answered (blockRead : BlockReadOf α) (rs : List (Nat × Nat)) : Prop :=
  ∀ r ∈ rs, ask mi inode blockRead r = .ok (got mi inode blockRead r)

/-- Some request is refused. -/
def Refused (blockRead : BlockReadOf α) (rs : List (Nat × Nat)) : Prop :=
  ∃ r ∈ rs, ∃ errno, ask mi inode blockRead r = .error errno

end Requests

/-! ## §2. What comes of the requests. -/

section Cases

variable {α : Type} {mi : MountInfo} {inode : Inode} {blockRead : BlockReadOf α}
  {rs rs' : List (Nat × Nat)} {held bytes : List α}

theorem overwrite_length {n : Nat} (hroom : n ≤ held.length) :
    (overwrite held n bytes).length = n := by
  unfold overwrite
  rw [List.length_take, List.length_append, List.length_drop]
  omega

/-- Behind the bytes that are stored the buffer is as it was. -/
theorem overwrite_getElem? {n i : Nat} (hi : i < n) :
    (overwrite held n bytes)[i]? = if i < bytes.length then bytes[i]? else held[i]? := by
  unfold overwrite
  rw [List.getElem?_take_of_lt hi]
  by_cases hin : i < bytes.length
  · rw [if_pos hin, List.getElem?_append_left hin]
  · rw [if_neg hin, List.getElem?_append_right (Nat.le_of_not_lt hin), List.getElem?_drop,
      Nat.add_sub_cancel' (Nat.le_of_not_lt hin)]

theorem got_of_ok {r : Nat × Nat} {cells : List α} (h : ask mi inode blockRead r = .ok cells) :
    got mi inode blockRead r = cells := by
  unfold got
  rw [h]

theorem Answered.not_refused (h : Answered mi inode blockRead rs) :
    ¬ Refused mi inode blockRead rs := by
  intro ⟨r, hr, errno, herr⟩
  rw [h r hr] at herr
  cases herr

theorem answered_append : Answered mi inode blockRead (rs ++ rs')
    ↔ Answered mi inode blockRead rs ∧ Answered mi inode blockRead rs' :=
  List.forall_mem_append

theorem Refused.append_left (h : Refused mi inode blockRead rs) (rs' : List (Nat × Nat)) :
    Refused mi inode blockRead (rs ++ rs') := by
  obtain ⟨r, hr, herr⟩ := h
  exact ⟨r, List.mem_append_left rs' hr, herr⟩

theorem mod_lt_word (n : Nat) : n % 2 ^ 32 < 2 ^ 32 := Nat.mod_lt n (by decide)

/-- **The loop over the whole blocks**: the requests are all answered and their blocks
stand one behind the other, or one is refused. -/
theorem readBlocks_cases (mi : MountInfo) (inode : Inode) (blockRead : BlockReadOf α)
    (user : List α) (fuel left : Nat) (p : ProgressOf α) (start : Nat) (hfuel : left ≤ fuel)
    (hpos : p.data.position = start * mi.blockSize)
    (hroom : p.out.length + left * mi.blockSize ≤ user.length) :
    ∃ result p', readBlocks mi inode blockRead user fuel left p = some (result, p')
      ∧ (result = none ∧ p'.data.position = (start + left) * mi.blockSize
            ∧ p'.data.buffer = p.data.buffer
            ∧ p'.leftToRead = p.leftToRead - left * mi.blockSize
            ∧ Answered mi inode blockRead (requests mi inode fuel start left)
            ∧ p'.out = p.out ++ wholeOut mi inode blockRead (user.drop p.out.length)
              (requests mi inode fuel start left)
          ∨ (∃ errno, result = some errno)
            ∧ Refused mi inode blockRead (requests mi inode fuel start left)) := by
  have hbs := blockSize_pos mi
  -- with nothing left there is no request, and nothing is stored
  have hnone : ∀ (p : ProgressOf α) (start : Nat), p.data.position = start * mi.blockSize →
      p.data.position = (start + 0) * mi.blockSize ∧ p.data.buffer = p.data.buffer
        ∧ p.leftToRead = p.leftToRead - 0 * mi.blockSize
        ∧ Answered mi inode blockRead [] ∧ p.out = p.out ++ [] := by
    intro p start hpos
    refine ⟨hpos, rfl, ?_, ?_, (List.append_nil _).symm⟩
    · rw [Nat.zero_mul, Nat.sub_zero]
    · exact fun r hr => absurd hr List.not_mem_nil
  induction fuel generalizing left p start with
  | zero =>
      obtain rfl := Nat.le_zero.mp hfuel
      exact ⟨none, p, rfl, Or.inl ⟨rfl, hnone p start hpos⟩⟩
  | succ fuel ih =>
      cases left with
      | zero => exact ⟨none, p, rfl, Or.inl ⟨rfl, hnone p start hpos⟩⟩
      | succ left =>
          have hstart : p.data.position >>> (mi.blocksSize + 10) % 2 ^ 32 = start % 2 ^ 32 := by
            rw [shift_eq_div, hpos, Nat.mul_div_cancel _ hbs]
          have hc1 := countBlocks_pos mi inode left (mod_lt_word start)
          have hcle := (@countBlocks_bounds mi inode
            (getInodeBlock mi inode (start % 2 ^ 32)) (start % 2 ^ 32) (left + 1) 0).2
          unfold readBlocks requests
          dsimp only
          rw [hstart]
          generalize hc : countBlocks mi inode (getInodeBlock mi inode (start % 2 ^ 32))
            (start % 2 ^ 32) (left + 1) 0 = c at hc1 hcle
          cases hask : blockRead (mi.getLba (getInodeBlock mi inode (start % 2 ^ 32)))
              (mi.blockSize / 512 * c % 2 ^ 32) with
          | error errno =>
              refine ⟨some errno, p, rfl, Or.inr ⟨⟨errno, rfl⟩, ?_⟩⟩
              exact ⟨(start % 2 ^ 32, c), List.mem_cons_self, errno, hask⟩
          | ok cells =>
              have hgot : got mi inode blockRead (start % 2 ^ 32, c) = cells := got_of_ok hask
              -- the other requests begin behind this one, and so do their blocks
              have hrest : start + c + (left + 1 - c) = start + (left + 1) := by omega
              have hcut : (left + 1) * mi.blockSize
                  = c * mi.blockSize + (left + 1 - c) * mi.blockSize := by
                rw [← Nat.add_mul, Nat.add_sub_cancel' (show c ≤ left + 1 by omega)]
              have hlen : (p.out ++ overwrite (user.drop p.out.length) (c * mi.blockSize)
                  cells).length = p.out.length + c * mi.blockSize := by
                rw [List.length_append, overwrite_length]
                rw [List.length_drop]
                omega
              obtain ⟨result, p', hloop, hcases⟩ := ih (left + 1 - c)
                { data := { p.data with position := p.data.position + c * mi.blockSize }
                  leftToRead := p.leftToRead - c * mi.blockSize
                  out := p.out ++ overwrite (user.drop p.out.length) (c * mi.blockSize) cells }
                (start + c) (by omega)
                (show p.data.position + c * mi.blockSize = _ by rw [hpos, Nat.add_mul])
                (by rw [hlen]; omega)
              rw [hrest] at hcases
              refine ⟨result, p', hloop, ?_⟩
              rcases hcases with
                ⟨hnone, hposition, hbuffer, hleft, hanswered, hout⟩ | ⟨herr, hrefused⟩
              · refine Or.inl ⟨hnone, hposition, hbuffer, ?_, ?_, ?_⟩
                · rw [hleft]
                  show p.leftToRead - c * mi.blockSize - _ = _
                  rw [Nat.sub_sub, ← hcut]
                · refine List.forall_mem_cons.mpr ⟨?_, hanswered⟩
                  rw [hgot]
                  exact hask
                · rw [hout, hlen, ← List.drop_drop, List.append_assoc, ← hgot]
                  rfl
              · obtain ⟨r, hr, errno, hr'⟩ := hrefused
                exact Or.inr ⟨herr, r, List.mem_cons_of_mem _ hr, errno, hr'⟩

theorem headSize_le (mi : MountInfo) (position n : Nat) : headSize mi position n ≤ n := by
  unfold headSize
  split <;> omega

/-- The head ends at a block boundary, unless it is all there is to read. -/
theorem headSize_aligned (mi : MountInfo) (position n : Nat) :
    bodySize mi position n = 0
      ∨ position + headSize mi position n = startBlock mi position n * mi.blockSize := by
  have hdiv := Nat.div_add_mod' position mi.blockSize
  have hlt := Nat.mod_lt position (blockSize_pos mi)
  unfold bodySize startBlock headSize
  by_cases haligned : position % mi.blockSize = 0
  · right
    rw [if_pos haligned, Nat.add_zero]
    exact (Nat.div_mul_cancel (Nat.dvd_of_mod_eq_zero haligned)).symm
  · rw [if_neg haligned]
    by_cases hall : n ≤ mi.blockSize - position % mi.blockSize
    · left
      omega
    · right
      have hmin : min (mi.blockSize - position % mi.blockSize) n
          = mi.blockSize - position % mi.blockSize := by omega
      -- the head goes up to the next boundary
      have hend : position + (mi.blockSize - position % mi.blockSize)
          = (position / mi.blockSize + 1) * mi.blockSize := by
        rw [Nat.add_mul]
        omega
      rw [hmin, hend, Nat.mul_div_cancel _ (blockSize_pos mi)]

/-- When the head is all there is, nothing is asked for. -/
theorem requests_of_done (mi : MountInfo) (inode : Inode) {position n : Nat}
    (hdone : bodySize mi position n = 0) :
    wholeRequests mi inode position n = [] ∧ tailSize mi position n = 0 := by
  unfold wholeRequests tailSize
  rw [hdone, Nat.zero_div, Nat.zero_mod]
  exact ⟨rfl, rfl⟩

theorem bodyOut_of_done (mi : MountInfo) (inode : Inode) (blockRead : BlockReadOf α)
    (user : List α) {data : StreamDataOf α} {n : Nat} (hdone : bodySize mi data.position n = 0) :
    allRequests mi inode data.position n = [] ∧ bodyOut mi inode blockRead user data n = [] := by
  obtain ⟨hwhole, htail⟩ := requests_of_done mi inode hdone
  unfold allRequests bodyOut
  rw [hwhole, if_pos htail, if_pos htail]
  exact ⟨rfl, rfl⟩

theorem bodyOut_of_whole (mi : MountInfo) (inode : Inode) (blockRead : BlockReadOf α)
    (user : List α) {data : StreamDataOf α} {n : Nat} (htail : tailSize mi data.position n = 0) :
    allRequests mi inode data.position n = wholeRequests mi inode data.position n
      ∧ bodyOut mi inode blockRead user data n
        = wholeOut mi inode blockRead (user.drop (headSize mi data.position n))
          (wholeRequests mi inode data.position n) := by
  unfold allRequests bodyOut
  rw [if_pos htail, if_pos htail, List.append_nil, List.append_nil]
  exact ⟨rfl, rfl⟩

theorem bodyOut_of_tail (mi : MountInfo) (inode : Inode) (blockRead : BlockReadOf α)
    (user : List α) {data : StreamDataOf α} {n : Nat} (htail : tailSize mi data.position n ≠ 0) :
    allRequests mi inode data.position n
        = wholeRequests mi inode data.position n ++ [tailRequest mi data.position n]
      ∧ bodyOut mi inode blockRead user data n
        = wholeOut mi inode blockRead (user.drop (headSize mi data.position n))
            (wholeRequests mi inode data.position n)
          ++ (placed mi inode blockRead data.buffer (tailRequest mi data.position n)).take
            (tailSize mi data.position n) := by
  unfold allRequests bodyOut
  rw [if_neg htail, if_neg htail]
  exact ⟨rfl, rfl⟩

theorem headSize_block (mi : MountInfo) (position n : Nat) :
    position % mi.blockSize + headSize mi position n ≤ mi.blockSize := by
  have hlt := Nat.mod_lt position (blockSize_pos mi)
  unfold headSize
  split <;> omega

theorem headOut_length {data : StreamDataOf α} (n : Nat)
    (hbuffer : data.buffer.length = mi.blockSize) :
    (headOut mi data n).length = headSize mi data.position n := by
  have hblock := headSize_block mi data.position n
  unfold headOut
  rw [List.length_take, List.length_drop, hbuffer]
  omega

/-- The head, whatever the buffer holds. -/
theorem readHead_shape (mi : MountInfo) (data : StreamDataOf α) (n : Nat) :
    readHead mi data n
      = { data := { data with position := data.position + headSize mi data.position n }
          leftToRead := bodySize mi data.position n
          out := headOut mi data n } := by
  have hlt := Nat.mod_lt data.position (blockSize_pos mi)
  have hsize : (if (if mi.blockSize - data.position % mi.blockSize = mi.blockSize then 0
        else mi.blockSize - data.position % mi.blockSize) > n then n
      else if mi.blockSize - data.position % mi.blockSize = mi.blockSize then 0
        else mi.blockSize - data.position % mi.blockSize) = headSize mi data.position n := by
    unfold headSize
    by_cases haligned : data.position % mi.blockSize = 0
    · rw [haligned, Nat.sub_zero, if_pos rfl, if_pos rfl, if_neg (Nat.not_lt_zero n)]
    · rw [if_neg haligned, if_neg (show ¬ _ = mi.blockSize by omega)]
      split <;> omega
  unfold readHead bodySize headOut
  rw [mask_eq_mod]
  dsimp only
  rw [hsize]

/-- **The last block**: its request is answered and the cells of it stand behind what has
been read, or it is refused. -/
theorem readTail_cases (mi : MountInfo) (inode : Inode) (blockRead : BlockReadOf α)
    (p : ProgressOf α) {block : Nat}
    (hblock : p.data.position >>> (mi.blocksSize + 10) % 2 ^ 32 = block) :
    ∃ result p', readTail mi inode blockRead p = (result, p')
      ∧ (result = none
            ∧ ask mi inode blockRead (block, 1) = .ok (got mi inode blockRead (block, 1))
            ∧ p'.out = p.out
              ++ (placed mi inode blockRead p.data.buffer (block, 1)).take p.leftToRead
          ∨ ∃ errno, result = some errno
            ∧ ask mi inode blockRead (block, 1) = .error errno) := by
  have hone : mi.blockSize / 512 * 1 % 2 ^ 32 = mi.blockSize / 512 := by
    have hle := Nat.le_of_dvd (show 0 < 2 ^ 32 by decide) (blockSize_dvd mi)
    have hlt := Nat.div_lt_self (blockSize_pos mi) (show 1 < 512 by decide)
    rw [Nat.mul_one, Nat.mod_eq_of_lt (by omega)]
  have hask : ask mi inode blockRead (block, 1)
      = blockRead (mi.getLba (getInodeBlock mi inode block)) (mi.blockSize / 512) := by
    unfold ask
    rw [hone]
  unfold readTail
  dsimp only
  rw [hblock, ← hask]
  cases hanswer : ask mi inode blockRead (block, 1) with
  | error errno => exact ⟨_, _, rfl, Or.inr ⟨errno, rfl, rfl⟩⟩
  | ok cells =>
      unfold placed
      rw [got_of_ok hanswer, Nat.one_mul]
      exact ⟨_, _, rfl, Or.inl ⟨rfl, rfl, rfl⟩⟩

/-- **One read**: all its requests are answered, and the cells of the buffer, of the
whole blocks and of the last block stand one behind the other; or one is refused, and
the read returns an error. -/
theorem read_cases (mi : MountInfo) (inode : Inode) (blockRead : BlockReadOf α)
    {user : List α} {data : StreamDataOf α} {length : Nat} (hroom : length ≤ user.length)
    (hbuffer : data.buffer.length = mi.blockSize) :
    let n := readLength inode data.position length
    ∃ result out data', read mi inode blockRead user data length = some (result, out, data')
      ∧ (result = .ok n
            ∧ Answered mi inode blockRead (allRequests mi inode data.position n)
            ∧ out = headOut mi data n ++ bodyOut mi inode blockRead user data n
          ∨ (∃ errno, result = .error errno)
            ∧ Refused mi inode blockRead (allRequests mi inode data.position n)) := by
  intro n
  have hbs := blockSize_pos mi
  have hlength : (if (inode.size.toNat + (2 ^ 64 - data.position)) % 2 ^ 64 < length then
      (inode.size.toNat + (2 ^ 64 - data.position)) % 2 ^ 64 else length) = n := by
    show _ = min length _
    split <;> omega
  unfold read
  dsimp only
  rw [hlength, readHead_shape]
  dsimp only
  rw [shift_eq_div]
  by_cases hdone : bodySize mi data.position n = 0
  · rw [if_pos hdone]
    -- the buffer had everything
    obtain ⟨hall, hout⟩ := bodyOut_of_done mi inode blockRead user hdone
    rw [hall, hout, List.append_nil]
    exact ⟨_, _, _, rfl, Or.inl ⟨rfl, fun r hr => absurd hr List.not_mem_nil, rfl⟩⟩
  · have haligned := (headSize_aligned mi data.position n).resolve_left hdone
    have hheadlen := headOut_length n hbuffer
    have hsplit := Nat.div_add_mod' (bodySize mi data.position n) mi.blockSize
    have hbody : headSize mi data.position n + bodySize mi data.position n = n :=
      Nat.add_sub_cancel' (headSize_le mi data.position n)
    have hnlength : n ≤ length := Nat.min_le_left _ _
    obtain ⟨result, p', hloop, hcases⟩ := readBlocks_cases mi inode blockRead user
      (bodySize mi data.position n / mi.blockSize)
      (bodySize mi data.position n / mi.blockSize)
      ⟨⟨data.position + headSize mi data.position n, data.buffer⟩, bodySize mi data.position n,
        headOut mi data n⟩
      (startBlock mi data.position n) (Nat.le_refl _) haligned (by
        show (headOut mi data n).length + _ ≤ _
        rw [hheadlen]
        omega)
    rw [if_neg hdone, hloop]
    rcases hcases with
      ⟨rfl, hposition, hheld, hleft, hanswered, hout⟩ | ⟨⟨errno, rfl⟩, hrefused⟩
    · dsimp only at hheld hout
      rw [hheadlen] at hout
      have hleft : p'.leftToRead = tailSize mi data.position n := by
        rw [hleft]
        show bodySize mi data.position n - _ = bodySize mi data.position n % mi.blockSize
        omega
      dsimp only
      by_cases hnone : tailSize mi data.position n = 0
      · obtain ⟨hall, hbody⟩ := bodyOut_of_whole mi inode blockRead user hnone
        rw [if_pos (hleft.trans hnone), hall, hbody]
        exact ⟨_, _, _, rfl, Or.inl ⟨rfl, hanswered, hout⟩⟩
      · rw [if_neg (fun h => hnone (hleft.symm.trans h))]
        obtain ⟨hall, hbody⟩ := bodyOut_of_tail mi inode blockRead user hnone
        have hblock : p'.data.position >>> (mi.blocksSize + 10) % 2 ^ 32
            = (tailRequest mi data.position n).1 := by
          rw [shift_eq_div, hposition, Nat.mul_div_cancel _ hbs]
          rfl
        obtain ⟨result, p'', htail, hcases⟩ := readTail_cases mi inode blockRead p' hblock
        rw [htail, hall, hbody]
        rcases hcases with ⟨rfl, hanswer, htailOut⟩ | ⟨errno, rfl, herr⟩
        · refine ⟨_, _, _, rfl, Or.inl ⟨rfl, answered_append.mpr ⟨hanswered, ?_⟩, ?_⟩⟩
          · exact List.forall_mem_singleton.mpr hanswer
          · rw [htailOut, hout, hleft, hheld, List.append_assoc]
            rfl
        · exact ⟨_, _, _, rfl, Or.inr ⟨⟨errno, rfl⟩, tailRequest mi data.position n,
            List.mem_append_right _ List.mem_cons_self, errno, herr⟩⟩
    · exact ⟨_, _, _, rfl, Or.inr ⟨⟨errno, rfl⟩, hrefused.append_left _⟩⟩

end Cases

/-! ## §3. The bytes of the file. -/

section Filled

variable (mi : MountInfo) (inode : Inode) (answer : Nat → Nat → Except Errno Nat)

/-- The first `count` bytes of the caller's buffer are those of the file from `position`
on. -/
def FilledTo (position count : Nat) (out : List (Option Nat)) : Prop :=
  ∀ i < count, position + i < inode.size.toNat
    ∧ out[i]? = some (fileByte mi inode some (position + i))

/-- **What a read is to do**: no count is returned that is more than what was filled. -/
def CountIsFilled (user : List (Option Nat)) (data : StreamDataOf (Option Nat)) (length : Nat) :
    Prop :=
  ∀ count out data',
    read mi inode (shortRead answer) user data length = some (.ok count, out, data') →
      FilledTo mi inode data.position count out

/-- What the device reads for this request is from the block's place, and those of the first
`need` bytes that it does not read stand in the buffer already. -/
def ReadFor (r : Nat × Nat) (need : Nat) (held : List (Option Nat)) : Prop :=
  ∃ k, answer (mi.getLba (getInodeBlock mi inode r.1)) (mi.blockSize / 512 * r.2 % 2 ^ 32) = .ok k
    ∧ (0 < k → getInodeBlock mi inode r.1 * mi.blockSize < 2 ^ 32)
    ∧ ∀ i < need, k * 512 ≤ i →
        held[i]? = some (fileByte mi inode some (r.1 * mi.blockSize + i))

/-- **The reads of `n` bytes that are filled**: in the file, with the bytes of the head
in the buffer, and with what each request is for. The last block is read into the buffer of
the stream, and the others into the caller's. -/
structure Complete (user : List (Option Nat)) (data : StreamDataOf (Option Nat)) (n : Nat) :
    Prop where
  inside : data.position ≤ inode.size.toNat
  head : ∀ i < headSize mi data.position n,
    data.buffer[data.position % mi.blockSize + i]?
      = some (fileByte mi inode some (data.position + i))
  whole : ∀ r ∈ wholeRequests mi inode data.position n,
    ReadFor mi inode answer r (r.2 * mi.blockSize)
      (user.drop (r.1 * mi.blockSize - data.position))
  tail : tailSize mi data.position n ≠ 0 →
    ReadFor mi inode answer (tailRequest mi data.position n) (tailSize mi data.position n)
      data.buffer

end Filled

section Pieces

variable {mi : MountInfo} {inode : Inode} {answer : Nat → Nat → Except Errno Nat}
  {user held : List (Option Nat)} {data : StreamDataOf (Option Nat)} {n : Nat}

/-- The address of a block is exact below 4 GiB. -/
theorem lba_bytes_iff (mi : MountInfo) (block : Nat) :
    mi.getLba block * 512 = block * mi.blockSize ↔ block * mi.blockSize < 2 ^ 32 := by
  rw [← lbaExact_iff, MountInfo.LbaExact]
  have hsectors : block * (mi.blockSize / 512) * 512 = block * mi.blockSize := by
    rw [Nat.mul_assoc, blockSize_sectors]
  omega

/-- What is read for an answered request. -/
theorem got_shortRead {r : Nat × Nat} (hbytes : r.2 * mi.blockSize < 2 ^ 32)
    (hans : Answered mi inode (shortRead answer) [r]) :
    ∃ k m, answer (mi.getLba (getInodeBlock mi inode r.1)) (mi.blockSize / 512 * r.2 % 2 ^ 32)
        = .ok k
      ∧ m = min (k * 512) (r.2 * mi.blockSize)
      ∧ got mi inode (shortRead answer) r = (List.range m).map fun i =>
          some (mi.getLba (getInodeBlock mi inode r.1) * 512 + i) := by
  have hask := hans r List.mem_cons_self
  have hcount : mi.blockSize / 512 * r.2 % 2 ^ 32 * 512 = r.2 * mi.blockSize := by
    have hle : mi.blockSize / 512 * r.2 * 512 = r.2 * mi.blockSize := by
      rw [Nat.mul_right_comm, blockSize_sectors, Nat.mul_comm]
    rw [Nat.mod_eq_of_lt (by omega), hle]
  generalize got mi inode (shortRead answer) r = cells at hask
  unfold ask shortRead at hask
  rw [← hcount]
  cases hanswer : answer (mi.getLba (getInodeBlock mi inode r.1))
      (mi.blockSize / 512 * r.2 % 2 ^ 32) with
  | error errno =>
      rw [hanswer] at hask
      cases hask
  | ok k =>
      rw [hanswer] at hask
      refine ⟨k, _, rfl, rfl, ?_⟩
      rw [Nat.mul_min_mul_right]
      exact (Except.ok.inj hask).symm

/-- The bytes of blocks that follow each other. -/
theorem fileByte_run {r : Nat × Nat} {i : Nat} (hi : i < r.2 * mi.blockSize)
    (hrun : ∀ j < r.2, getInodeBlock mi inode (r.1 + j) = getInodeBlock mi inode r.1 + j) :
    fileByte mi inode some (r.1 * mi.blockSize + i)
      = some (getInodeBlock mi inode r.1 * mi.blockSize + i) := by
  have hpos := blockSize_pos mi
  unfold fileByte
  rw [Nat.mul_comm r.1, Nat.mul_add_div hpos, Nat.mul_add_mod,
    hrun _ ((Nat.div_lt_iff_lt_mul hpos).mpr hi), Nat.add_mul, Nat.add_assoc, Nat.div_add_mod']

/-- A list is the bytes of the file when each of its cells is. -/
theorem eq_fileBytes_iff {xs : List (Option Nat)} {start : Nat} (hlen : xs.length = n) :
    xs = fileBytes mi inode some start n
      ↔ ∀ i < n, xs[i]? = some (fileByte mi inode some (start + i)) := by
  have hbyte : ∀ i < n, (fileBytes mi inode some start n)[i]?
      = some (fileByte mi inode some (start + i)) := by
    intro i hi
    unfold fileBytes
    rw [List.getElem?_map, List.getElem?_range hi]
    rfl
  constructor
  · rintro rfl
    exact hbyte
  · intro hcells
    refine List.ext_getElem? fun i => ?_
    by_cases hi : i < n
    · rw [hcells i hi, hbyte i hi]
    · rw [List.getElem?_eq_none (by omega), List.getElem?_eq_none]
      rw [fileBytes_length]
      omega

/-- **One request** brings the bytes of the file exactly when what it reads is from a block
below 4 GiB, and the rest was there. -/
theorem readFor_iff {r : Nat × Nat} (need : Nat) (hbytes : r.2 * mi.blockSize < 2 ^ 32)
    (hpos : 0 < need) (hneed : need ≤ r.2 * mi.blockSize)
    (hroom : r.2 * mi.blockSize ≤ held.length)
    (hrun : ∀ j < r.2, getInodeBlock mi inode (r.1 + j) = getInodeBlock mi inode r.1 + j)
    (hans : Answered mi inode (shortRead answer) [r]) :
    (placed mi inode (shortRead answer) held r).take need
        = fileBytes mi inode some (r.1 * mi.blockSize) need
      ↔ ReadFor mi inode answer r need held := by
  obtain ⟨k, m, hanswer, hm, hgot⟩ := got_shortRead hbytes hans
  have hlen : ((placed mi inode (shortRead answer) held r).take need).length = need := by
    rw [List.length_take, placed, overwrite_length hroom]
    omega
  -- the cells that are read, and those that are not
  have hcell : ∀ i < need, ((placed mi inode (shortRead answer) held r).take need)[i]?
      = if i < m then some (some (mi.getLba (getInodeBlock mi inode r.1) * 512 + i))
        else held[i]? := by
    intro i hi
    rw [List.getElem?_take_of_lt hi, placed, overwrite_getElem? (by omega), hgot,
      List.length_map, List.length_range]
    by_cases hread : i < m
    · rw [if_pos hread, if_pos hread, List.getElem?_map, List.getElem?_range hread]
      rfl
    · rw [if_neg hread, if_neg hread]
  rw [eq_fileBytes_iff hlen]
  unfold ReadFor
  rw [← lba_bytes_iff]
  constructor
  · intro hcells
    refine ⟨k, hanswer, fun hk => ?_, fun i hi hread => ?_⟩
    · -- the first byte tells where the cells come from
      have hfirst := hcells 0 hpos
      rw [hcell 0 hpos, if_pos (by omega), fileByte_run (by omega) hrun, Option.some.injEq,
        Option.some.injEq] at hfirst
      exact Nat.add_right_cancel hfirst
    · rw [← hcells i hi, hcell i hi, if_neg (by omega)]
  · intro ⟨k', hanswer', hlba, hheld⟩ i hi
    rw [hanswer] at hanswer'
    obtain rfl := Except.ok.inj hanswer'
    rw [hcell i hi]
    by_cases hread : i < m
    · have hk : 0 < k := by omega
      rw [if_pos hread, fileByte_run (by omega) hrun]
      exact congrArg (fun a => some (some (a + i))) (hlba hk)
    · rw [if_neg hread]
      exact hheld i hi (by omega)

/-- Two pieces are the bytes of the file exactly when each is. -/
theorem append_eq_fileBytes {xs ys : List (Option Nat)} {start a b : Nat} (hxs : xs.length = a) :
    xs ++ ys = fileBytes mi inode some start (a + b)
      ↔ xs = fileBytes mi inode some start a ∧ ys = fileBytes mi inode some (start + a) b := by
  rw [fileBytes_add]
  constructor
  · exact fun h => List.append_inj h (by rw [fileBytes_length, hxs])
  · rintro ⟨rfl, rfl⟩
    rfl

/-- **The whole blocks**: as many bytes as the blocks have, and the bytes of the file
exactly when each request brings them. The first block goes to byte `start * blockSize -
position` of the caller's buffer. -/
theorem requests_filled_iff (user : List (Option Nat)) (position fuel start left : Nat)
    (hfuel : left ≤ fuel)
    (hsmall : (start + left) * mi.blockSize < 2 ^ 32) (hbegin : position ≤ start * mi.blockSize)
    (hroom : (start + left) * mi.blockSize - position ≤ user.length)
    (hans : Answered mi inode (shortRead answer) (requests mi inode fuel start left)) :
    (wholeOut mi inode (shortRead answer) (user.drop (start * mi.blockSize - position))
        (requests mi inode fuel start left)).length = left * mi.blockSize
      ∧ (wholeOut mi inode (shortRead answer) (user.drop (start * mi.blockSize - position))
            (requests mi inode fuel start left)
          = fileBytes mi inode some (start * mi.blockSize) (left * mi.blockSize)
        ↔ ∀ r ∈ requests mi inode fuel start left,
          ReadFor mi inode answer r (r.2 * mi.blockSize)
            (user.drop (r.1 * mi.blockSize - position))) := by
  induction fuel generalizing start left with
  | zero =>
      obtain rfl := Nat.le_zero.mp hfuel
      rw [Nat.zero_mul]
      exact ⟨rfl, fun _ r hr => absurd hr List.not_mem_nil, fun _ => rfl⟩
  | succ fuel ih =>
      cases left with
      | zero =>
          rw [Nat.zero_mul]
          exact ⟨rfl, fun _ r hr => absurd hr List.not_mem_nil, fun _ => rfl⟩
      | succ left =>
          have hbs := blockSize_pos mi
          have hblocks : start + (left + 1) < 2 ^ 32 :=
            Nat.lt_of_le_of_lt (Nat.le_mul_of_pos_right _ hbs) hsmall
          obtain ⟨hc1, hcle, hrun⟩ := countBlocks_first mi inode (Nat.le_of_lt hblocks)
          unfold requests at hans ⊢
          dsimp only at hans ⊢
          rw [Nat.mod_eq_of_lt (show start < 2 ^ 32 by omega)] at hans ⊢
          generalize countBlocks mi inode (getInodeBlock mi inode start) start (left + 1) 0 = c
            at hc1 hcle hrun hans ⊢
          obtain ⟨d, hd⟩ := Nat.exists_eq_add_of_le hcle
          have hrest : left + 1 - c = d := by omega
          have hend : start + c + d = start + (left + 1) := by omega
          rw [hrest] at hans ⊢
          obtain ⟨hfirst, hothers⟩ := List.forall_mem_cons.mp hans
          have hone : Answered mi inode (shortRead answer) [(start, c)] :=
            List.forall_mem_singleton.mpr hfirst
          have hbytes : c * mi.blockSize < 2 ^ 32 :=
            Nat.lt_of_le_of_lt (Nat.mul_le_mul_right _ (by omega)) hsmall
          have hcut : (left + 1) * mi.blockSize = c * mi.blockSize + d * mi.blockSize := by
            rw [hd, Nat.add_mul]
          have hnext : (start + c) * mi.blockSize = start * mi.blockSize + c * mi.blockSize :=
            Nat.add_mul ..
          have hlast : (start + (left + 1)) * mi.blockSize
              = start * mi.blockSize + (c * mi.blockSize + d * mi.blockSize) := by
            rw [Nat.add_mul, hcut]
          -- the caller's buffer has room for the blocks of the first request, and the others
          -- begin behind these
          have hheld : c * mi.blockSize
              ≤ (user.drop (start * mi.blockSize - position)).length := by
            rw [List.length_drop]
            omega
          have hplace : (user.drop (start * mi.blockSize - position)).drop (c * mi.blockSize)
              = user.drop ((start + c) * mi.blockSize - position) := by
            rw [List.drop_drop, hnext]
            congr 1
            omega
          have hlen : (placed mi inode (shortRead answer)
              (user.drop (start * mi.blockSize - position)) (start, c)).length
              = c * mi.blockSize := overwrite_length hheld
          obtain ⟨hlen', hiff⟩ := ih (start + c) d (by omega) (by rw [hend]; exact hsmall)
            (by omega) (by rw [hend]; exact hroom) hothers
          -- the blocks of the first request follow each other; the others are by induction
          have hhead := readFor_iff (r := (start, c)) _ hbytes (Nat.mul_pos hc1 hbs)
            (Nat.le_refl _) hheld hrun hone
          rw [List.take_of_length_le (Nat.le_of_eq hlen)] at hhead
          rw [wholeOut, hplace, List.length_append, hlen, hlen', hcut,
            append_eq_fileBytes hlen, hhead, ← hnext, hiff, List.forall_mem_cons]
          exact ⟨rfl, Iff.rfl⟩

/-! ## §4. The read. -/

/-- **The head**: the bytes of the file exactly when the buffer of the stream holds them. -/
theorem head_filled_iff (inode : Inode) (n : Nat) (hbuffer : data.buffer.length = mi.blockSize) :
    headOut mi data n
        = fileBytes mi inode some data.position (headSize mi data.position n)
      ↔ ∀ i < headSize mi data.position n, data.buffer[data.position % mi.blockSize + i]?
        = some (fileByte mi inode some (data.position + i)) := by
  refine (eq_fileBytes_iff (headOut_length n hbuffer)).trans (forall₂_congr fun i hi => ?_)
  unfold headOut
  rw [List.getElem?_take_of_lt hi, List.getElem?_drop]

/-- **The tail**: as many bytes as are asked for, and the bytes of the file exactly when its
request brings them. -/
theorem tail_filled_iff (hbuffer : data.buffer.length = mi.blockSize)
    (htail : tailSize mi data.position n ≠ 0)
    (hsmall : startBlock mi data.position n + bodySize mi data.position n / mi.blockSize < 2 ^ 32)
    (hans : Answered mi inode (shortRead answer) [tailRequest mi data.position n]) :
    ((placed mi inode (shortRead answer) data.buffer (tailRequest mi data.position n)).take
        (tailSize mi data.position n)).length = tailSize mi data.position n
      ∧ ((placed mi inode (shortRead answer) data.buffer (tailRequest mi data.position n)).take
          (tailSize mi data.position n)
          = fileBytes mi inode some ((startBlock mi data.position n
              + bodySize mi data.position n / mi.blockSize) * mi.blockSize)
            (tailSize mi data.position n)
        ↔ ReadFor mi inode answer (tailRequest mi data.position n)
            (tailSize mi data.position n) data.buffer) := by
  have hbs := blockSize_pos mi
  have hlt : tailSize mi data.position n < mi.blockSize := Nat.mod_lt _ hbs
  have hone : (tailRequest mi data.position n).2 * mi.blockSize = mi.blockSize := Nat.one_mul _
  have hbytes : (tailRequest mi data.position n).2 * mi.blockSize < 2 ^ 32 := by
    have hk := mi.blocksSize_lt
    rw [hone, blockSize_eq]
    exact Nat.pow_lt_pow_right (by decide) (by omega)
  have hblock : (tailRequest mi data.position n).1
      = startBlock mi data.position n + bodySize mi data.position n / mi.blockSize :=
    Nat.mod_eq_of_lt hsmall
  constructor
  · rw [List.length_take, placed, overwrite_length (by rw [hone, hbuffer]), hone]
    omega
  · have hiff := readFor_iff (tailSize mi data.position n) hbytes
      (Nat.pos_of_ne_zero htail) (by omega) (by rw [hone, hbuffer]) (fun j hj => by
        rw [show j = 0 from Nat.lt_one_iff.mp hj]
        rfl) hans
    rw [hblock] at hiff
    exact hiff

/-- **The requests** of a read in the file, taken together. -/
theorem body_filled_iff (hroom : n ≤ user.length) (hbuffer : data.buffer.length = mi.blockSize)
    (hin : data.position + n ≤ inode.size.toNat)
    (hans : Answered mi inode (shortRead answer) (allRequests mi inode data.position n)) :
    (bodyOut mi inode (shortRead answer) user data n).length = bodySize mi data.position n
      ∧ (bodyOut mi inode (shortRead answer) user data n
          = fileBytes mi inode some (data.position + headSize mi data.position n)
            (bodySize mi data.position n)
        ↔ (∀ r ∈ wholeRequests mi inode data.position n,
              ReadFor mi inode answer r (r.2 * mi.blockSize)
                (user.drop (r.1 * mi.blockSize - data.position)))
          ∧ (tailSize mi data.position n ≠ 0 →
              ReadFor mi inode answer (tailRequest mi data.position n)
                (tailSize mi data.position n) data.buffer)) := by
  have hbs := blockSize_pos mi
  have h32 := inode.size.isLt
  rcases headSize_aligned mi data.position n with hdone | haligned
  · obtain ⟨hwhole, htail⟩ := requests_of_done mi inode hdone
    rw [(bodyOut_of_done mi inode (shortRead answer) user hdone).2, hwhole, hdone]
    exact ⟨rfl, fun _ => ⟨fun r hr => absurd hr List.not_mem_nil, fun h => absurd htail h⟩,
      fun _ => rfl⟩
  · have hbody : headSize mi data.position n + bodySize mi data.position n = n :=
      Nat.add_sub_cancel' (headSize_le mi data.position n)
    have hcut : bodySize mi data.position n / mi.blockSize * mi.blockSize
        + tailSize mi data.position n = bodySize mi data.position n := Nat.div_add_mod' _ _
    have hstart : startBlock mi data.position n * mi.blockSize
        + bodySize mi data.position n / mi.blockSize * mi.blockSize
        = (startBlock mi data.position n + bodySize mi data.position n / mi.blockSize)
          * mi.blockSize := (Nat.add_mul _ _ _).symm
    -- below the size of the file no block number is carried over
    have hend : (startBlock mi data.position n + bodySize mi data.position n / mi.blockSize)
        * mi.blockSize < 2 ^ 32 := by
      rw [← hstart, ← haligned]
      omega
    have hwholes := (answered_append.mp hans).1
    have hoffset : startBlock mi data.position n * mi.blockSize - data.position
        = headSize mi data.position n := by
      rw [← haligned, Nat.add_sub_cancel_left]
    obtain ⟨hlen, hwhole⟩ := requests_filled_iff user data.position _
      (startBlock mi data.position n) _ (Nat.le_refl _) hend (by omega)
      (by rw [← hstart, ← haligned]; omega) hwholes
    rw [hoffset] at hlen hwhole
    have hlen : (wholeOut mi inode (shortRead answer) (user.drop (headSize mi data.position n))
        (wholeRequests mi inode data.position n)).length
        = bodySize mi data.position n / mi.blockSize * mi.blockSize := hlen
    have hwhole : wholeOut mi inode (shortRead answer) (user.drop (headSize mi data.position n))
          (wholeRequests mi inode data.position n)
          = fileBytes mi inode some (startBlock mi data.position n * mi.blockSize)
            (bodySize mi data.position n / mi.blockSize * mi.blockSize)
        ↔ ∀ r ∈ wholeRequests mi inode data.position n,
            ReadFor mi inode answer r (r.2 * mi.blockSize)
              (user.drop (r.1 * mi.blockSize - data.position)) := hwhole
    rw [haligned]
    by_cases htail : tailSize mi data.position n = 0
    · rw [htail, Nat.add_zero] at hcut
      rw [(bodyOut_of_whole mi inode (shortRead answer) user htail).2, hlen, ← hwhole, hcut]
      exact ⟨rfl, (and_iff_left fun h => absurd htail h).symm⟩
    · obtain ⟨hall, hbodyOut⟩ := bodyOut_of_tail mi inode (shortRead answer) user htail
      rw [hall] at hans
      have hblocks := Nat.lt_of_le_of_lt (Nat.le_mul_of_pos_right _ hbs) hend
      obtain ⟨htaillen, hiff⟩ := tail_filled_iff hbuffer htail hblocks
        (answered_append.mp hans).2
      have hbytes : fileBytes mi inode some (startBlock mi data.position n * mi.blockSize)
            (bodySize mi data.position n)
          = fileBytes mi inode some (startBlock mi data.position n * mi.blockSize)
            (bodySize mi data.position n / mi.blockSize * mi.blockSize
              + tailSize mi data.position n) := by
        rw [hcut]
      rw [hbodyOut, List.length_append, hlen, htaillen, hbytes, append_eq_fileBytes hlen, hwhole,
        hstart, hiff]
      exact ⟨hcut, and_congr_right fun _ => (imp_iff_right htail).symm⟩

/-- **A read in the file whose requests are answered** fills what it reports exactly when
it is complete. -/
theorem filled_iff_complete (hroom : n ≤ user.length)
    (hbuffer : data.buffer.length = mi.blockSize)
    (hin : data.position + n ≤ inode.size.toNat)
    (hans : Answered mi inode (shortRead answer) (allRequests mi inode data.position n)) :
    FilledTo mi inode data.position n
        (headOut mi data n ++ bodyOut mi inode (shortRead answer) user data n)
      ↔ Complete mi inode answer user data n := by
  have hbody : headSize mi data.position n + bodySize mi data.position n = n :=
    Nat.add_sub_cancel' (headSize_le mi data.position n)
  have hheadlen := headOut_length n hbuffer
  have hhead := head_filled_iff inode n hbuffer
  obtain ⟨hbodylen, hbodyiff⟩ := body_filled_iff hroom hbuffer hin hans
  generalize hout : headOut mi data n ++ bodyOut mi inode (shortRead answer) user data n = out
  have hlen : out.length = n := by
    rw [← hout, List.length_append, hheadlen, hbodylen, hbody]
  -- as long as what is reported, so filled means equal
  have hbytes : FilledTo mi inode data.position n out
      ↔ out = fileBytes mi inode some data.position
        (headSize mi data.position n + bodySize mi data.position n) := by
    rw [hbody, eq_fileBytes_iff hlen]
    exact forall₂_congr fun i hi => and_iff_right (by omega)
  rw [hbytes, ← hout, append_eq_fileBytes hheadlen, hhead, hbodyiff]
  constructor
  · intro ⟨hhead, hwhole, htail⟩
    exact ⟨by omega, hhead, hwhole, htail⟩
  · intro ⟨_, hhead, hwhole, htail⟩
    exact ⟨hhead, hwhole, htail⟩

theorem countIsFilled_of_ok {length : Nat} {out : List (Option Nat)}
    {data' : StreamDataOf (Option Nat)}
    (hread : read mi inode (shortRead answer) user data length = some (.ok n, out, data')) :
    CountIsFilled mi inode answer user data length ↔ FilledTo mi inode data.position n out := by
  constructor
  · exact fun h => h n out data' hread
  · intro h count out' data'' hread'
    rw [hread] at hread'
    cases hread'
    exact h

end Pieces

/-- **SHORT READS ARE REPORTED AS DATA.**  The count that `read` returns is at most what it
has filled with the bytes of the file exactly when nothing is asked for, or the device
refuses one of the requests, or the read is complete: it starts in the file, its head is
in the buffer, what is read for a request is from a block below 4 GiB, and what is not read
of that which it is for was in its buffer before. -/
theorem short_read_iff (mi : MountInfo) (inode : Inode) (answer : Nat → Nat → Except Errno Nat)
    (user : List (Option Nat)) (data : StreamDataOf (Option Nat)) (length : Nat)
    (hroom : length ≤ user.length) (hposition : data.position < 2 ^ 64)
    (hbuffer : data.buffer.length = mi.blockSize) :
    CountIsFilled mi inode answer user data length
      ↔ length = 0
        ∨ Refused mi inode (shortRead answer) (allRequests mi inode data.position
            (readLength inode data.position length))
        ∨ Complete mi inode answer user data (readLength inode data.position length) := by
  have h32 := inode.size.isLt
  obtain ⟨result, out, data', hread, hcases⟩ := read_cases mi inode
    (shortRead answer) hroom hbuffer
  rcases hcases with ⟨rfl, hans, hout⟩ | ⟨⟨errno, rfl⟩, hrefused⟩
  · rw [or_iff_right hans.not_refused]
    generalize hn : readLength inode data.position length = n at hread hans hout ⊢
    have hn : min length ((inode.size.toNat + (2 ^ 64 - data.position)) % 2 ^ 64) = n := hn
    rw [countIsFilled_of_ok hread]
    -- behind the end the rest wraps, and a byte that is reported is outside the file
    by_cases hin : data.position ≤ inode.size.toNat
    · have hrest : (inode.size.toNat + (2 ^ 64 - data.position)) % 2 ^ 64
          = inode.size.toNat - data.position := by omega
      rw [hout, filled_iff_complete (by omega) hbuffer (by omega) hans]
      refine (or_iff_right_of_imp fun hzero => ?_).symm
      -- nothing asked for, nothing to bring
      obtain rfl : n = 0 := by omega
      rw [← filled_iff_complete (Nat.zero_le _) hbuffer (by omega) hans]
      exact fun i hi => absurd hi (Nat.not_lt_zero i)
    · have houtside : ¬ Complete mi inode answer user data n := fun h => hin h.inside
      rw [or_iff_left houtside]
      constructor
      · intro hfilled
        by_contra hlength
        have hpos : 0 < n := by omega
        exact hin (Nat.le_of_lt (hfilled 0 hpos).1)
      · rintro rfl i hi
        omega
  · constructor
    · exact fun _ => Or.inr (Or.inl hrefused)
    · intro _ count out' data'' h
      rw [hread] at h
      cases h

/-- A stream at the last block of the file, which its buffer has. -/
def lastBlock : StreamDataOf (Option Nat) := ⟨2048, fileBytes smallMount smallInode some 2048 1024⟩

/-- The first 1536 bytes of the file, from a device that reads them all; and the last block,
from one that reads nothing. -/
theorem short_read_iff_small :
    CountIsFilled smallMount smallInode (fun _ count => .ok count) (List.replicate 1536 none)
        ⟨0, List.replicate 1024 none⟩ 1536
      ∧ CountIsFilled smallMount smallInode (fun _ _ => .ok 0) (List.replicate 952 none)
        lastBlock 952 := by
  constructor
  · refine (short_read_iff smallMount smallInode (fun _ count => .ok count)
      (List.replicate 1536 none) ⟨0, List.replicate 1024 none⟩ 1536
      (Nat.le_of_eq List.length_replicate.symm) (by decide)
      List.length_replicate).mpr (Or.inr (Or.inr ?_))
    have hwhole : wholeRequests smallMount smallInode 0 1536 = [(0, 1)] := by decide
    have hn : readLength smallInode 0 1536 = 1536 := by decide
    have htail : tailSize smallMount 0 1536 = 512 := by decide
    rw [show (⟨0, List.replicate 1024 none⟩ : StreamDataOf (Option Nat)).position = 0 from rfl, hn]
    refine ⟨Nat.zero_le _, fun i hi => absurd hi (Nat.not_lt_zero i), fun r hr => ?_,
      fun _ => ⟨2, rfl, fun _ => by decide, fun i hi hread => ?_⟩⟩
    · have hr : r ∈ wholeRequests smallMount smallInode 0 1536 := hr
      rw [hwhole] at hr
      obtain rfl := List.mem_singleton.mp hr
      have hbytes : (0, 1).2 * smallMount.blockSize = 1024 := by decide
      rw [hbytes]
      refine ⟨2, rfl, fun _ => by decide, fun i hi hread => ?_⟩
      omega
    · have hi : i < tailSize smallMount 0 1536 := hi
      omega
  · have hbuffer : lastBlock.buffer.length = smallMount.blockSize := by
      unfold lastBlock
      rw [fileBytes_length]
      decide
    refine (short_read_iff smallMount smallInode (fun _ _ => .ok 0) (List.replicate 952 none)
      lastBlock 952 (Nat.le_of_eq List.length_replicate.symm) (by decide) hbuffer).mpr
      (Or.inr (Or.inr ?_))
    have hwhole : wholeRequests smallMount smallInode 2048 952 = [] := by decide
    have hn : readLength smallInode 2048 952 = 952 := by decide
    have htail : tailSize smallMount 2048 952 = 952 := by decide
    rw [show lastBlock.position = 2048 from rfl, hn]
    refine ⟨by decide, fun i hi => absurd hi (Nat.not_lt_zero i), fun r hr => ?_,
      fun _ => ⟨0, rfl, fun h => absurd h (Nat.lt_irrefl 0), fun i hi _ => ?_⟩⟩
    · have hr : r ∈ wholeRequests smallMount smallInode 2048 952 := hr
      rw [hwhole] at hr
      exact absurd hr List.not_mem_nil
    · have hi : i < tailSize smallMount 2048 952 := hi
      have hcells := (eq_fileBytes_iff (fileBytes_length 2048 1024)).mp
        (Eq.refl (fileBytes smallMount smallInode some 2048 1024)) i (by omega)
      unfold lastBlock
      dsimp only
      rw [hcells]
      rfl

/-- A device that reads nothing: the read of one block reports 1024 bytes. -/
theorem nothing_read_reported :
    ¬ ∀ (mi : MountInfo) (inode : Inode) (answer : Nat → Nat → Except Errno Nat)
        (user : List (Option Nat)) (data : StreamDataOf (Option Nat)) (length : Nat),
        (∀ lba count k, answer lba count = .ok k → k ≤ count) → length ≤ user.length →
        data.position < 2 ^ 64 → data.buffer.length = mi.blockSize →
          CountIsFilled mi inode answer user data length := by
  intro h
  have hroom : 1024 ≤ (List.replicate 1024 (none : Option Nat)).length :=
    Nat.le_of_eq List.length_replicate.symm
  have hfilled := h smallMount smallInode (fun _ _ => .ok 0) _ ⟨0, List.replicate 1024 none⟩ 1024
    (fun _ count k hk => Except.ok.inj hk ▸ Nat.zero_le count) hroom (by decide)
    List.length_replicate
  obtain ⟨result, out, data', hread, hcases⟩ := read_cases smallMount smallInode
    (shortRead fun _ _ => .ok 0) hroom
    (show (⟨0, List.replicate 1024 none⟩ : StreamDataOf (Option Nat)).buffer.length
      = smallMount.blockSize from List.length_replicate)
  rcases hcases with ⟨hresult, hans, hout⟩ | ⟨-, r, hr, errno, herr⟩
  · rw [hresult, hout] at hread
    have hcomplete := (filled_iff_complete (Nat.le_trans (Nat.min_le_left _ _) hroom)
      List.length_replicate (by decide) hans).mp (hfilled _ _ _ hread)
    -- the request for the first block brings no byte, and the buffer has none
    have hmem : (0, 1) ∈ wholeRequests smallMount smallInode 0 (readLength smallInode 0 1024) := by
      decide
    obtain ⟨k, hk, -, hheld⟩ := hcomplete.whole (0, 1) hmem
    obtain rfl := Except.ok.inj hk
    have hbyte := hheld 0 (by decide) (Nat.le_refl 0)
    cases hbyte
  · cases herr

end MierOS.Ext2
