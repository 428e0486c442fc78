/-
  MierOS.Streams.Directory — `DirectoryStream` of `directorystream.cpp`.

  `open` copies the listing of `VFS::get_files`, and `read` packs records of
  variable length into the caller's buffer, with an iterator that stays where
  the last call left it.  The iterator is the part of the list from it on.

  Two things go wrong.

  * `read` advances the iterator BEFORE it looks whether the record fits, so
    the entry that ends a buffer is in no buffer (`readLoop_packs`).
  * `f_reclen` is an `unsigned short`, the record size is not.

  Main result: `directory_read_lossless_iff`.
-/
import MierOS.Fs.Vfs
import Mathlib.Algebra.GroupWithZero.Nat
import Mathlib.Algebra.Order.Group.Nat

namespace MierOS.Streams

open Fs

/-! ## §1. The stream. -/

/-- What `read` looks at in a `VNode`. -/
structure DirEntry where
  name : Path
  type : VNodeType
  deriving Repr, DecidableEq

/-- `dirent::type` of an entry. -/
def direntType : VNodeType → Nat
  | .FILE => 8
  | .MOUNT => 4
  | .DIRECTORY => 4
  | .BLOCK_DEVICE => 6
  | .CHARACTER_DEVICE => 2
  | .LINK => 10

/-- A `dirent` in the caller's buffer, with the offset it stands at. -/
structure Dirent where
  position : Nat
  inode : Nat
  offset : Nat
  reclen : Nat
  type : Nat
  name : Path
  deriving Repr, DecidableEq

/-- `sizeof(dirent)`: two words, the length and the type, padded to a word. -/
def sizeofDirent : Nat := 24

/-- `recSize`. -/
def recSize (node : DirEntry) : Nat := node.name.length + sizeofDirent + 1

/-- The record of an entry at `position`; `reclen` keeps 16 bits. -/
def direntOf (position : Nat) (node : DirEntry) : Dirent where
  position := position
  inode := 0
  offset := 0
  reclen := recSize node % 2 ^ 16
  type := direntType node.type
  name := node.name

/-- `std::List::operator=(const List&)`: every element is put behind the head,
which `last` never leaves. -/
def listAssign {α : Type} (other : List α) : List α :=
  other.foldl (fun copy value => value :: copy) []

/-- `DirectoryStream`; `currentEntry` is `f_directories` from the iterator on. -/
structure DirectoryStream where
  directories : List DirEntry
  currentEntry : List DirEntry
  isOpen : Bool
  deriving Repr, DecidableEq

namespace DirectoryStream

/-- `DirectoryStream(directory)`. -/
def new : DirectoryStream := ⟨[], [], false⟩

/-- `open()`, where `VFS::get_files` answers `result`. -/
def «open» (s : DirectoryStream) (result : Except Errno (List DirEntry)) :
    Except Errno DirectoryStream :=
  match result with
  | .error e => .error e
  | .ok files =>
      let directories := listAssign files
      .ok { s with directories := directories, currentEntry := directories, isOpen := true }

/-- The loop of `read`: `readBytes` at its end, what was stored in the buffer, and
where the iterator is left. -/
def readLoop (length : Nat) : List DirEntry → Nat → Nat × List Dirent × List DirEntry
  | [], readBytes => (readBytes, [], [])
  | node :: rest, readBytes =>
      if readBytes < length then
        -- the iterator is past the entry whether or not there is room for it
        if recSize node > length - readBytes then (readBytes, [], rest)
        else
          let (readBytes', out, left) := readLoop length rest (readBytes + recSize node)
          (readBytes', direntOf readBytes node :: out, left)
      else (readBytes, [], node :: rest)

/-- `read(buffer, length)`: what it returns, the records it stores, and the stream
after it. -/
def read (s : DirectoryStream) (length : Nat) :
    Except Errno (Nat × List Dirent × DirectoryStream) :=
  if s.isOpen then
    let (readBytes, out, left) := readLoop length s.currentEntry 0
    .ok (readBytes, out, { s with currentEntry := left })
  else .error .EBADF

/-- One `read` after the other: what each returned and stored. -/
def reads (s : DirectoryStream) :
    List Nat → Except Errno (List (Nat × List Dirent) × DirectoryStream)
  | [] => .ok ([], s)
  | length :: lengths => do
      let (readBytes, out, s) ← s.read length
      let (outs, s) ← s.reads lengths
      return ((readBytes, out) :: outs, s)

end DirectoryStream

/-! ## §2. Records in a buffer. -/

/-- The bytes the records of `nodes` take. -/
def recSizes (nodes : List DirEntry) : Nat := (nodes.map recSize).sum

/-- The records of `nodes`, one behind the other from `position` on. -/
def layout (position : Nat) : List DirEntry → List Dirent
  | [] => []
  | node :: rest => direntOf position node :: layout (position + recSize node) rest

/-- Following `reclen` from `position` goes through the records, in order, and
arrives at `end`. -/
def Chained (position : Nat) (out : List Dirent) (finish : Nat) : Prop :=
  match out with
  | [] => position = finish
  | d :: rest => d.position = position ∧ Chained (position + d.reclen) rest finish

/-- What a reader of the buffer sees of an entry. -/
def DirEntry.shown (node : DirEntry) : Path × Nat := (node.name, direntType node.type)

def Dirent.shown (d : Dirent) : Path × Nat := (d.name, d.type)

theorem recSize_pos (node : DirEntry) : 0 < recSize node := Nat.succ_pos _

theorem recSizes_cons (node : DirEntry) (rest : List DirEntry) :
    recSizes (node :: rest) = recSize node + recSizes rest := by
  unfold recSizes
  rw [List.map_cons, List.sum_cons]

theorem layout_shown (position : Nat) (nodes : List DirEntry) :
    (layout position nodes).map Dirent.shown = nodes.map DirEntry.shown := by
  induction nodes generalizing position with
  | nil => rfl
  | cons node rest ih =>
      rw [layout, List.map_cons, List.map_cons, ih]
      rfl

/-- **The record lengths lead through the buffer** exactly when they all fit in
16 bits. -/
theorem layout_chained_iff (position : Nat) (nodes : List DirEntry) :
    Chained position (layout position nodes) (position + recSizes nodes)
      ↔ ∀ node ∈ nodes, recSize node < 2 ^ 16 := by
  induction nodes generalizing position with
  | nil => simp [layout, Chained, recSizes]
  | cons node rest ih =>
      have hreclen : (direntOf position node).reclen = recSize node % 2 ^ 16 := rfl
      rw [layout, Chained, hreclen, recSizes_cons, List.forall_mem_cons]
      by_cases hsize : recSize node < 2 ^ 16
      · rw [Nat.mod_eq_of_lt hsize, ← Nat.add_assoc, ih]
        exact ⟨fun h => ⟨hsize, h.2⟩, fun h => ⟨rfl, h.2⟩⟩
      · -- the length that wrapped leads to no record, and not to the end either
        constructor
        · rintro ⟨-, hrest⟩
          have hlt : recSize node % 2 ^ 16 < recSize node := by
            have := Nat.mod_lt (recSize node) (show 0 < 2 ^ 16 by decide)
            omega
          cases rest with
          | nil =>
              have hend : position + recSize node % 2 ^ 16 = position + (recSize node + 0) := hrest
              omega
          | cons next rest =>
              have hnext : position + recSize node = position + recSize node % 2 ^ 16 := hrest.1
              omega
        · exact fun h => absurd h.1 hsize

/-! ## §3. One read. -/

namespace DirectoryStream

/-- What the loop does with the entries before it: it stores the records of
`front`, and then it is at their end, the buffer is full, or the next entry does
not fit and is DROPPED. -/
inductive Ends (length : Nat) (readBytes : Nat) (back : List DirEntry) : List DirEntry → Prop
  | exhausted : back = [] → Ends length readBytes back []
  | full : length ≤ readBytes → Ends length readBytes back back
  | dropped {node : DirEntry} {rest : List DirEntry} : back = node :: rest →
      readBytes < length → length - readBytes < recSize node → Ends length readBytes back rest

theorem readLoop_cases (length : Nat) (nodes : List DirEntry) (readBytes : Nat) :
    ∃ front back left, nodes = front ++ back
      ∧ readLoop length nodes readBytes
        = (readBytes + recSizes front, layout readBytes front, left)
      ∧ (front ≠ [] → readBytes + recSizes front ≤ length)
      ∧ Ends length (readBytes + recSizes front) back left := by
  induction nodes generalizing readBytes with
  | nil => exact ⟨[], [], [], rfl, rfl, fun h => absurd rfl h, .exhausted rfl⟩
  | cons node rest ih =>
      unfold readLoop
      by_cases hroom : readBytes < length
      · rw [if_pos hroom]
        by_cases hbig : recSize node > length - readBytes
        · rw [if_pos hbig]
          exact ⟨[], node :: rest, rest, rfl, rfl, fun h => absurd rfl h,
            .dropped rfl hroom hbig⟩
        · rw [if_neg hbig]
          obtain ⟨front, back, left, hnodes, hloop, hle, hends⟩ := ih (readBytes + recSize node)
          have hsum : readBytes + recSize node + recSizes front
              = readBytes + recSizes (node :: front) := by
            rw [recSizes_cons, Nat.add_assoc]
          rw [hsum] at hloop hle hends
          refine ⟨node :: front, back, left, by rw [hnodes]; rfl, by rw [hloop]; rfl, ?_, hends⟩
          intro _
          cases front with
          | nil =>
              rw [recSizes_cons]
              show readBytes + (recSize node + 0) ≤ length
              omega
          | cons next front => exact hle (List.cons_ne_nil _ _)
      · rw [if_neg hroom]
        exact ⟨[], node :: rest, node :: rest, rfl, rfl, fun h => absurd rfl h,
          .full (Nat.not_lt.mp hroom)⟩

/-- **The buffers come out even**: the listing is cut into consecutive pieces, one
for each read, whose records fill its buffer to the last byte; the last piece may
leave room. -/
def Packs : List DirEntry → List Nat → Prop
  | _, [] => True
  | nodes, length :: lengths => ∃ front back, nodes = front ++ back
      ∧ (recSizes front = length ∨ back = [] ∧ recSizes front ≤ length) ∧ Packs back lengths

/-- **A piece that comes out even** is what the loop stores. -/
theorem readLoop_packs {length : Nat} {front back : List DirEntry} {readBytes : Nat}
    (hpacks : readBytes + recSizes front = length
      ∨ back = [] ∧ readBytes + recSizes front ≤ length) :
    readLoop length (front ++ back) readBytes
      = (readBytes + recSizes front, layout readBytes front, back) := by
  induction front generalizing readBytes with
  | nil =>
      rw [List.nil_append]
      rcases hpacks with hfull | ⟨rfl, -⟩
      · cases back with
        | nil => rfl
        | cons node rest =>
            unfold readLoop
            rw [if_neg (by rw [← hfull]; exact Nat.lt_irrefl _)]
            rfl
      · rfl
  | cons node front ih =>
      have hpos := recSize_pos node
      rw [recSizes_cons, ← Nat.add_assoc] at hpacks ⊢
      -- this record ends inside the buffer
      have hfits : readBytes + recSize node ≤ length := by
        rcases hpacks with hfull | ⟨-, hle⟩
        · rw [← hfull]
          exact Nat.le_add_right _ _
        · exact Nat.le_trans (Nat.le_add_right _ _) hle
      rw [List.cons_append]
      unfold readLoop
      rw [if_pos (by omega), if_neg (by omega), ih hpacks]
      rfl

/-- Where a buffer holds any record, a read that stores nothing was at the end. -/
theorem Ends.of_empty {length : Nat} {back left : List DirEntry} (h : Ends length 0 back left)
    (hlarge : ∀ node ∈ back, recSize node ≤ length) : left = [] := by
  cases h with
  | exhausted _ => rfl
  | full hfull =>
      cases back with
      | nil => rfl
      | cons node rest =>
          have hle := hlarge node List.mem_cons_self
          have hpos := recSize_pos node
          omega
  | @dropped node rest hback _ hbig =>
      have hle := hlarge node (by rw [hback]; exact List.mem_cons_self)
      omega

/-- The loop leaves a part of what was behind its piece. -/
theorem Ends.sublist {length readBytes : Nat} {back left : List DirEntry}
    (h : Ends length readBytes back left) : left.Sublist back := by
  cases h with
  | exhausted hback => exact List.nil_sublist _
  | full _ => exact List.Sublist.refl _
  | dropped hback _ _ =>
      rw [hback]
      exact List.sublist_cons_self _ _

/-- **One read, and the buffers behind it**: they come out even with it exactly when they
do without it and the read drops nothing. -/
theorem packs_cons_iff {length : Nat} {lengths : List Nat}
    {nodes front back left tail : List DirEntry} (hnodes : nodes = front ++ back)
    (hloop : readLoop length nodes 0 = (recSizes front, layout 0 front, left))
    (hle : front ≠ [] → recSizes front ≤ length) (hends : Ends length (recSizes front) back left)
    (hsub : tail.Sublist left) (hiff : Packs left lengths ↔ tail = left) :
    Packs nodes (length :: lengths) ↔ front ++ tail = nodes := by
  have hsize : recSizes front ≤ length := by
    cases front with
    | nil => exact Nat.zero_le _
    | cons node front => exact hle (List.cons_ne_nil _ _)
  constructor
  · intro ⟨front', back', hnodes', hpacks, hrest⟩
    -- a piece that comes out even is the one the loop took
    have hloop' : readLoop length (front' ++ back') 0
        = (0 + recSizes front', layout 0 front', back') :=
      readLoop_packs (by rw [Nat.zero_add]; exact hpacks)
    rw [← hnodes', hloop, Nat.zero_add] at hloop'
    have hsame : recSizes front = recSizes front' := congrArg Prod.fst hloop'
    have hback : left = back' := congrArg (fun x => x.2.2) hloop'
    rw [← hback] at hrest hnodes'
    rw [hiff.mp hrest]
    cases hends with
    | exhausted hnil => rw [hnodes, hnil]
    | full _ => exact hnodes.symm
    | @dropped node _ hback _ _ =>
        -- then it would hold the dropped entry as well
        have hfront : front' = front ++ [node] := by
          have hcut := hnodes'.symm.trans hnodes
          rw [hback, List.append_cons] at hcut
          exact List.append_cancel_right hcut
        have hpos := recSize_pos node
        rw [hfront] at hsame
        unfold recSizes at hsame
        rw [List.map_append, List.sum_append, List.map_singleton, List.sum_singleton] at hsame
        omega
  · intro hall
    have hback : tail = back := List.append_cancel_left (hall.trans hnodes)
    cases hends with
    | exhausted hnil =>
        refine ⟨front, [], by rw [hnodes, hnil], Or.inr ⟨rfl, hsize⟩, ?_⟩
        exact hiff.mpr (by rw [hback, hnil])
    | full hfull =>
        exact ⟨front, back, hnodes, Or.inl (Nat.le_antisymm hsize hfull), hiff.mpr hback⟩
    | dropped hdrop _ _ =>
        -- the dropped entry is in no piece
        have hlen := hsub.length_le
        rw [hback, hdrop, List.length_cons] at hlen
        omega

theorem read_eq {s : DirectoryStream} (hopen : s.isOpen = true) {length n : Nat}
    {out : List Dirent} {left : List DirEntry}
    (hloop : readLoop length s.currentEntry 0 = (n, out, left)) :
    s.read length = .ok (n, out, { s with currentEntry := left }) := by
  unfold read
  rw [if_pos hopen, hloop]

/-! ## §4. A sequence of reads. -/

/-- **What a sequence of reads returns**: buffer after buffer the records of a
piece of the listing.  Nothing is lost between the pieces exactly when the
buffers come out even. -/
theorem reads_pieces {s : DirectoryStream} (hopen : s.isOpen = true) (lengths : List Nat) :
    ∃ (pieces : List (List DirEntry)) (left : List DirEntry), s.reads lengths
        = .ok (pieces.map (fun piece => (recSizes piece, layout 0 piece)),
            { s with currentEntry := left })
      ∧ (pieces.flatten ++ left).Sublist s.currentEntry
      ∧ (Packs s.currentEntry lengths ↔ pieces.flatten ++ left = s.currentEntry)
      ∧ ((∀ length ∈ lengths, ∀ node ∈ s.currentEntry, recSize node ≤ length)
        → pieces.getLast? = some [] → left = []) := by
  induction lengths generalizing s with
  | nil =>
      exact ⟨[], s.currentEntry, rfl, List.Sublist.refl _, ⟨fun _ => rfl, fun _ => trivial⟩,
        fun _ h => absurd h (by simp)⟩
  | cons length lengths ih =>
      obtain ⟨front, back, left, hnodes, hloop, hle, hends⟩ :=
        readLoop_cases length s.currentEntry 0
      rw [Nat.zero_add] at hloop hle hends
      have hread := read_eq hopen hloop
      obtain ⟨pieces, rest, hreads, hsub, hiff, hend⟩ :=
        ih (s := { s with currentEntry := left }) hopen
      have hsub : (pieces.flatten ++ rest).Sublist left := hsub
      have hiff : Packs left lengths ↔ pieces.flatten ++ rest = left := hiff
      have hrun : s.reads (length :: lengths)
          = .ok ((front :: pieces).map (fun piece => (recSizes piece, layout 0 piece)),
              { s with currentEntry := rest }) := by
        show (s.read length >>= fun x => _) = _
        rw [hread]
        show (DirectoryStream.reads _ lengths >>= fun x => _) = _
        rw [hreads]
        rfl
      refine ⟨front :: pieces, rest, hrun, ?_, ?_, ?_⟩
      · rw [hnodes, List.flatten_cons, List.append_assoc]
        exact (List.Sublist.refl front).append (hsub.trans hends.sublist)
      · rw [List.flatten_cons, List.append_assoc]
        exact packs_cons_iff hnodes hloop hle hends hsub hiff
      · intro hlarge hlast
        have hlarge' : ∀ node ∈ left, ∀ length ∈ lengths, recSize node ≤ length := by
          intro node hnode length hmem
          refine hlarge length (List.mem_cons_of_mem _ hmem) node ?_
          rw [hnodes]
          exact List.mem_append_right front (hends.sublist.subset hnode)
        cases pieces with
        | nil =>
            -- this was the last read, and it stored nothing
            have hfront : front = [] := by simpa using hlast
            rw [hfront] at hends
            have hnone := Ends.of_empty hends fun node hnode => hlarge length List.mem_cons_self
              node (by rw [hnodes]; exact List.mem_append_right front hnode)
            rw [hnone] at hsub
            exact List.sublist_nil.mp hsub
        | cons piece pieces =>
            rw [List.getLast?_cons_cons] at hlast
            exact hend (fun length hmem node hnode => hlarge' node hnode length hmem) hlast

/-- The entries the buffers list. -/
def entries (outs : List (Nat × List Dirent)) : List (Path × Nat) :=
  outs.flatMap fun out => out.2.map Dirent.shown

theorem entries_pieces (pieces : List (List DirEntry)) :
    entries (pieces.map fun piece => (recSizes piece, layout 0 piece))
      = pieces.flatten.map DirEntry.shown := by
  induction pieces with
  | nil => rfl
  | cons piece pieces ih =>
      unfold entries at ih ⊢
      rw [List.map_cons, List.flatMap_cons, ih, layout_shown, List.flatten_cons, List.map_append]

theorem chained_pieces_iff (pieces : List (List DirEntry)) :
    (∀ out ∈ pieces.map (fun piece => (recSizes piece, layout 0 piece)), Chained 0 out.2 out.1)
      ↔ ∀ node ∈ pieces.flatten, recSize node < 2 ^ 16 := by
  have hpiece : ∀ piece : List DirEntry, Chained 0 (layout 0 piece) (recSizes piece)
      ↔ ∀ node ∈ piece, recSize node < 2 ^ 16 := by
    intro piece
    have hiff := layout_chained_iff 0 piece
    rw [Nat.zero_add] at hiff
    exact hiff
  rw [List.forall_mem_map]
  constructor
  · intro h node hnode
    obtain ⟨piece, hmem, hin⟩ := List.mem_flatten.mp hnode
    exact (hpiece piece).mp (h piece hmem) node hin
  · intro h piece hmem
    exact (hpiece piece).mpr fun node hin => h node (List.mem_flatten.mpr ⟨piece, hmem, hin⟩)

theorem listAssign_eq {α : Type} (other : List α) : listAssign other = other.reverse := by
  unfold listAssign
  rw [List.foldl_flip_cons_eq_append', List.append_nil]

/-! ## §5. The main result. -/

/-- `outs` give the whole listing: every entry once, in order, with record lengths
that lead from each record to the next and to the end of the buffer. -/
def Lossless (listing : List DirEntry) (outs : List (Nat × List Dirent)) : Prop :=
  entries outs = listing.map DirEntry.shown ∧ ∀ out ∈ outs, Chained 0 out.2 out.1

/-- **A directory is read without loss** (`DirectoryStream::read` until it returned
0, each buffer large enough for any record) exactly when its records fill each
buffer to the last byte up to the end of the listing, and all their sizes fit in
`reclen`.  Until then nothing is lost where they do. -/
theorem directory_read_lossless_iff (files : List DirEntry) (lengths : List Nat)
    (hlarge : ∀ length ∈ lengths, ∀ node ∈ files, recSize node ≤ length) :
    ∃ s outs s', new.«open» (.ok files) = .ok s ∧ s.directories = files.reverse
      ∧ s.reads lengths = .ok (outs, s')
      ∧ (Packs s.directories lengths → (∀ node ∈ files, recSize node < 2 ^ 16)
        → entries outs <+: s.directories.map DirEntry.shown
          ∧ ∀ out ∈ outs, Chained 0 out.2 out.1)
      ∧ (outs.getLast?.map Prod.fst = some 0
        → (Lossless s.directories outs
          ↔ Packs s.directories lengths ∧ ∀ node ∈ files, recSize node < 2 ^ 16)) := by
  let s : DirectoryStream := ⟨listAssign files, listAssign files, true⟩
  have hdirs : s.directories = files.reverse := listAssign_eq files
  have hcurrent : s.currentEntry = s.directories := rfl
  have hmem : ∀ node, node ∈ s.directories ↔ node ∈ files := by
    intro node
    rw [hdirs, List.mem_reverse]
  obtain ⟨pieces, left, hreads, hsub, hpacks, hend⟩ := reads_pieces (s := s) rfl lengths
  rw [hcurrent] at hsub hpacks hend
  have hsizes : ∀ node ∈ pieces.flatten, node ∈ files := fun node hnode =>
    (hmem node).mp (hsub.subset (List.mem_append_left left hnode))
  refine ⟨s, _, _, rfl, hdirs, hreads, ?_, ?_⟩
  · intro hp hsmall
    constructor
    · rw [entries_pieces, ← hpacks.mp hp, List.map_append]
      exact List.prefix_append _ _
    · exact (chained_pieces_iff pieces).mpr fun node hnode => hsmall node (hsizes node hnode)
  · intro hlast
    -- the read that returned 0 stored nothing, so it was at the end
    have hempty : pieces.getLast? = some [] := by
      rw [List.getLast?_map, Option.map_map] at hlast
      obtain ⟨piece, hpiece, hzero⟩ := Option.map_eq_some_iff.mp hlast
      cases piece with
      | nil => exact hpiece
      | cons node piece =>
          have hpos := recSize_pos node
          have hsum : recSizes (node :: piece) = 0 := hzero
          rw [recSizes_cons] at hsum
          omega
    have hleft : left = [] := hend (fun length hlength node hnode =>
      hlarge length hlength node ((hmem node).mp hnode)) hempty
    rw [hleft, List.append_nil] at hsub hpacks
    unfold Lossless
    rw [entries_pieces, chained_pieces_iff, hpacks]
    constructor
    · intro ⟨hshown, hsmall⟩
      -- a sublist of the same length is the whole list
      have hlen := congrArg List.length hshown
      rw [List.length_map, List.length_map] at hlen
      have hall := hsub.eq_of_length hlen
      exact ⟨hall, fun node hnode => hsmall node (by rw [hall]; exact (hmem node).mpr hnode)⟩
    · intro ⟨hall, hsmall⟩
      exact ⟨by rw [hall], fun node hnode => hsmall node (hsizes node hnode)⟩

/-- Two files of one letter, and a buffer that holds one record and a half. -/
def lettersExample : List DirEntry := [⟨['b'], .FILE⟩, ⟨['a'], .FILE⟩]

theorem directory_read_lossless_iff_letters :
    (∀ length ∈ [52, 52], ∀ node ∈ lettersExample, recSize node ≤ length)
    ∧ ∃ s outs s', new.«open» (.ok lettersExample) = .ok s
      ∧ s.directories = lettersExample.reverse
      ∧ s.reads [52, 52] = .ok (outs, s')
      ∧ (Packs s.directories [52, 52] → (∀ node ∈ lettersExample, recSize node < 2 ^ 16)
        → entries outs <+: s.directories.map DirEntry.shown
          ∧ ∀ out ∈ outs, Chained 0 out.2 out.1)
      ∧ (outs.getLast?.map Prod.fst = some 0
        → (Lossless s.directories outs
          ↔ Packs s.directories [52, 52] ∧ ∀ node ∈ lettersExample, recSize node < 2 ^ 16)) :=
  ⟨by decide, directory_read_lossless_iff lettersExample [52, 52] (by decide)⟩

/-- **An entry is lost**: with buffers of 40 bytes, which hold either record, the
first read returns the first file, and the second returns 0. -/
theorem directory_read_loses :
    ∃ s s', new.«open» (.ok lettersExample) = .ok s
      ∧ (∀ length ∈ [40, 40], ∀ node ∈ lettersExample, recSize node ≤ length)
      ∧ s.reads [40, 40] = .ok ([(26, [⟨0, 0, 0, 26, 8, ['a']⟩]), (0, [])], s')
      ∧ ¬ Lossless s.directories [(26, [⟨0, 0, 0, 26, 8, ['a']⟩]), (0, [])] := by
  refine ⟨⟨[⟨['a'], .FILE⟩, ⟨['b'], .FILE⟩], [⟨['a'], .FILE⟩, ⟨['b'], .FILE⟩], true⟩,
    ⟨[⟨['a'], .FILE⟩, ⟨['b'], .FILE⟩], [], true⟩, rfl, by decide, rfl, ?_⟩
  rintro ⟨hshown, -⟩
  exact absurd (congrArg List.length hshown) (by decide)

end DirectoryStream

end MierOS.Streams
