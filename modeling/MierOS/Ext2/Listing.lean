/-
  MierOS.Ext2.Listing
  **LISTING AND LOOKUP AGREE**: `get_files` against `get_file` on a well-formed directory.

  Both fill one table of children.  A lookup adds the node that it finds, and the listing
  gives the children first and then makes the nodes that are missing.

  Main results: `WellFormedDir`, `getFile_eq`, `getFiles_eq`, `Cached`,
  `listing_agrees`.
-/
import MierOS.Ext2.Directory
import MierOS.Lib.Run

namespace MierOS.Ext2

open Lib Stdlib
open Gpt (le)

/-! ## §1. Well-formed directories. -/

/-- An entry: the number of its inode, 0 when it is free, and its name. -/
structure DirEntry where
  inode : Nat
  name : List Byte
  deriving Repr, DecidableEq

/-- The name of an entry, as the kernel has it. -/
def DirEntry.cName (e : DirEntry) : CString := CString.ofBytes e.name

/-- The entry `e` of `n` bytes stands at `o`: a header, and the name when it is live. -/
structure EntryAt (b : Nat → Byte) (o : Nat) (e : DirEntry) (n : Nat) : Prop where
  inode : le b o 4 = e.inode
  size : le b (o + 4) 2 = n
  length : le b (o + 6) 1 = e.name.length
  name : bytesAt b (o + 8) e.name.length = e.name
  header : 8 ≤ n
  inside : e.inode ≠ 0 → 8 + e.name.length ≤ n

/-- The live entries of the first `count` blocks. -/
def liveEntries (entries : Nat → List DirEntry) (count : Nat) : List DirEntry :=
  ((List.range count).flatMap entries).filter fun e => e.inode ≠ 0

/-- **A well-formed directory** with these entries in its blocks. -/
structure WellFormedDir (mi : MountInfo) (readInode : Nat → InodeFields) (inode : Inode)
    (entries : Nat → List DirEntry) : Prop where
  whole : mi.blockSize ∣ inode.size.toNat
  tiled : ∀ i, i * mi.blockSize < inode.size.toNat →
    Tiled (EntryAt (dirByte mi inode i)) mi.blockSize 0 (entries i)
  unique : ((liveEntries entries (inode.size.toNat / mi.blockSize)).map DirEntry.name).Nodup
  names : ∀ e ∈ liveEntries entries (inode.size.toNat / mi.blockSize), (0 : Byte) ∉ e.name
  known : ∀ e ∈ liveEntries entries (inode.size.toNat / mi.blockSize),
    KnownType readInode e.inode

/-! ## §2. The scans over the entries. -/

section Steps

variable {blockSize : Nat} {b : Nat → Byte} {readInode : Nat → InodeFields}
  {hash : CString → Nat} {o n : Nat} {e : DirEntry}

/-- What `get_file` does at an entry. -/
def fileStep (readInode : Nat → InodeFields) (filename : CString) (_ : Unit) (e : DirEntry) :
    Except (Outcome FileNode) Unit :=
  if e.inode ≠ 0 ∧ filename.chars = e.name then
    match newNode readInode e.inode filename with
    | none => .error .panics
    | some node => .error (.returns node)
  else .ok ()

/-- What `get_files` does at an entry. -/
def filesStep (hash : CString → Nat) (readInode : Nat → InodeFields)
    (s : Children × List FileNode) (e : DirEntry) :
    Except (Outcome (List FileNode × Children)) (Children × List FileNode) :=
  if e.inode = 0 ∨ e.cName = dot ∨ e.cName = dotDot then .ok s
  else if s.1.find hash e.cName = s.1.endIter then
    match newNode readInode e.inode e.cName with
    | none => .error .panics
    | some node => .ok ((s.1.insert hash node.name node).2, s.2 ++ [node])
  else .ok s

/-- Inside the block `strncmp` compares all the characters. -/
theorem strncmp_inside {chars : List Byte} (hin : o + chars.length ≤ blockSize) :
    strncmp blockSize b chars o = some (decide (chars = bytesAt b o chars.length)) := by
  induction chars generalizing o with
  | nil => rfl
  | cons c chars ih =>
      rw [List.length_cons] at hin
      rw [List.length_cons, bytesAt_succ]
      unfold strncmp
      rw [if_pos (by omega)]
      by_cases hc : c = b o
      · rw [if_pos hc, ih (by omega), hc]
        simp
      · rw [if_neg hc]
        simp [hc]

theorem EntryAt.next {S ρ : Type} (h : EntryAt b o e n) (hin : o + n ≤ blockSize) (s : S) :
    (nextEntry blockSize b o s : Visit S (Outcome ρ)) = .move n s := by
  have hheader := h.header
  exact nextEntry_move_iff.mpr ⟨by omega, h.size.symm, rfl⟩

/-- The name of a live entry is compared inside the block. -/
theorem EntryAt.strncmp_eq (h : EntryAt b o e n) (hin : o + n ≤ blockSize) (hlive : e.inode ≠ 0)
    {filename : CString} (hlen : filename.chars.length = e.name.length) :
    strncmp blockSize b filename.chars (o + 8) = some (decide (filename.chars = e.name)) := by
  have hname := h.inside hlive
  rw [strncmp_inside (by omega), hlen, h.name]

theorem EntryAt.fileFound (h : EntryAt b o e n) (hin : o + n ≤ blockSize) {filename : CString}
    (hlive : e.inode ≠ 0) (hsame : filename.chars = e.name) :
    FileFound blockSize b filename o := by
  have hheader := h.header
  have hlen : filename.chars.length = e.name.length := congrArg List.length hsame
  refine ⟨by omega, fun hzero => hlive (h.inode ▸ hzero), hlen.trans h.length.symm, ?_⟩
  rw [← strncmp_true_iff, h.strncmp_eq hin hlive hlen, decide_eq_true hsame]

theorem EntryAt.otherName (h : EntryAt b o e n) (hin : o + n ≤ blockSize) {filename : CString}
    (hother : ¬ (e.inode ≠ 0 ∧ filename.chars = e.name)) : OtherName blockSize b filename o := by
  have hheader := h.header
  by_cases hfree : e.inode = 0
  · exact Or.inl (h.inode.trans hfree)
  · have hne : filename.chars ≠ e.name := fun hsame => hother ⟨hfree, hsame⟩
    refine Or.inr ⟨by omega, ?_⟩
    by_cases hlen : filename.chars.length = e.name.length
    · refine Or.inr ?_
      rw [← strncmp_false_iff, h.strncmp_eq hin hfree hlen, decide_eq_false hne]
    · exact Or.inl (h.length ▸ hlen)

/-- **One visit of `get_file`.** -/
theorem EntryAt.fileEntry_eq (h : EntryAt b o e n) (hin : o + n ≤ blockSize)
    (filename : CString) (s : Unit) :
    fileEntry blockSize b readInode filename o s = Visit.of n (fileStep readInode filename s e) := by
  have hheader := h.header
  unfold fileStep
  by_cases hsame : e.inode ≠ 0 ∧ filename.chars = e.name
  · rw [fileEntry_found (h.fileFound hin hsame.1 hsame.2), if_pos hsame, h.inode]
    cases newNode readInode e.inode filename <;> rfl
  · rw [fileEntry_other (by omega) (h.otherName hin hsame), if_neg hsame]
    exact h.next hin s

/-- **One visit of `get_files`.** -/
theorem EntryAt.filesEntry_eq (h : EntryAt b o e n) (hin : o + n ≤ blockSize)
    (s : Children × List FileNode) :
    filesEntry blockSize b hash readInode o s = Visit.of n (filesStep hash readInode s e) := by
  have hheader := h.header
  unfold filesStep
  by_cases hfree : e.inode = 0
  · rw [filesEntry_free (by omega) (h.inode.trans hfree), h.next hin s, if_pos (Or.inl hfree)]
    rfl
  · have hname := h.inside hfree
    have hinside : NameInside blockSize b o := by
      refine ⟨by omega, fun hzero => hfree (h.inode ▸ hzero), Or.inr ?_⟩
      rw [h.length]
      omega
    have hentry : entryName b o = e.cName := by
      unfold entryName DirEntry.cName
      rw [h.length, h.name]
    rw [filesEntry_named hinside, hentry, h.inode, h.next hin s]
    by_cases hdots : e.cName = dot ∨ e.cName = dotDot
    · rw [if_pos hdots, if_pos (Or.inr hdots)]
      rfl
    · rw [if_neg hdots, if_neg (not_or.mpr ⟨hfree, hdots⟩)]
      by_cases hnew : s.1.find hash (e.cName) = s.1.endIter
      · rw [if_pos hnew, if_pos hnew]
        cases newNode readInode e.inode (e.cName) with
        | none => rfl
        | some node => exact h.next hin _
      · rw [if_neg hnew, if_neg hnew]
        rfl

end Steps

section Folds

variable {mi : MountInfo} {readInode : Nat → InodeFields} {hash : CString → Nat} {inode : Inode}
  {entries : Nat → List DirEntry} {fuel : Nat}

/-- All entries of the directory, in the order of the scans. -/
def allEntries (mi : MountInfo) (inode : Inode) (entries : Nat → List DirEntry) : List DirEntry :=
  (List.range (blockCount mi inode)).flatMap entries

theorem blockCount_eq (mi : MountInfo) (inode : Inode) :
    blockCount mi inode = inode.size.toNat / mi.blockSize := by
  unfold blockCount
  rw [Nat.add_comm 10, shift_eq_div]

/-- The blocks that are scanned are those of the directory. -/
theorem WellFormedDir.tiles (h : WellFormedDir mi readInode inode entries) (i : Nat)
    (hi : i < blockCount mi inode) :
    Tiled (EntryAt (dirByte mi inode i)) mi.blockSize 0 (entries i) := by
  refine h.tiled i ?_
  rw [blockCount_eq, Nat.lt_div_iff_mul_lt_of_dvd (Nat.ne_of_gt (blockSize_pos mi)) h.whole] at hi
  exact hi

theorem getFile_scan (h : WellFormedDir mi readInode inode entries) (hfuel : mi.blockSize ≤ fuel)
    (filename : CString) :
    scanSegments (fun i => fileEntry mi.blockSize (dirByte mi inode i) readInode filename)
        mi.blockSize fuel (blockCount mi inode) 0 ()
      = some ((allEntries mi inode entries).foldlM (fileStep readInode filename) ()) := by
  exact scan_tiled (fun i o e n s _ hin (hentry : EntryAt (dirByte mi inode i) o e n) =>
    hentry.fileEntry_eq hin filename s) hfuel h.tiles ()

theorem getFiles_scan (h : WellFormedDir mi readInode inode entries) (hfuel : mi.blockSize ≤ fuel)
    (s : Children × List FileNode) :
    scanSegments (fun i => filesEntry mi.blockSize (dirByte mi inode i) hash readInode)
        mi.blockSize fuel (blockCount mi inode) 0 s
      = some ((allEntries mi inode entries).foldlM (filesStep hash readInode) s) := by
  exact scan_tiled (fun i o e n s _ hin (hentry : EntryAt (dirByte mi inode i) o e n) =>
    hentry.filesEntry_eq hin s) hfuel h.tiles s

/-- The first live entry with a name. -/
def lookupEntry (filename : CString) (es : List DirEntry) : Option DirEntry :=
  es.find? fun e => e.inode ≠ 0 ∧ filename.chars = e.name

/-- **Over the entries `get_file`** finds the first live one with the name. -/
theorem foldlM_fileStep (filename : CString) (es : List DirEntry) :
    es.foldlM (fileStep readInode filename) ()
      = match lookupEntry filename es with
        | none => .ok ()
        | some e =>
            match newNode readInode e.inode filename with
            | none => .error .panics
            | some node => .error (.returns node) := by
  induction es with
  | nil => rfl
  | cons e es ih =>
      unfold lookupEntry at ih ⊢
      rw [List.foldlM_cons, List.find?_cons]
      by_cases hsame : e.inode ≠ 0 ∧ filename.chars = e.name
      · have hstep : fileStep readInode filename () e
            = match newNode readInode e.inode filename with
              | none => .error .panics
              | some node => .error (.returns node) := if_pos hsame
        rw [hstep, decide_eq_true hsame]
        dsimp only
        cases newNode readInode e.inode filename <;> rfl
      · have hstep : fileStep readInode filename () e = .ok () := if_neg hsame
        rw [hstep, decide_eq_false hsame]
        exact ih

/-- The entries that are listed: those with an inode, but not `.` and `..`. -/
def DirEntry.visible (e : DirEntry) : Bool := e.inode ≠ 0 ∧ e.cName ≠ dot ∧ e.cName ≠ dotDot

/-- The node of an entry. -/
def DirEntry.node (readInode : Nat → InodeFields) (e : DirEntry) : Option FileNode :=
  newNode readInode e.inode e.cName

theorem DirEntry.visible_iff {e : DirEntry} :
    e.visible = true ↔ e.inode ≠ 0 ∧ e.cName ≠ dot ∧ e.cName ≠ dotDot :=
  decide_eq_true_iff

/-- The entries that are not among the children yet. -/
def missing (hash : CString → Nat) (children : Children) (es : List DirEntry) : List DirEntry :=
  (es.filter DirEntry.visible).filter fun e => (children.at hash e.cName).isNone

theorem filesStep_skips {e : DirEntry} {s : Children × List FileNode}
    (h : e.visible = false ∨ s.1.at hash e.cName ≠ none) :
    filesStep hash readInode s e = .ok s := by
  unfold filesStep
  by_cases hhidden : e.inode = 0 ∨ e.cName = dot ∨ e.cName = dotDot
  · exact if_pos hhidden
  · have hvisible : e.visible = true := by
      obtain ⟨hlive, hdots⟩ := not_or.mp hhidden
      exact DirEntry.visible_iff.mpr ⟨hlive, not_or.mp hdots⟩
    have hlisted := h.resolve_left (by rw [hvisible]; decide)
    rw [if_neg hhidden, if_neg fun hend =>
      hlisted ((UnorderedMap.find_eq_end_iff s.1 _).mp hend)]

theorem filesStep_makes {e : DirEntry} {s : Children × List FileNode} {node : FileNode}
    (hvisible : e.visible = true) (hnew : s.1.at hash e.cName = none)
    (hnode : e.node readInode = some node) :
    filesStep hash readInode s e
      = .ok ((s.1.insert hash e.cName node).2, s.2 ++ [node]) := by
  obtain ⟨hlive, hdot, hdotDot⟩ := DirEntry.visible_iff.mp hvisible
  have hmake : newNode readInode e.inode (e.cName) = some node := hnode
  have hname : node.name = e.cName := newNode_name hnode
  unfold filesStep
  rw [if_neg (not_or.mpr ⟨hlive, not_or.mpr ⟨hdot, hdotDot⟩⟩),
    if_pos ((UnorderedMap.find_eq_end_iff s.1 _).mpr hnew), hmake, ← hname]

/-- **Over the entries `get_files`** makes the nodes that are missing. -/
theorem foldlM_filesStep (readInode : Nat → InodeFields) (hash : CString → Nat)
    (es : List DirEntry) (children : Children) (nodes : List FileNode)
    (hwf : children.WF hash) (hknown : ∀ e ∈ es, e.visible = true → KnownType readInode e.inode)
    (hunique : ((es.filter DirEntry.visible).map DirEntry.cName).Nodup) :
    ∃ children' made, es.foldlM (filesStep hash readInode) (children, nodes)
        = .ok (children', nodes ++ made)
      ∧ made.map some = (missing hash children es).map (DirEntry.node readInode) := by
  induction es generalizing children nodes with
  | nil => exact ⟨children, [], by rw [List.append_nil]; rfl, rfl⟩
  | cons e es ih =>
      have hknown' : ∀ e ∈ es, e.visible = true → KnownType readInode e.inode :=
        fun e' he' => hknown e' (List.mem_cons_of_mem e he')
      rw [List.foldlM_cons]
      unfold missing at ih ⊢
      cases hvisible : e.visible with
      | false =>
          rw [List.filter_cons_of_neg (by simp [hvisible])] at hunique ⊢
          rw [filesStep_skips (Or.inl hvisible)]
          exact ih children nodes hwf hknown' hunique
      | true =>
          rw [List.filter_cons_of_pos hvisible] at hunique ⊢
          obtain ⟨hfirst, hunique'⟩ := List.nodup_cons.mp hunique
          cases hat : children.at hash e.cName with
          | some v =>
              rw [List.filter_cons_of_neg (by simp [hat]),
                filesStep_skips (Or.inr (by rw [hat]; simp))]
              exact ih children nodes hwf hknown' hunique'
          | none =>
              -- the name is new, so a node is made and becomes a child
              have hsome : e.node readInode ≠ none :=
                mt newNode_eq_none_iff.mp (not_not.mpr (hknown e List.mem_cons_self hvisible))
              obtain ⟨node, hnode⟩ := Option.ne_none_iff_exists'.mp hsome
              obtain ⟨children', made, hfold, hmade⟩ := ih (children.insert hash e.cName node).2
                (nodes ++ [node]) (hwf.insert _ _) hknown' hunique'
              refine ⟨children', node :: made, ?_, ?_⟩
              · rw [filesStep_makes hvisible hat hnode]
                rw [List.append_assoc] at hfold
                exact hfold
              · -- the new child is none of the entries behind this one
                have hsame : ∀ e' ∈ es.filter DirEntry.visible,
                    ((children.insert hash e.cName node).2.at hash e'.cName).isNone
                      = (children.at hash e'.cName).isNone := by
                  intro e' he'
                  have hne : e'.cName ≠ e.cName := fun heq =>
                    hfirst (heq ▸ List.mem_map_of_mem he')
                  rw [UnorderedMap.at_insert hwf node hat, if_neg hne]
                rw [List.filter_cons_of_pos (by simp [hat]), List.map_cons, List.map_cons, hnode,
                  hmade, List.filter_congr hsame]

end Folds

/-! ## §3. The children under lookups. -/

section Agree

variable {mi : MountInfo} {readInode : Nat → InodeFields} {hash : CString → Nat} {inode : Inode}
  {entries : Nat → List DirEntry} {fuel : Nat} {children : Children}

theorem liveEntries_eq (mi : MountInfo) (inode : Inode) (entries : Nat → List DirEntry) :
    liveEntries entries (inode.size.toNat / mi.blockSize)
      = (allEntries mi inode entries).filter fun e => e.inode ≠ 0 := by
  unfold liveEntries allEntries
  rw [blockCount_eq]

/-- Live entries are told apart by their names. -/
theorem WellFormedDir.eq_of_name (h : WellFormedDir mi readInode inode entries) {e e' : DirEntry}
    (he : e ∈ allEntries mi inode entries) (he' : e' ∈ allEntries mi inode entries)
    (hlive : e.inode ≠ 0) (hlive' : e'.inode ≠ 0) (hname : e.name = e'.name) : e = e' := by
  have hunique := h.unique
  rw [liveEntries_eq] at hunique
  exact List.inj_on_of_nodup_map hunique (List.mem_filter.mpr ⟨he, decide_eq_true hlive⟩)
    (List.mem_filter.mpr ⟨he', decide_eq_true hlive'⟩) hname

/-- A live entry's name is the C string. -/
theorem WellFormedDir.chars (h : WellFormedDir mi readInode inode entries) {e : DirEntry}
    (he : e ∈ allEntries mi inode entries) (hlive : e.inode ≠ 0) : e.cName.chars = e.name := by
  have hnul := h.names e (by
    rw [liveEntries_eq]
    exact List.mem_filter.mpr ⟨he, decide_eq_true hlive⟩)
  refine List.takeWhile_eq_self_iff.mpr fun c hc => decide_eq_true ?_
  rintro rfl
  exact hnul hc

theorem WellFormedDir.eq_of_cName (h : WellFormedDir mi readInode inode entries)
    {e e' : DirEntry} (he : e ∈ allEntries mi inode entries)
    (he' : e' ∈ allEntries mi inode entries) (hlive : e.inode ≠ 0) (hlive' : e'.inode ≠ 0)
    (hname : e.cName = e'.cName) : e = e' := by
  refine h.eq_of_name he he' hlive hlive' ?_
  rw [← h.chars he hlive, hname, h.chars he' hlive']

theorem WellFormedDir.exists_node (h : WellFormedDir mi readInode inode entries) {e : DirEntry}
    (he : e ∈ allEntries mi inode entries) (hlive : e.inode ≠ 0) :
    ∃ node, e.node readInode = some node ∧ node.name = e.cName := by
  have hknown := h.known e (by
    rw [liveEntries_eq]
    exact List.mem_filter.mpr ⟨he, decide_eq_true hlive⟩)
  obtain ⟨node, hnode⟩ := Option.ne_none_iff_exists'.mp
    (mt newNode_eq_none_iff.mp (not_not.mpr hknown))
  exact ⟨node, hnode, newNode_name hnode⟩

/-- **The entries that are listed have one name each.** -/
theorem WellFormedDir.visible_nodup (h : WellFormedDir mi readInode inode entries) :
    (((allEntries mi inode entries).filter DirEntry.visible).map DirEntry.cName).Nodup := by
  have hlive : (((allEntries mi inode entries).filter fun e => e.inode ≠ 0).filter
      DirEntry.visible) = (allEntries mi inode entries).filter DirEntry.visible := by
    rw [List.filter_filter]
    refine List.filter_congr fun e _ => ?_
    cases hvisible : e.visible with
    | false => rfl
    | true => simp [(DirEntry.visible_iff.mp hvisible).1]
  have hunique := h.unique
  rw [liveEntries_eq] at hunique
  rw [← hlive]
  refine List.Nodup.map_on ?_ (List.Nodup.of_map _ hunique |>.filter _)
  intro e he e' he' hname
  obtain ⟨he, hl⟩ := List.mem_filter.mp (List.mem_of_mem_filter he)
  obtain ⟨he', hl'⟩ := List.mem_filter.mp (List.mem_of_mem_filter he')
  exact h.eq_of_cName he he' (of_decide_eq_true hl) (of_decide_eq_true hl') hname

/-- **The invariant of the children**: each is the node of an entry that is listed. -/
structure Cached (hash : CString → Nat) (readInode : Nat → InodeFields) (es : List DirEntry)
    (children : Children) : Prop where
  wf : children.WF hash
  entry : ∀ name node, (name, node) ∈ children.entries →
    ∃ e ∈ es, e.visible = true ∧ e.cName = name ∧ e.node readInode = some node

theorem cached_noChildren (hash : CString → Nat) (readInode : Nat → InodeFields)
    (es : List DirEntry) : Cached hash readInode es noChildren := by
  obtain ⟨hwf, hnone⟩ := UnorderedMap.wf_ofCapacity (K := CString) (V := FileNode) hash
    (show 0 < UnorderedMap.initialBucketSize by decide)
  refine ⟨hwf, fun name node hmem => ?_⟩
  rw [show noChildren.entries = [] from hnone] at hmem
  exact absurd hmem List.not_mem_nil

/-- **What a lookup returns** on a well-formed directory. -/
theorem getFile_eq (h : WellFormedDir mi readInode inode entries) (hfuel : mi.blockSize ≤ fuel)
    (hash : CString → Nat) (children : Children) (filename : CString) :
    getFile mi readInode hash fuel inode children filename
      = match lookupEntry filename (allEntries mi inode entries) with
        | none => some (.returns (.error .ENOENT, children))
        | some e =>
            match newNode readInode e.inode filename with
            | none => some .panics
            | some node => some (.returns (.ok node, (children.insert hash node.name node).2)) := by
  unfold getFile
  rw [getFile_scan h hfuel, foldlM_fileStep]
  cases lookupEntry filename (allEntries mi inode entries) with
  | none => rfl
  | some e =>
      dsimp only
      cases newNode readInode e.inode filename <;> rfl

theorem lookupEntry_some {filename : CString} {es : List DirEntry} {e : DirEntry}
    (hdot : filename ≠ dot) (hdotDot : filename ≠ dotDot)
    (hfound : lookupEntry filename es = some e) (hchars : e.inode ≠ 0 → e.cName.chars = e.name) :
    e ∈ es ∧ e.visible = true ∧ e.cName = filename := by
  have hsame := List.find?_some hfound
  obtain ⟨hlive, hname⟩ := of_decide_eq_true hsame
  have hcName : e.cName = filename := by
    have hchars := hchars hlive
    rw [← hname] at hchars
    cases filename
    cases hc : e.cName
    rw [hc] at hchars
    subst hchars
    rfl
  refine ⟨List.mem_of_find?_eq_some hfound, DirEntry.visible_iff.mpr ⟨hlive, ?_, ?_⟩, hcName⟩
  · rw [hcName]
    exact hdot
  · rw [hcName]
    exact hdotDot

/-- A lookup with `get_file`, of a name that is not among the children, by which `get_file`
returns. -/
def LookupStep (mi : MountInfo) (readInode : Nat → InodeFields) (hash : CString → Nat)
    (fuel : Nat) (inode : Inode) (children : Children) (filename : CString)
    (children' : Children) : Prop :=
  filename ≠ dot ∧ filename ≠ dotDot ∧ children.at hash filename = none
    ∧ ∃ result, getFile mi readInode hash fuel inode children filename
        = some (.returns (result, children'))

/-- **One lookup** keeps the invariant. -/
theorem Cached.lookup (h : WellFormedDir mi readInode inode entries) (hfuel : mi.blockSize ≤ fuel)
    (hcached : Cached hash readInode (allEntries mi inode entries) children)
    {filename : CString} {children' : Children}
    (hstep : LookupStep mi readInode hash fuel inode children filename children') :
    Cached hash readInode (allEntries mi inode entries) children' := by
  obtain ⟨hdot, hdotDot, hnew, result, hget⟩ := hstep
  rw [getFile_eq h hfuel] at hget
  cases hfound : lookupEntry filename (allEntries mi inode entries) with
  | none =>
      rw [hfound] at hget
      cases hget
      exact hcached
  | some e =>
      have hmem := List.mem_of_find?_eq_some hfound
      obtain ⟨he, hvisible, rfl⟩ := lookupEntry_some hdot hdotDot hfound (h.chars hmem)
      rw [hfound] at hget
      dsimp only at hget
      cases hnode : newNode readInode e.inode e.cName with
      | none =>
          rw [hnode] at hget
          cases hget
      | some node =>
          rw [hnode] at hget
          cases hget
          have hname : node.name = e.cName := newNode_name hnode
          rw [hname]
          have hfresh := (UnorderedMap.at_eq_none_iff hcached.wf e.cName).mp hnew
          obtain ⟨-, hwf, hperm⟩ := UnorderedMap.insert_of_not_mem hcached.wf (v := node) hfresh
          refine ⟨hwf, fun name node' hmem => ?_⟩
          rcases List.mem_cons.mp (hperm.mem_iff.mp hmem) with heq | hold
          · cases heq
            exact ⟨e, he, hvisible, rfl, hnode⟩
          · exact hcached.entry name node' hold

theorem cached_run (h : WellFormedDir mi readInode inode entries) (hfuel : mi.blockSize ≤ fuel)
    {lookups : List CString}
    (hrun : Run (LookupStep mi readInode hash fuel inode) noChildren lookups children) :
    Cached hash readInode (allEntries mi inode entries) children :=
  hrun.invariant _ (cached_noChildren hash readInode _) fun _ _ _ hcached hstep =>
    hcached.lookup h hfuel hstep

/-- What the nodes of visible entries take from the entries. -/
theorem WellFormedDir.map_node {β : Type} (h : WellFormedDir mi readInode inode entries)
    (f : FileNode → β) {g : DirEntry → β}
    (hfg : ∀ e node, newNode readInode e.inode e.cName = some node → f node = g e)
    {es : List DirEntry}
    (hes : ∀ e ∈ es, e ∈ (allEntries mi inode entries).filter DirEntry.visible) :
    (es.map (DirEntry.node readInode)).map (Option.map f) = (es.map g).map some := by
  rw [List.map_map, List.map_map]
  refine List.map_congr_left fun e he => ?_
  obtain ⟨hmem, hvisible⟩ := List.mem_filter.mp (hes e he)
  obtain ⟨node, hnode, -⟩ := h.exists_node hmem (DirEntry.visible_iff.mp hvisible).1
  show (e.node readInode).map f = some (g e)
  rw [hnode, ← hfg e node hnode]
  rfl

/-- The children are the nodes of the entries whose names they have. -/
theorem Cached.values_perm (h : WellFormedDir mi readInode inode entries)
    (hcached : Cached hash readInode (allEntries mi inode entries) children) :
    ((children.entries.map Prod.snd).map some).Perm
      ((((allEntries mi inode entries).filter DirEntry.visible).filter
        fun e => ! (children.at hash e.cName).isNone).map (DirEntry.node readInode)) := by
  have hkeys : ((children.entries.map Prod.snd).map some).map (Option.map FileNode.name)
      = (children.entries.map Prod.fst).map some := by
    rw [List.map_map, List.map_map, List.map_map]
    refine List.map_congr_left fun ⟨name, node⟩ hmem => ?_
    obtain ⟨e, -, -, rfl, hnode⟩ := hcached.entry name node hmem
    exact congrArg some (newNode_name hnode)
  have hnames : ((((allEntries mi inode entries).filter DirEntry.visible).filter
        fun e => ! (children.at hash e.cName).isNone).map (DirEntry.node readInode)).map
          (Option.map FileNode.name)
      = ((((allEntries mi inode entries).filter DirEntry.visible).filter
        fun e => ! (children.at hash e.cName).isNone).map DirEntry.cName).map some := by
    exact h.map_node FileNode.name (fun _ _ => newNode_name)
      fun e he => List.mem_of_mem_filter he
  -- no node is twice on either side, as the names are not
  have hsome : Function.Injective (some : CString → Option CString) := Option.some_injective _
  have hleft := List.Nodup.of_map _ (hkeys ▸ hcached.wf.nodup.map hsome)
  have hright := List.Nodup.of_map _
    (hnames ▸ (h.visible_nodup.sublist (List.filter_sublist.map _)).map hsome)
  refine (List.perm_ext_iff_of_nodup hleft hright).mpr fun x => ?_
  rw [List.map_map, List.mem_map, List.mem_map]
  constructor
  · rintro ⟨⟨name, node⟩, hmem, rfl⟩
    obtain ⟨e, he, hvisible, rfl, hnode⟩ := hcached.entry name node hmem
    have hat := (UnorderedMap.at_eq_some_iff hcached.wf e.cName node).mpr hmem
    refine ⟨e, List.mem_filter.mpr ⟨List.mem_filter.mpr ⟨he, hvisible⟩, ?_⟩, hnode⟩
    rw [hat]
    rfl
  · rintro ⟨e, he, rfl⟩
    obtain ⟨he, hlisted⟩ := List.mem_filter.mp he
    obtain ⟨he, hvisible⟩ := List.mem_filter.mp he
    cases hat : children.at hash e.cName with
    | none =>
        rw [hat] at hlisted
        cases hlisted
    | some node =>
        have hmem := (UnorderedMap.at_eq_some_iff hcached.wf e.cName node).mp hat
        obtain ⟨e', he', hvisible', hname, hnode⟩ := hcached.entry _ node hmem
        obtain rfl := h.eq_of_cName he' he (DirEntry.visible_iff.mp hvisible').1
          (DirEntry.visible_iff.mp hvisible).1 hname
        exact ⟨_, hmem, hnode.symm⟩

/-- **The listing** has the node of each entry that is visible. -/
theorem getFiles_eq (h : WellFormedDir mi readInode inode entries) (hfuel : mi.blockSize ≤ fuel)
    (hcached : Cached hash readInode (allEntries mi inode entries) children) :
    ∃ nodes children', getFiles mi readInode hash fuel inode children
        = some (.returns (nodes, children'))
      ∧ (nodes.map some).Perm (((allEntries mi inode entries).filter DirEntry.visible).map
        (DirEntry.node readInode)) := by
  obtain ⟨children', made, hfold, hmade⟩ := foldlM_filesStep readInode hash
    (allEntries mi inode entries) children (children.entries.map Prod.snd)
    hcached.wf (fun e he hvisible => by
      refine h.known e ?_
      rw [liveEntries_eq]
      exact List.mem_filter.mpr
        ⟨he, decide_eq_true (DirEntry.visible_iff.mp hvisible).1⟩) h.visible_nodup
  refine ⟨children.entries.map Prod.snd ++ made, children', ?_, ?_⟩
  · unfold getFiles
    rw [getFiles_scan h hfuel, hfold]
  · rw [List.map_append, hmade]
    refine ((hcached.values_perm h).append_right _).trans ?_
    rw [← List.map_append]
    refine List.Perm.map _ (List.perm_append_comm.trans ?_)
    exact List.filter_append_perm _ _

/-- The node of the listing that has a name. -/
theorem mem_listing_iff {nodes : List FileNode}
    (hnodes : (nodes.map some).Perm (((allEntries mi inode entries).filter DirEntry.visible).map
      (DirEntry.node readInode))) {node : FileNode} :
    node ∈ nodes ↔ ∃ e ∈ allEntries mi inode entries, e.visible = true
      ∧ e.node readInode = some node := by
  have hmem := hnodes.mem_iff (a := some node)
  rw [List.mem_map_of_injective (Option.some_injective _), List.mem_map] at hmem
  rw [hmem]
  constructor
  · intro ⟨e, he, hnode⟩
    exact ⟨e, (List.mem_filter.mp he).1, (List.mem_filter.mp he).2, hnode⟩
  · intro ⟨e, he, hvisible, hnode⟩
    exact ⟨e, List.mem_filter.mpr ⟨he, hvisible⟩, hnode⟩

/-- **A lookup is a search in the listing.** -/
theorem lookup_in_listing (h : WellFormedDir mi readInode inode entries) {nodes : List FileNode}
    (hnodes : (nodes.map some).Perm (((allEntries mi inode entries).filter DirEntry.visible).map
      (DirEntry.node readInode))) {filename : CString} (hdot : filename ≠ dot)
    (hdotDot : filename ≠ dotDot) :
    (lookupEntry filename (allEntries mi inode entries)).bind (DirEntry.node readInode)
      = nodes.find? fun node => node.name = filename := by
  cases hfound : lookupEntry filename (allEntries mi inode entries) with
  | none =>
      -- a node with the name would have an entry with it
      refine (List.find?_eq_none.mpr fun node hnode hname => ?_).symm
      obtain ⟨e, he, hvisible, hmade⟩ := (mem_listing_iff hnodes).mp hnode
      have hlive := (DirEntry.visible_iff.mp hvisible).1
      have hchars : filename.chars = e.name := by
        rw [← of_decide_eq_true hname, newNode_name hmade, h.chars he hlive]
      exact List.find?_eq_none.mp hfound e he (decide_eq_true ⟨hlive, hchars⟩)
  | some e =>
      have hmem := List.mem_of_find?_eq_some hfound
      obtain ⟨he, hvisible, rfl⟩ := lookupEntry_some hdot hdotDot hfound (h.chars hmem)
      have hlive := (DirEntry.visible_iff.mp hvisible).1
      obtain ⟨node, hnode, hname⟩ := h.exists_node he hlive
      have hlisted := (mem_listing_iff hnodes).mpr ⟨e, he, hvisible, hnode⟩
      rw [Option.bind_some, hnode]
      cases hfind : nodes.find? fun node => node.name = e.cName with
      | none => exact absurd (decide_eq_true hname) (List.find?_eq_none.mp hfind node hlisted)
      | some node' =>
          have hsame := List.find?_some hfind
          have hname' := of_decide_eq_true hsame
          -- the node that is found has an entry of that name, and there is only one
          obtain ⟨e', he', hvisible', hnode'⟩ :=
            (mem_listing_iff hnodes).mp (List.mem_of_find?_eq_some hfind)
          obtain rfl := h.eq_of_cName he' he (DirEntry.visible_iff.mp hvisible').1 hlive
            ((newNode_name hnode').symm.trans hname')
          exact hnode.symm.trans hnode'

/-- The names and inodes of the listing. -/
theorem listing_pairs (h : WellFormedDir mi readInode inode entries) {nodes : List FileNode}
    (hnodes : (nodes.map some).Perm (((allEntries mi inode entries).filter DirEntry.visible).map
      (DirEntry.node readInode))) :
    (nodes.map fun node => (node.name, node.inode)).Perm
      (((allEntries mi inode entries).filter DirEntry.visible).map
        fun e => (e.cName, e.inode)) := by
  have hpairs := hnodes.map (Option.map fun node : FileNode => (node.name, node.inode))
  have hentries : (((allEntries mi inode entries).filter DirEntry.visible).map
        (DirEntry.node readInode)).map (Option.map fun node => (node.name, node.inode))
      = (((allEntries mi inode entries).filter DirEntry.visible).map
        fun e => (e.cName, e.inode)).map some := by
    exact h.map_node (fun node => (node.name, node.inode))
      (fun _ _ hmade => Prod.ext (newNode_name hmade) (newNode_inode hmade)) fun e he => he
  rw [hentries, List.map_map] at hpairs
  refine (List.map_perm_map_iff (Option.some_injective _)).mp ?_
  rw [List.map_map]
  exact hpairs

end Agree

/-- **LISTING AND LOOKUP AGREE.**  On a well-formed directory, after any lookups of names
that were not among the children, `get_files` returns the node of each live entry other
than `.` and `..` once and nothing else, each with the name and the inode of its entry;
and a lookup of any other name than these two returns the node that the listing has
under it, or `ENOENT` if it has none. -/
theorem listing_agrees {mi : MountInfo} {readInode : Nat → InodeFields} {inode : Inode}
    {entries : Nat → List DirEntry} (h : WellFormedDir mi readInode inode entries)
    (hash : CString → Nat) {fuel : Nat} (hfuel : mi.blockSize ≤ fuel) {lookups : List CString}
    {children : Children}
    (hrun : Run (LookupStep mi readInode hash fuel inode) noChildren lookups children) :
    ∃ nodes children', getFiles mi readInode hash fuel inode children
        = some (.returns (nodes, children'))
      ∧ (nodes.map fun node => (node.name, node.inode)).Perm
        (((liveEntries entries (inode.size.toNat / mi.blockSize)).filter
          fun e => e.cName ≠ dot ∧ e.cName ≠ dotDot).map fun e => (e.cName, e.inode))
      ∧ ∀ filename, filename ≠ dot → filename ≠ dotDot →
        getFile mi readInode hash fuel inode children filename
          = some (.returns (match nodes.find? fun node => node.name = filename with
            | some node => (.ok node, (children.insert hash filename node).2)
            | none => (.error .ENOENT, children))) := by
  have hcached := cached_run h hfuel hrun
  obtain ⟨nodes, children', hlist, hnodes⟩ := getFiles_eq h hfuel hcached
  refine ⟨nodes, children', hlist, ?_, fun filename hdot hdotDot => ?_⟩
  · rw [liveEntries_eq, List.filter_filter]
    -- live, and neither `.` nor `..`, is what visible says
    have hvisible : ∀ e ∈ allEntries mi inode entries, e.visible
        = (decide (e.cName ≠ dot ∧ e.cName ≠ dotDot) && decide (e.inode ≠ 0)) := by
      intro e _
      unfold DirEntry.visible
      rw [← Bool.decide_and, decide_eq_decide]
      exact and_comm
    rw [← List.filter_congr hvisible]
    exact listing_pairs h hnodes
  · rw [getFile_eq h hfuel, ← lookup_in_listing h hnodes hdot hdotDot]
    cases hfound : lookupEntry filename (allEntries mi inode entries) with
    | none => rfl
    | some e =>
        have hmem := List.mem_of_find?_eq_some hfound
        obtain ⟨he, hvisible, rfl⟩ := lookupEntry_some hdot hdotDot hfound (h.chars hmem)
        obtain ⟨node, hnode, hname⟩ := h.exists_node he (DirEntry.visible_iff.mp hvisible).1
        have hmade : newNode readInode e.inode e.cName = some node := hnode
        rw [Option.bind_some, hnode]
        dsimp only
        rw [hmade]
        dsimp only
        rw [hname]

/-- A block with the entries of `"."` and `".."`, a free one, and those of `"a"` and `"bb"`. -/
def fewEntriesMount : MountInfo :=
  { smallMount with
    cacheWord := fun _ i =>
      [2, 0x1000c, 0x2e, 2, 0x2000c, 0x2e2e, 0, 0x1000c, 0x63,
        5, 0x1000c, 0x61, 6, 0x203d0, 0x6262].getD i 0 }

def fewEntries (i : Nat) : List DirEntry :=
  if i = 0 then [⟨2, [0x2e]⟩, ⟨2, [0x2e, 0x2e]⟩, ⟨0, [0x63]⟩, ⟨5, [0x61]⟩, ⟨6, [0x62, 0x62]⟩]
  else []

theorem wellFormedDir_few : WellFormedDir fewEntriesMount fileFields oneBlockInode fewEntries := by
  refine ⟨by decide, fun i hi => ?_, by decide, by decide, fun e he => ?_⟩
  · have hi : i * 1024 < 1024 := hi
    obtain rfl : i = 0 := by omega
    have hentry : ∀ {o e n}, le (dirByte fewEntriesMount oneBlockInode 0) o 4 = e.inode →
        le (dirByte fewEntriesMount oneBlockInode 0) (o + 4) 2 = n →
        le (dirByte fewEntriesMount oneBlockInode 0) (o + 6) 1 = e.name.length →
        bytesAt (dirByte fewEntriesMount oneBlockInode 0) (o + 8) e.name.length = e.name →
        8 + e.name.length ≤ n → EntryAt (dirByte fewEntriesMount oneBlockInode 0) o e n :=
      fun hinode hsize hlength hname hin =>
        ⟨hinode, hsize, hlength, hname, by omega, fun _ => hin⟩
    refine Tiled.cons (n := 12) (hentry ?_ ?_ ?_ ?_ ?_) ?_ ?_
      (Tiled.cons (n := 12) (hentry ?_ ?_ ?_ ?_ ?_) ?_ ?_
        (Tiled.cons (n := 12) (hentry ?_ ?_ ?_ ?_ ?_) ?_ ?_
          (Tiled.cons (n := 12) (hentry ?_ ?_ ?_ ?_ ?_) ?_ ?_
            (Tiled.cons (n := 976) (hentry ?_ ?_ ?_ ?_ ?_) ?_ ?_ Tiled.nil))))
    all_goals decide
  · show inodeToVnodeType (0x81ff &&& 0xF000) ≠ none
    decide

/-- A lookup of `"bb"`, the listing, and a lookup of `"a"`. -/
theorem listing_agrees_few :
    ∃ node children nodes children',
      getFile fewEntriesMount fileFields lengthHash 1024 oneBlockInode noChildren
          (CString.ofBytes [0x62, 0x62]) = some (.returns (.ok node, children))
      ∧ getFiles fewEntriesMount fileFields lengthHash 1024 oneBlockInode children
          = some (.returns (nodes, children'))
      ∧ (nodes.map fun node => (node.name, node.inode)).Perm
          [(CString.ofBytes [0x61], 5), (CString.ofBytes [0x62, 0x62], 6)]
      ∧ ∃ a children'', getFile fewEntriesMount fileFields lengthHash 1024 oneBlockInode children
          (CString.ofBytes [0x61]) = some (.returns (.ok a, children'')) ∧ a.inode = 5 := by
  have hget := getFile_eq wellFormedDir_few (Nat.le_refl 1024) lengthHash noChildren
    (CString.ofBytes [0x62, 0x62])
  have hfound : lookupEntry (CString.ofBytes [0x62, 0x62])
      (allEntries fewEntriesMount oneBlockInode fewEntries) = some ⟨6, [0x62, 0x62]⟩ := by decide
  rw [hfound] at hget
  obtain ⟨node, hnode⟩ : ∃ node, newNode fileFields 6 (CString.ofBytes [0x62, 0x62]) = some node :=
    ⟨_, rfl⟩
  dsimp only at hget
  rw [hnode] at hget
  have hstep : LookupStep fewEntriesMount fileFields lengthHash 1024 oneBlockInode noChildren
      (CString.ofBytes [0x62, 0x62]) (noChildren.insert lengthHash node.name node).2 :=
    ⟨by decide, by decide, UnorderedMap.at_ofCapacity (by decide) _, _, hget⟩
  obtain ⟨nodes, children', hlist, hperm, hlookup⟩ := listing_agrees wellFormedDir_few lengthHash
    (Nat.le_refl 1024) (Run.init.step hstep)
  refine ⟨node, _, nodes, children', hget, hlist, hperm, ?_⟩
  have hlook := hlookup (CString.ofBytes [0x61]) (by decide) (by decide)
  -- the listing has a node of that name, and any such node has inode 5
  obtain ⟨a, ha, hname⟩ := List.mem_map.mp
    (hperm.mem_iff.mpr (show (CString.ofBytes [0x61], 5) ∈ _ from List.mem_cons_self))
  cases hfind : nodes.find? fun node => node.name = CString.ofBytes [0x61] with
  | none =>
      exact absurd (decide_eq_true (Prod.mk.inj hname).1) (List.find?_eq_none.mp hfind a ha)
  | some a' =>
      have hsame := List.find?_some hfind
      have hname' := of_decide_eq_true hsame
      rw [hfind] at hlook
      refine ⟨a', _, hlook, ?_⟩
      have hmem := hperm.mem_iff.mp (List.mem_map_of_mem (List.mem_of_find?_eq_some hfind))
      rw [hname'] at hmem
      rcases List.mem_cons.mp hmem with heq | hmem
      · exact (Prod.mk.inj heq).2
      · have heq := (Prod.mk.inj (List.mem_singleton.mp hmem)).1
        exact absurd heq (by decide)

end MierOS.Ext2
