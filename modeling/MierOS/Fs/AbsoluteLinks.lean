/-
  MierOS.Fs.AbsoluteLinks — symbolic links whose destination starts with `/`.

  `resolve_link` resolves every destination from the directory of the link;
  the leading separator is an empty component, which the loop of `get_file`
  skips.  A caller that wants the VFS root has to hand over a null node, as the
  `openat` system call does.

  The level limit is kept apart from that: `Fits` says that a path meets no
  link that cannot be resolved in the levels that are left, and a path that
  fits gives the same result with any number of levels above
  (`walk_of_fits`).

  Main result: `absolute_link_iff`.
-/
import MierOS.Fs.Vfs

namespace MierOS.Fs

namespace Tree

variable {N : Type} {t : Tree N}

/-! ## §1. The links on the way, and the levels they need. -/

/-- The nodes a walk hands to the link resolver. -/
def linksMet (t : Tree N) (resolver : N → Except Errno N) (flags : FilesystemFlags) :
    N → List Path → List N
  | root, [] => if t.type root = .LINK ∧ flags.resolveLink = true then [root] else []
  | root, part :: ps =>
      let here := if t.type root = .LINK then [root] else []
      match t.loopBody resolver flags root part with
      | .error _ => here
      | .ok next => here ++ linksMet t resolver flags next ps

/-- A link, and every link its destination leads over, can be resolved with this
many levels. -/
def LinkFits (t : Tree N) : Nat → N → Prop
  | 0, link => t.type link ≠ .LINK
  | levels + 1, link =>
      ∀ n ∈ t.linksMet (t.resolveLinkLevels levels) .all ((t.parent link).getD t.rootNode)
        (parts (t.destination link)), LinkFits t levels n

/-- Every link on a path from the VFS root can be resolved with this many
levels. -/
def Fits (t : Tree N) (levels : Nat) (path : Path) : Prop :=
  ∀ n ∈ t.linksMet (t.resolveLinkLevels levels) .all t.rootNode (parts path), t.LinkFits levels n

/-- A walk depends on the resolver at the links it meets only. -/
theorem walk_congr {resolver resolver' : N → Except Errno N} {flags : FilesystemFlags}
    {root : N} {ps : List Path}
    (h : ∀ n ∈ t.linksMet resolver flags root ps, resolver n = resolver' n) :
    t.walk resolver flags root ps = t.walk resolver' flags root ps := by
  induction ps generalizing root with
  | nil =>
      rw [walk_nil, walk_nil]
      unfold finish
      by_cases hlink : t.type root = .LINK ∧ flags.resolveLink = true
      · rw [if_pos hlink, if_pos hlink]
        apply h
        unfold linksMet
        rw [if_pos hlink]
        exact List.mem_singleton_self root
      · rw [if_neg hlink, if_neg hlink]
  | cons part ps ih =>
      have henter : t.enter resolver flags root = t.enter resolver' flags root := by
        unfold enter
        by_cases hlink : t.type root = .LINK
        · have hmem : root ∈ t.linksMet resolver flags root (part :: ps) := by
            unfold linksMet
            simp only [if_pos hlink]
            split <;> simp
          rw [if_pos hlink, if_pos hlink, h root hmem]
        · rw [if_neg hlink, if_neg hlink]
      have hbody : t.loopBody resolver flags root part = t.loopBody resolver' flags root part := by
        unfold loopBody
        rw [henter]
      rw [walk_cons, walk_cons, ← hbody]
      cases hnext : t.loopBody resolver flags root part with
      | error e => rfl
      | ok next =>
          apply ih
          intro n hn
          apply h
          unfold linksMet
          rw [hnext]
          exact List.mem_append_right _ hn

/-- A link that fits is resolved the same with more levels: induction on the
levels it fits in. -/
theorem resolveLinkLevels_of_fits {levels more : Nat} (hle : levels ≤ more) {link : N}
    (h : t.LinkFits levels link) :
    t.resolveLinkLevels levels link = t.resolveLinkLevels more link := by
  induction levels generalizing more link with
  | zero =>
      have hne : t.type link ≠ .LINK := h
      cases more with
      | zero => rfl
      | succ more =>
          unfold resolveLinkLevels
          rw [if_pos hne, if_pos hne]
  | succ levels ih =>
      cases more with
      | zero => omega
      | succ more =>
          conv_lhs => unfold resolveLinkLevels
          conv_rhs => unfold resolveLinkLevels
          by_cases hne : t.type link ≠ .LINK
          · rw [if_pos hne, if_pos hne]
          · rw [if_neg hne, if_neg hne]
            exact walk_congr (fun n hn => ih (by omega) (h n hn))

/-- **A path that fits does not see the limit.** -/
theorem walk_of_fits {levels more : Nat} (hle : levels ≤ more) {path : Path}
    (h : t.Fits levels path) :
    t.walk (t.resolveLinkLevels levels) .all t.rootNode (parts path)
      = t.walk (t.resolveLinkLevels more) .all t.rootNode (parts path) :=
  walk_congr (fun n hn => resolveLinkLevels_of_fits hle (h n hn))

/-! ## §2. Absolute destinations. -/

/-- The same tree with another destination stored in a link. -/
def setDestination [DecidableEq N] (t : Tree N) (link : N) (dest : Path) : Tree N :=
  { t with destination := Function.update t.destination link dest }

/-- The levels a destination may need, so that neither the link's own depth nor
the limit of a fresh call cuts its resolution off. -/
def levelsLeft (depth : Int) : Nat := min (127 - depth).toNat 128

/-- **What an absolute link is to do**: resolve like its destination from the
VFS root. -/
def ResolvesFromRoot (t : Tree N) (depth : Int) (link : N) : Prop :=
  t.resolveLink depth link = t.getFile none (t.destination link) .all 0

/-- A link in the VFS root directory, or without a directory. -/
theorem resolvesFromRoot_of_parent {link : N} (hlink : t.type link = .LINK) {depth : Int}
    (hdepth : depth < 128) (hparent : t.parent link = none ∨ t.parent link = some t.rootNode)
    (hfits : t.Fits (levelsLeft depth) (t.destination link)) : t.ResolvesFromRoot depth link := by
  have hstart : (t.parent link).getD t.rootNode = t.rootNode := by
    cases hparent with
    | inl h => rw [h]; rfl
    | inr h => rw [h]; rfl
  unfold ResolvesFromRoot
  rw [resolveLink_eq, if_neg (not_not_intro hlink), if_neg (by omega)]
  unfold getFile resolveLink
  rw [hstart]
  show _ = t.walk _ .all t.rootNode _
  have hdeeper : levelsLeft depth ≤ (128 - (depth + 1)).toNat := by
    unfold levelsLeft
    omega
  have hfresh : levelsLeft depth ≤ (128 - (0 : Int)).toNat := by
    unfold levelsLeft
    omega
  have hnear := walk_of_fits hdeeper hfits
  have hfar := walk_of_fits hfresh hfits
  rw [← hnear, ← hfar]

/-- From a directory, `/.` leads to the directory itself. -/
theorem walk_slash_dot {resolver : N → Except Errno N} {dir : N}
    (hdir : t.type dir = .DIRECTORY) : t.walk resolver .all dir (parts ['/', '.']) = .ok dir := by
  have hne : t.type dir ≠ .LINK := by rw [hdir]; exact VNodeType.noConfusion
  have hbody : ∀ part, part = [] ∨ part = ['.'] →
      t.loopBody resolver .all dir part = .ok dir := by
    intro part hpart
    unfold loopBody enter
    rw [if_neg hne]
    show t.descend dir part = _
    unfold descend
    rw [if_neg (not_not_intro hdir), if_pos hpart]
  show t.walk resolver .all dir [[], ['.']] = _
  rw [walk_cons, hbody [] (Or.inl rfl)]
  show t.walk resolver .all dir [['.']] = _
  rw [walk_cons, hbody ['.'] (Or.inr rfl)]
  show t.finish resolver .all dir = _
  unfold finish
  rw [if_neg (fun h => hne h.1)]

/-- `/.` meets no link on the way from a root that is a directory. -/
theorem fits_slash_dot (hroot : t.type t.rootNode = .DIRECTORY) (levels : Nat) :
    t.Fits levels ['/', '.'] := by
  intro n hn
  have hnone : t.linksMet (t.resolveLinkLevels levels) .all t.rootNode (parts ['/', '.']) = [] := by
    show t.linksMet _ .all t.rootNode [[], ['.']] = []
    simp [linksMet, loopBody, enter, descend, hroot, bind, Except.bind]
  rw [hnone] at hn
  cases hn

end Tree

/-- **Absolute symbolic links.**  Over every tree of directories, a link does
with EVERY absolute destination (whose own links fit in the levels left) what
the destination does from the VFS root exactly when the link lives in the VFS
root directory or in none. -/
theorem absolute_link_iff {N : Type} [DecidableEq N] (t : Tree N)
    (hroot : t.type t.rootNode = .DIRECTORY) {link : N} (hlink : t.type link = .LINK)
    (hdir : ∀ d, t.parent link = some d → t.type d = .DIRECTORY) {depth : Int}
    (hdepth : depth < 128) :
    (∀ dest, dest.head? = some '/' →
        (t.setDestination link dest).Fits (Tree.levelsLeft depth) dest →
        (t.setDestination link dest).ResolvesFromRoot depth link)
      ↔ (t.parent link = none ∨ t.parent link = some t.rootNode) := by
  constructor
  · intro hall
    cases hparent : t.parent link with
    | none => exact Or.inl rfl
    | some d =>
        right
        -- with the destination `/.` the link gives its own directory
        let t' := t.setDestination link ['/', '.']
        have hdest : t'.destination link = ['/', '.'] := Function.update_self _ _ _
        have hresolves := hall ['/', '.'] rfl (Tree.fits_slash_dot (t := t') hroot _)
        have hleft : t'.resolveLink depth link = .ok d := by
          have hlink' : t'.type link = .LINK := hlink
          rw [Tree.resolveLink_eq, if_neg (not_not_intro hlink'), if_neg (by omega), hdest]
          show t'.walk _ .all ((t.parent link).getD t.rootNode) _ = _
          rw [hparent]
          exact Tree.walk_slash_dot (t := t') (hdir d hparent)
        have hright : t'.getFile none (t'.destination link) .all 0 = .ok t.rootNode := by
          rw [hdest]
          exact Tree.walk_slash_dot (t := t') hroot
        have heq : t'.resolveLink depth link = t'.getFile none (t'.destination link) .all 0 :=
          hresolves
        rw [hleft, hright] at heq
        injection heq with heq
        rw [heq]
  · intro hparent dest _ hfits
    have hdest : (t.setDestination link dest).destination link = dest :=
      Function.update_self _ _ _
    exact Tree.resolvesFromRoot_of_parent (t := t.setDestination link dest) hlink hdepth hparent
      (hdest.symm ▸ hfits)

/-- The root `0` with a file `3` named `f`, a directory `1`, and a link `2` with
destination `/f` in the directory `dir`. -/
def linkIn (dir : Nat) : Tree Nat where
  rootNode := 0
  type := fun n => if n = 2 then .LINK else if n = 3 then .FILE else .DIRECTORY
  parent := fun n => if n = 2 then some dir else if n = 0 then none else some 0
  children := fun n name => if n = 0 ∧ name = ['f'] then some 3 else none
  destination := fun _ => ['/', 'f']

/-- In the root directory the link resolves from the root. -/
theorem absolute_link_iff_root :
    ((linkIn 0).setDestination 2 ['/', 'f']).ResolvesFromRoot 0 2 := by
  have hdir : ∀ d, (linkIn 0).parent 2 = some d → (linkIn 0).type d = .DIRECTORY := by
    intro d hd
    have hd' : some 0 = some d := hd
    injection hd' with hd'
    rw [← hd']
    rfl
  have hfits : ((linkIn 0).setDestination 2 ['/', 'f']).Fits (Tree.levelsLeft 0) ['/', 'f'] := by
    -- the walk meets the file `3` only
    intro n hn
    have hnone : ((linkIn 0).setDestination 2 ['/', 'f']).linksMet
        (((linkIn 0).setDestination 2 ['/', 'f']).resolveLinkLevels (Tree.levelsLeft 0)) .all
        0 (parts ['/', 'f']) = [] := rfl
    have hn' : n ∈ ([] : List Nat) := hnone ▸ hn
    exact nomatch hn'
  exact (absolute_link_iff (linkIn 0) rfl rfl hdir (by decide)).mpr (Or.inr rfl) ['/', 'f'] rfl
    hfits

/-- **In the directory `1` it does not**: `/f` is looked up in that directory. -/
theorem absolute_link_in_directory :
    ¬ ∀ (t : Tree Nat) (link : Nat) (depth : Int), t.type link = .LINK →
        (t.destination link).head? = some '/' → depth < 128 →
        t.resolveLink depth link = t.getFile none (t.destination link) .all 0 := by
  intro hclaim
  have heq := hclaim (linkIn 1) 2 0 rfl rfl (by decide)
  have hleft : (linkIn 1).resolveLink 0 2 = .error .ENOENT := rfl
  have hright : (linkIn 1).getFile none ((linkIn 1).destination 2) .all 0 = .ok 3 := rfl
  rw [hleft, hright] at heq
  exact nomatch heq

end MierOS.Fs
