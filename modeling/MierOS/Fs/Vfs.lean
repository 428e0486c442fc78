/-
  MierOS.Fs.Vfs — path resolution: `VFS::get_file` of `vfs.cpp` with
  `VNodeFilesystem::get_file` and `resolve_link` of `vnodefs.cpp`.

  The nodes form an ARBITRARY graph: any node can be the parent of any other,
  any link can lead anywhere, itself included.  `get_file` and `resolve_link`
  call each other; the depth is handed along a path unchanged and goes up by
  one at a link, so the definition recurses on the link levels that are left.

  Main results: `Tree.resolveLink_eq`, `Tree.getFile_eq`, `Returns`,
  `link_resolution_total`.
-/
import MierOS.Types
import Mathlib.Logic.Function.Basic
import Mathlib.Data.Option.Basic

namespace MierOS.Fs

/-! ## §1. Nodes and paths. -/

/-- `VNode::Type`. -/
inductive VNodeType where
  | DIRECTORY
  | FILE
  | BLOCK_DEVICE
  | LINK
  | MOUNT
  | CHARACTER_DEVICE
  deriving Repr, DecidableEq

/-- The characters of a C string before its terminator. -/
abbrev Path := List Char

/-- `FilesystemFlags`. -/
structure FilesystemFlags where
  resolveLink : Bool
  followLinks : Bool
  deriving Repr, DecidableEq

/-- `{ .resolve_link = true, .follow_links = true }`. -/
def FilesystemFlags.all : FilesystemFlags := ⟨true, true⟩

/-- The nodes of VNode-only filesystems and the VFS root: `f_type`, `f_parent`,
`f_children` and, for a link, the stored destination. -/
structure Tree (N : Type) where
  rootNode : N
  type : N → VNodeType
  parent : N → Option N
  children : N → Path → Option N
  destination : N → Path

/-- What `strchr(path_ptr, '/')` cuts a path into, one piece per separator and
the piece after the last. -/
def components : Path → List Path
  | [] => [[]]
  | c :: s =>
      if c = '/' then [] :: components s
      else
        match components s with
        | [] => [[c]]
        | p :: ps => (c :: p) :: ps

/-- The pieces the loop of `get_file` goes through: none for the empty path,
whose first character is already the terminator. -/
def parts (path : Path) : List Path := if path = [] then [] else components path

theorem components_separator (s : Path) : components ('/' :: s) = [] :: components s := by
  simp [components]

theorem components_char {c : Char} (hc : c ≠ '/') {s p : Path} {ps : List Path}
    (h : components s = p :: ps) : components (c :: s) = (c :: p) :: ps := by
  simp [components, hc, h]

theorem components_ne_nil (s : Path) : components s ≠ [] := by
  cases s with
  | nil => simp [components]
  | cons c s =>
      unfold components
      split
      · simp
      · split <;> simp

/-- Cutting at one of the separators. -/
theorem components_append (p q : Path) :
    components (p ++ '/' :: q) = components p ++ components q := by
  induction p with
  | nil => exact components_separator q
  | cons c p ih =>
      rw [List.cons_append]
      by_cases hc : c = '/'
      · rw [hc, components_separator, components_separator, ih]
        rfl
      · cases hp : components p with
        | nil => exact absurd hp (components_ne_nil p)
        | cons x xs =>
            have hpq : components (p ++ '/' :: q) = x :: (xs ++ components q) := by
              rw [ih, hp]
              rfl
            rw [components_char hc hp, components_char hc hpq]
            rfl

theorem parts_append (p q : Path) : parts (p ++ '/' :: q) = components p ++ components q := by
  unfold parts
  rw [if_neg (by simp), components_append]

theorem parts_of_ne_nil {q : Path} (h : q ≠ []) : parts q = components q := if_neg h

/-! ## §2. The resolver. -/

namespace Tree

variable {N : Type} (t : Tree N)

/-- `VNodeFilesystem::get_file(root, filename, flags)`; the VFS always hands it a
node. -/
def fsGetFile (root : N) (filename : Path) : Except Errno N :=
  if filename = [] then .ok root
  else
    match t.children root filename with
    | none => .error .ENOENT
    | some file => .ok file

/-- The link test at the head of the loop body. -/
def enter (resolver : N → Except Errno N) (flags : FilesystemFlags) (root : N) :
    Except Errno N :=
  if t.type root = .LINK then
    if flags.followLinks then resolver root else .error .ELOOP
  else .ok root

/-- The rest of the loop body: where `part` leads from `root`. -/
def descend (root : N) (part : Path) : Except Errno N :=
  if t.type root ≠ .DIRECTORY then .error .ENOTDIR
  else if part = [] ∨ part = ['.'] then .ok root
  else if part = ['.', '.'] then .ok ((t.parent root).getD root)
  else
    match t.children root part with
    | none => t.fsGetFile root part
    | some nextRoot => .ok nextRoot

/-- One turn of the loop of `get_file`. -/
def loopBody (resolver : N → Except Errno N) (flags : FilesystemFlags) (root : N) (part : Path) :
    Except Errno N :=
  t.enter resolver flags root >>= fun root => t.descend root part

/-- After the loop: "resolve the link if necessary". -/
def finish (resolver : N → Except Errno N) (flags : FilesystemFlags) (root : N) :
    Except Errno N :=
  if t.type root = .LINK ∧ flags.resolveLink = true then resolver root else .ok root

/-- The loop and what follows it. -/
def walk (resolver : N → Except Errno N) (flags : FilesystemFlags) (root : N)
    (ps : List Path) : Except Errno N :=
  ps.foldlM (t.loopBody resolver flags) root >>= t.finish resolver flags

/-- `resolve_link` with `levels` left until the depth test fails. -/
def resolveLinkLevels : Nat → N → Except Errno N
  | 0, link => if t.type link ≠ .LINK then .error .ENOLINK else .error .ELOOP
  | levels + 1, link =>
      if t.type link ≠ .LINK then .error .ENOLINK
      else
        t.walk (resolveLinkLevels levels) .all ((t.parent link).getD t.rootNode)
          (parts (t.destination link))

/-- `VNodeFilesystem::resolve_link(link, depth)`. -/
def resolveLink (depth : Int) (link : N) : Except Errno N :=
  t.resolveLinkLevels (128 - depth).toNat link

/-- `VFS::get_file(root, path, flags, depth)`. -/
def getFile (root : Option N) (path : Path) (flags : FilesystemFlags) (depth : Int) :
    Except Errno N :=
  t.walk (t.resolveLink depth) flags (root.getD t.rootNode) (parts path)

/-- **The code of `resolve_link`.** -/
theorem resolveLink_eq (depth : Int) (link : N) :
    t.resolveLink depth link =
      if t.type link ≠ .LINK then .error .ENOLINK
      else if depth ≥ 128 then .error .ELOOP
      else t.getFile (t.parent link) (t.destination link) .all (depth + 1) := by
  unfold resolveLink
  by_cases hd : depth ≥ 128
  · rw [show (128 - depth).toNat = 0 by omega]
    unfold resolveLinkLevels
    rw [if_pos hd]
  · rw [show (128 - depth).toNat = (128 - (depth + 1)).toNat + 1 by omega]
    conv_lhs => unfold resolveLinkLevels
    rw [if_neg hd]
    rfl

/-- **The code of `get_file`**, one piece of the path at a time. -/
theorem walk_cons (resolver : N → Except Errno N) (flags : FilesystemFlags) (root : N)
    (part : Path) (rest : List Path) :
    t.walk resolver flags root (part :: rest)
      = t.loopBody resolver flags root part >>= fun next => t.walk resolver flags next rest := by
  unfold walk
  rw [List.foldlM_cons, bind_assoc]

theorem walk_nil (resolver : N → Except Errno N) (flags : FilesystemFlags) (root : N) :
    t.walk resolver flags root [] = t.finish resolver flags root := rfl

theorem walk_append (resolver : N → Except Errno N) (flags : FilesystemFlags) (root : N)
    (ps qs : List Path) :
    t.walk resolver flags root (ps ++ qs)
      = ps.foldlM (t.loopBody resolver flags) root
          >>= fun next => t.walk resolver flags next qs := by
  unfold walk
  rw [List.foldlM_append, bind_assoc]

/-! ## §3. The calls of the source, as derivations. -/

/-- A call of one of the two functions, or what is left of `get_file` when its
loop is at some node with some pieces to go: before the test for a link
(`loop`), or behind it (`inside`). -/
inductive Call (N : Type) where
  | getFile (root : Option N) (path : Path) (flags : FilesystemFlags) (depth : Int)
  | loop (flags : FilesystemFlags) (depth : Int) (root : N) (ps : List Path)
  | inside (flags : FilesystemFlags) (depth : Int) (root : N) (part : Path) (ps : List Path)
  | resolveLink (link : N) (depth : Int)

/-- **`Returns c r`**: the call `c` returns, and returns `r`.  One rule per way
through the source; a derivation is a finite run. -/
inductive Returns : Call N → Except Errno N → Prop
  | getFile {root path flags depth r} :
      Returns (.loop flags depth (root.getD t.rootNode) (parts path)) r →
      Returns (.getFile root path flags depth) r
  /-- The loop body at a node that is no link. -/
  | node {flags depth root part ps r} : t.type root ≠ .LINK →
      Returns (.inside flags depth root part ps) r →
      Returns (.loop flags depth root (part :: ps)) r
  /-- At a link that is not to be followed. -/
  | refuse {flags depth root part ps} : t.type root = .LINK → flags.followLinks = false →
      Returns (.loop flags depth root (part :: ps)) (.error .ELOOP)
  /-- At a link that does not resolve. -/
  | broken {flags depth root part ps e} : t.type root = .LINK → flags.followLinks = true →
      Returns (.resolveLink root depth) (.error e) →
      Returns (.loop flags depth root (part :: ps)) (.error e)
  /-- At a link that resolves. -/
  | follow {flags depth root dest part ps r} : t.type root = .LINK → flags.followLinks = true →
      Returns (.resolveLink root depth) (.ok dest) →
      Returns (.inside flags depth dest part ps) r →
      Returns (.loop flags depth root (part :: ps)) r
  | stop {flags depth root part ps e} : t.descend root part = .error e →
      Returns (.inside flags depth root part ps) (.error e)
  | go {flags depth root next part ps r} : t.descend root part = .ok next →
      Returns (.loop flags depth next ps) r →
      Returns (.inside flags depth root part ps) r
  /-- The path is at its end, at a link to be resolved. -/
  | last {flags depth root r} : t.type root = .LINK → flags.resolveLink = true →
      Returns (.resolveLink root depth) r → Returns (.loop flags depth root []) r
  | done {flags depth root} : ¬ (t.type root = .LINK ∧ flags.resolveLink = true) →
      Returns (.loop flags depth root []) (.ok root)
  | noLink {link depth} : t.type link ≠ .LINK →
      Returns (.resolveLink link depth) (.error .ENOLINK)
  | tooDeep {link depth} : t.type link = .LINK → depth ≥ 128 →
      Returns (.resolveLink link depth) (.error .ELOOP)
  | resolve {link depth r} : t.type link = .LINK → depth < 128 →
      Returns (.getFile (t.parent link) (t.destination link) .all (depth + 1)) r →
      Returns (.resolveLink link depth) r

/-- What the definitions of §2 say a call returns. -/
def value : Call N → Except Errno N
  | .getFile root path flags depth => t.getFile root path flags depth
  | .loop flags depth root ps => t.walk (t.resolveLink depth) flags root ps
  | .inside flags depth root part ps =>
      t.descend root part >>= fun next => t.walk (t.resolveLink depth) flags next ps
  | .resolveLink link depth => t.resolveLink depth link

variable {t}

/-- A call returns nothing but its value. -/
theorem Returns.eq_value {c : Call N} {r : Except Errno N} (h : t.Returns c r) :
    r = t.value c := by
  induction h with
  | getFile _ ih => exact ih
  -- the loop: a node, then the three ways a link goes
  | node hne _ ih =>
      rw [ih]
      show _ = t.walk _ _ _ (_ :: _)
      rw [walk_cons, loopBody, enter, if_neg hne, bind_assoc]
      rfl
  | refuse hlink hno =>
      show _ = t.walk _ _ _ (_ :: _)
      rw [walk_cons, loopBody, enter, if_pos hlink, hno]
      rfl
  | broken hlink hyes _ ih =>
      show _ = t.walk _ _ _ (_ :: _)
      rw [walk_cons, loopBody, enter, if_pos hlink, hyes]
      have ih' : t.resolveLink _ _ = .error _ := ih.symm
      rw [if_pos rfl, ih']
      rfl
  | follow hlink hyes _ _ ih ih2 =>
      rw [ih2]
      show _ = t.walk _ _ _ (_ :: _)
      rw [walk_cons, loopBody, enter, if_pos hlink, hyes]
      have ih' : t.resolveLink _ _ = .ok _ := ih.symm
      rw [if_pos rfl, ih', bind_assoc]
      rfl
  | stop hstop =>
      show _ = (t.descend _ _ >>= _)
      rw [hstop]
      rfl
  | go hgo _ ih =>
      rw [ih]
      show _ = (t.descend _ _ >>= _)
      rw [hgo]
      rfl
  -- the link the walk may end on
  | last hlink hyes _ ih =>
      rw [ih]
      show _ = t.finish _ _ _
      rw [finish, if_pos ⟨hlink, hyes⟩]
      rfl
  | done hno =>
      show _ = t.finish _ _ _
      rw [finish, if_neg hno]
  -- `resolve_link`, with its depth limit
  | noLink hne =>
      show _ = t.resolveLink _ _
      rw [resolveLink_eq, if_pos hne]
  | tooDeep hlink hd =>
      show _ = t.resolveLink _ _
      rw [resolveLink_eq, if_neg (not_not_intro hlink), if_pos hd]
  | resolve hlink hd _ ih =>
      rw [ih]
      show _ = t.resolveLink _ _
      rw [resolveLink_eq, if_neg (not_not_intro hlink), if_neg (by omega)]
      rfl

/-- A loop returns when the links it may meet do: induction on the path. -/
theorem returns_loop {depth : Int}
    (hlinks : ∀ link, t.Returns (.resolveLink link depth) (t.resolveLink depth link))
    (flags : FilesystemFlags) (root : N) (ps : List Path) :
    ∃ r, t.Returns (.loop flags depth root ps) r := by
  induction ps generalizing root with
  | nil =>
      by_cases hlast : t.type root = .LINK ∧ flags.resolveLink = true
      · exact ⟨_, Returns.last hlast.1 hlast.2 (hlinks root)⟩
      · exact ⟨_, Returns.done hlast⟩
  | cons part ps ih =>
      have hinside : ∀ node, ∃ r, t.Returns (.inside flags depth node part ps) r := by
        intro node
        cases hd : t.descend node part with
        | error e => exact ⟨_, Returns.stop hd⟩
        | ok next =>
            obtain ⟨r, hr⟩ := ih next
            exact ⟨r, Returns.go hd hr⟩
      by_cases hlink : t.type root = .LINK
      · by_cases hfollow : flags.followLinks = true
        · cases hr : t.resolveLink depth root with
          | error e => exact ⟨_, Returns.broken hlink hfollow (hr ▸ hlinks root)⟩
          | ok dest =>
              obtain ⟨r, hin⟩ := hinside dest
              exact ⟨r, Returns.follow hlink hfollow (hr ▸ hlinks root) hin⟩
        · exact ⟨_, Returns.refuse hlink (by simpa using hfollow)⟩
      · obtain ⟨r, hin⟩ := hinside root
        exact ⟨r, Returns.node hlink hin⟩

/-- **`resolve_link` returns**: induction on the levels left, with the path of
the destination inside. -/
theorem returns_resolveLink (levels : Nat) (depth : Int) (hlevels : (128 - depth).toNat = levels)
    (link : N) : t.Returns (.resolveLink link depth) (t.resolveLink depth link) := by
  induction levels generalizing depth link with
  | zero =>
      have hd : depth ≥ 128 := by omega
      rw [resolveLink_eq]
      by_cases hlink : t.type link = .LINK
      · rw [if_neg (not_not_intro hlink), if_pos hd]
        exact Returns.tooDeep hlink hd
      · rw [if_pos hlink]
        exact Returns.noLink hlink
  | succ levels ih =>
      have hd : depth < 128 := by omega
      rw [resolveLink_eq]
      by_cases hlink : t.type link = .LINK
      · rw [if_neg (not_not_intro hlink), if_neg (by omega)]
        obtain ⟨r, hr⟩ := returns_loop (ih (depth + 1) (by omega)) .all
          ((t.parent link).getD t.rootNode) (parts (t.destination link))
        have hcall : t.Returns (.getFile (t.parent link) (t.destination link) .all (depth + 1)) r :=
          Returns.getFile hr
        have hvalue : r = t.getFile (t.parent link) (t.destination link) .all (depth + 1) :=
          hcall.eq_value
        exact Returns.resolve hlink hd (hvalue ▸ hcall)
      · rw [if_pos hlink]
        exact Returns.noLink hlink

/-- **Every call returns, and returns its value.** -/
theorem returns_getFile (root : Option N) (path : Path) (flags : FilesystemFlags) (depth : Int) :
    t.Returns (.getFile root path flags depth) (t.getFile root path flags depth) := by
  obtain ⟨r, hr⟩ := returns_loop (fun link => returns_resolveLink _ depth rfl link) flags
    (root.getD t.rootNode) (parts path)
  have hcall : t.Returns (.getFile root path flags depth) r := Returns.getFile hr
  have hvalue : r = t.getFile root path flags depth := hcall.eq_value
  exact hvalue ▸ hcall

/-! ## §4. Links at the end of a path and on the way. -/

section Links

variable {resolver : N → Except Errno N} {flags flags' : FilesystemFlags}

/-- The loop looks at `follow_links` only. -/
theorem loopBody_congr (h : flags.followLinks = flags'.followLinks) (root : N) (part : Path) :
    t.loopBody resolver flags root part = t.loopBody resolver flags' root part := by
  unfold loopBody enter
  rw [h]

theorem foldlM_congr (h : flags.followLinks = flags'.followLinks) (root : N) (ps : List Path) :
    ps.foldlM (t.loopBody resolver flags) root = ps.foldlM (t.loopBody resolver flags') root := by
  have hbody : t.loopBody resolver flags = t.loopBody resolver flags' := by
    funext root part
    exact loopBody_congr h root part
  rw [hbody]

/-- What comes out of `finish` with `resolve_link` set is no link. -/
theorem finish_ne_link (hres : ∀ n r, resolver n = .ok r → t.type r ≠ .LINK)
    (hflag : flags.resolveLink = true) {root r : N} (h : t.finish resolver flags root = .ok r) :
    t.type r ≠ .LINK := by
  unfold finish at h
  by_cases hlink : t.type root = .LINK
  · rw [if_pos ⟨hlink, hflag⟩] at h
    exact hres root r h
  · rw [if_neg (fun hand => hlink hand.1)] at h
    injection h with h
    exact h ▸ hlink

theorem walk_ne_link (hres : ∀ n r, resolver n = .ok r → t.type r ≠ .LINK)
    (hflag : flags.resolveLink = true) {root r : N} {ps : List Path}
    (h : t.walk resolver flags root ps = .ok r) : t.type r ≠ .LINK := by
  unfold walk at h
  cases hfold : ps.foldlM (t.loopBody resolver flags) root with
  | error e =>
      rw [hfold] at h
      exact nomatch h
  | ok next =>
      rw [hfold] at h
      exact finish_ne_link hres hflag h

/-- A link never resolves to a link: induction on the levels. -/
theorem resolveLinkLevels_ne_link (levels : Nat) :
    ∀ n r, t.resolveLinkLevels levels n = .ok r → t.type r ≠ .LINK := by
  induction levels with
  | zero =>
      intro n r h
      unfold resolveLinkLevels at h
      split at h
      · exact nomatch h
      · exact nomatch h
  | succ levels ih =>
      intro n r h
      unfold resolveLinkLevels at h
      split at h
      · exact nomatch h
      · exact walk_ne_link ih rfl h

/-- A piece of the path at a link that is not to be followed. -/
theorem walk_refused (hno : flags.followLinks = false) {root : N} (hlink : t.type root = .LINK)
    {ps : List Path} (hps : ps ≠ []) : t.walk resolver flags root ps = .error .ELOOP := by
  cases ps with
  | nil => exact absurd rfl hps
  | cons part ps =>
      rw [walk_cons, loopBody, enter, if_pos hlink, hno]
      rfl

/-- **A link before the last component.** -/
theorem getFile_through_link {root : Option N} {p : Path} {depth : Int} {n : N}
    (hp : t.getFile root p ⟨false, false⟩ depth = .ok n) (hlink : t.type n = .LINK)
    (hno : flags.followLinks = false) (q : Path) :
    t.getFile root (p ++ '/' :: q) flags depth = .error .ELOOP := by
  unfold getFile at hp ⊢
  rw [parts_append]
  by_cases hempty : p = []
  · -- the start node itself is the link
    subst hempty
    have hn : root.getD t.rootNode = n := by
      rw [show parts [] = [] from rfl, walk_nil, finish, if_neg (fun h => nomatch h.2)] at hp
      injection hp
    rw [hn]
    exact walk_refused hno hlink (by simp [components])
  · rw [parts_of_ne_nil hempty] at hp
    have hflags : flags.followLinks = FilesystemFlags.followLinks ⟨false, false⟩ := hno
    rw [walk_append, foldlM_congr hflags]
    unfold walk at hp
    cases hfold : (components p).foldlM (t.loopBody (t.resolveLink depth) ⟨false, false⟩)
        (root.getD t.rootNode) with
    | error e =>
        rw [hfold] at hp
        exact nomatch hp
    | ok next =>
        rw [hfold] at hp
        have hn : next = n := by
          have hp' : t.finish (t.resolveLink depth) ⟨false, false⟩ next = .ok n := hp
          rw [finish, if_neg (fun h => nomatch h.2)] at hp'
          injection hp'
        show t.walk (t.resolveLink depth) flags next (components q) = _
        rw [hn]
        exact walk_refused hno hlink (components_ne_nil q)

theorem getFile_from_link {root : N} (hlink : t.type root = .LINK)
    (hno : flags.followLinks = false) {path : Path} (hpath : path ≠ []) (depth : Int) :
    t.getFile (some root) path flags depth = .error .ELOOP := by
  unfold getFile
  rw [parts_of_ne_nil hpath]
  exact walk_refused hno hlink (components_ne_nil path)

end Links

end Tree

/-- **Link resolution is total and complete**, over every graph of nodes.

  1. Every call of `get_file` and of `resolve_link` returns, with one node or
     error;
  2. with `resolve_link` set the node is never a link;
  3. without `follow_links` a path that reaches a link before its last
     component, or starts at one, fails with `ELOOP`. -/
theorem link_resolution_total {N : Type} (t : Tree N) (root : Option N) (path : Path)
    (flags : FilesystemFlags) (depth : Int) :
    ((∃! r, t.Returns (.getFile root path flags depth) r)
      ∧ ∀ link, ∃! r, t.Returns (.resolveLink link depth) r)
    ∧ (flags.resolveLink = true → ∀ n r, r = .ok n →
        t.Returns (.getFile root path flags depth) r → t.type n ≠ .LINK)
    ∧ (flags.followLinks = false →
        (∀ p q n, path = p ++ '/' :: q →
          t.Returns (.getFile root p ⟨false, false⟩ depth) (.ok n) → t.type n = .LINK →
          t.Returns (.getFile root path flags depth) (.error .ELOOP))
        ∧ (path ≠ [] → ∀ n, root = some n → t.type n = .LINK →
          t.Returns (.getFile root path flags depth) (.error .ELOOP))) := by
  have htotal := Tree.returns_getFile (t := t) root path flags depth
  refine ⟨⟨⟨_, htotal, fun r hr => hr.eq_value⟩, fun link =>
    ⟨_, Tree.returns_resolveLink _ depth rfl link, fun r hr => hr.eq_value⟩⟩, ?_, ?_⟩
  · intro hflag n r hr hret
    have hvalue : r = t.getFile root path flags depth := hret.eq_value
    rw [hr] at hvalue
    exact Tree.walk_ne_link (Tree.resolveLinkLevels_ne_link _) hflag hvalue.symm
  · intro hno
    constructor
    · intro p q n hpath hp hlink
      have hp' : .ok n = t.getFile root p ⟨false, false⟩ depth := hp.eq_value
      have hloop := Tree.getFile_through_link hp'.symm hlink hno q
      rw [← hpath] at hloop
      exact hloop ▸ htotal
    · intro hpath n hroot hlink
      have hloop := Tree.getFile_from_link hlink hno hpath depth
      rw [← hroot] at hloop
      exact hloop ▸ htotal

/-- A directory `0` with a link `1` to itself under `a`. -/
def selfLink : Tree Nat where
  rootNode := 0
  type := fun n => if n = 0 then .DIRECTORY else .LINK
  parent := fun n => if n = 0 then none else some 0
  children := fun n name => if n = 0 ∧ name = ['a'] then some 1 else none
  destination := fun _ => ['a']

/-- A self-referring link on the way, not followed and then followed. -/
theorem link_resolution_total_selfLink :
    selfLink.Returns (.getFile none "a/b".toList ⟨true, false⟩ 0) (.error .ELOOP)
      ∧ ∃! r, selfLink.Returns (.getFile none "a/b".toList ⟨true, true⟩ 0) r := by
  have hreach : selfLink.Returns (.getFile none "a".toList ⟨false, false⟩ 0) (.ok 1) :=
    Tree.returns_getFile (t := selfLink) none "a".toList ⟨false, false⟩ 0
  exact ⟨((link_resolution_total selfLink none "a/b".toList ⟨true, false⟩ 0).2.2 rfl).1
      "a".toList "b".toList 1 rfl hreach rfl,
    (link_resolution_total selfLink none "a/b".toList ⟨true, true⟩ 0).1.1⟩

end MierOS.Fs
