/-
  MierOS.Fs.PathComposition — `get_file` composes along its path.

  Resolving `p/q` reaches the split point in two ways: inside one loop, where
  the node after `p` is looked at by the NEXT turn of the loop, and at the end
  of a call for `p`, where it is looked at after the loop.  Both follow a link
  there and hand the same errors on (`enter_eq_finish`), and a piece that stays
  where it is only repeats a test that the next turn makes anyway
  (`loopBody_stay`).

  Main result: `path_composition`.
-/
import MierOS.Fs.Vfs

namespace MierOS.Fs

namespace Tree

variable {N : Type} {t : Tree N} {resolver : N → Except Errno N}
  {flags : FilesystemFlags}

/-! ## §1. The split point. -/

/-- With `follow_links` the head of the loop does what the end of the function
does with `resolve_link`. -/
theorem enter_eq_finish (hfollow : flags.followLinks = true) (root : N) :
    t.enter resolver flags root = t.finish resolver .all root := by
  unfold enter finish
  by_cases hlink : t.type root = .LINK
  · rw [if_pos hlink, if_pos hfollow, if_pos ⟨hlink, rfl⟩]
  · rw [if_neg hlink, if_neg (fun h => hlink h.1)]

/-- A node that is no link is entered as it is. -/
theorem enter_node {root : N} (hne : t.type root ≠ .LINK) :
    t.enter resolver flags root = .ok root := if_neg hne

/-- A piece that stays where it is. -/
def Stays (part : Path) : Prop := part = [] ∨ part = ['.']

theorem descend_stays {part : Path} (h : Stays part) (root : N) :
    t.descend root part = if t.type root ≠ .DIRECTORY then .error .ENOTDIR else .ok root := by
  unfold descend
  by_cases hdir : t.type root ≠ .DIRECTORY
  · rw [if_pos hdir, if_pos hdir]
  · rw [if_neg hdir, if_neg hdir]
    exact if_pos h

/-- **Staying and going on is going on**: what is left of the path is not empty,
so its first turn makes the same tests again. -/
theorem loopBody_stay {part : Path} (h : Stays part)
    (hres : ∀ n r, resolver n = .ok r → t.type r ≠ .LINK) (root : N) {ps : List Path}
    (hps : ps ≠ []) :
    (t.loopBody resolver flags root part >>= fun next => t.walk resolver flags next ps)
      = t.walk resolver flags root ps := by
  cases ps with
  | nil => exact absurd rfl hps
  | cons x xs =>
      rw [walk_cons]
      unfold loopBody
      cases henter : t.enter resolver flags root with
      | error e => rfl
      | ok node =>
          -- the node behind the link test is no link
          have hnode : t.type node ≠ .LINK := by
            unfold enter at henter
            split at henter
            · split at henter
              · exact hres root node henter
              · exact nomatch henter
            · rename_i hne
              injection henter with henter
              exact henter ▸ hne
          show (t.descend node part >>= _) = (t.descend node x >>= _)
          rw [descend_stays h]
          by_cases hdir : t.type node ≠ .DIRECTORY
          · rw [if_pos hdir]
            have hx : t.descend node x = .error .ENOTDIR := if_pos hdir
            rw [hx]
            rfl
          · rw [if_neg hdir]
            show t.walk resolver flags node (x :: xs) = _
            rw [walk_cons, loopBody, enter_node hnode]
            rfl

/-- **The split point inside the loop and at the end of a call.** -/
theorem walk_split (hfollow : flags.followLinks = true)
    (hres : ∀ n r, resolver n = .ok r → t.type r ≠ .LINK) (root : N) {ps : List Path}
    (hps : ps ≠ []) :
    t.walk resolver flags root ps
      = t.finish resolver .all root >>= fun next => t.walk resolver flags next ps := by
  cases ps with
  | nil => exact absurd rfl hps
  | cons x xs =>
      rw [walk_cons, loopBody, enter_eq_finish hfollow, bind_assoc]
      cases hfinish : t.finish resolver .all root with
      | error e => rfl
      | ok node =>
          have hnode := finish_ne_link hres rfl hfinish
          show (t.descend node x >>= _) = t.walk resolver flags node (x :: xs)
          rw [walk_cons, loopBody, enter_node hnode]
          rfl

/-! ## §2. Whole paths. -/

/-- `get_file` of `p/q`. -/
theorem getFile_append (hfollow : flags.followLinks = true) (root : Option N) (p : Path)
    {q : Path} (hq : q ≠ []) (depth : Int) :
    t.getFile root (p ++ '/' :: q) flags depth
      = t.getFile root p .all depth >>= fun n => t.getFile (some n) q flags depth := by
  have hres : ∀ n r, t.resolveLink depth n = .ok r → t.type r ≠ .LINK :=
    resolveLinkLevels_ne_link _
  have hps := components_ne_nil q
  have hflags : flags.followLinks = FilesystemFlags.all.followLinks := hfollow
  unfold getFile
  rw [parts_append, parts_of_ne_nil hq]
  show _ = t.walk (t.resolveLink depth) .all _ (parts p)
    >>= fun n => t.walk (t.resolveLink depth) flags n (components q)
  by_cases hp : p = []
  · -- the leading separator is an empty piece, which stays at the start node
    subst hp
    show t.walk (t.resolveLink depth) flags _ ([] :: components q) = _
    rw [walk_cons, loopBody_stay (Or.inl rfl) hres _ hps, walk_split hfollow hres _ hps]
    rfl
  · rw [parts_of_ne_nil hp, walk_append, foldlM_congr hflags]
    show _ = ((components p).foldlM (t.loopBody (t.resolveLink depth) .all) _
      >>= t.finish (t.resolveLink depth) .all) >>= _
    rw [bind_assoc]
    congr 1
    funext next
    exact walk_split hfollow hres next hps

/-- A piece that stays, between two separators, or before the rest of the
path. -/
theorem getFile_stay {x : Path} (hx : Stays x) (root : Option N) (p : Path) {q : Path}
    (hq : q ≠ []) (depth : Int) :
    t.getFile root (p ++ '/' :: (x ++ '/' :: q)) flags depth
        = t.getFile root (p ++ '/' :: q) flags depth
      ∧ t.getFile root (x ++ '/' :: q) flags depth = t.getFile root q flags depth := by
  have hres : ∀ n r, t.resolveLink depth n = .ok r → t.type r ≠ .LINK :=
    resolveLinkLevels_ne_link _
  have hps := components_ne_nil q
  have hpiece : components x = [x] := by
    cases hx with
    | inl h => rw [h]; rfl
    | inr h => rw [h]; rfl
  have hskip : ∀ node, t.walk (t.resolveLink depth) flags node (x :: components q)
      = t.walk (t.resolveLink depth) flags node (components q) := by
    intro node
    rw [walk_cons, loopBody_stay hx hres node hps]
  unfold getFile
  constructor
  · rw [parts_append, parts_append, components_append, hpiece, walk_append, walk_append]
    congr 1
    funext next
    exact hskip next
  · rw [parts_append, parts_of_ne_nil hq, hpiece]
    exact hskip _

end Tree

/-- **Path resolution composes.**  With `follow_links` and a non-empty `q`,
`get_file` of `p/q` gives the node or the error of resolving `p` to the end and
then `q` from there; and, whatever the flags, an empty or a `.` component with
something behind it changes nothing. -/
theorem path_composition {N : Type} (t : Tree N) (root : Option N) (depth : Int)
    (flags : FilesystemFlags) (p q : Path) (hq : q ≠ []) :
    (flags.followLinks = true →
      t.getFile root (p ++ '/' :: q) flags depth
        = t.getFile root p .all depth >>= fun n => t.getFile (some n) q flags depth)
    ∧ t.getFile root (p ++ '/' :: '/' :: q) flags depth
        = t.getFile root (p ++ '/' :: q) flags depth
    ∧ t.getFile root (p ++ '/' :: '.' :: '/' :: q) flags depth
        = t.getFile root (p ++ '/' :: q) flags depth
    ∧ t.getFile root ('/' :: q) flags depth = t.getFile root q flags depth
    ∧ t.getFile root ('.' :: '/' :: q) flags depth = t.getFile root q flags depth := by
  have hempty : Tree.Stays [] := Or.inl rfl
  have hdot : Tree.Stays ['.'] := Or.inr rfl
  exact ⟨fun hfollow => Tree.getFile_append hfollow root p hq depth,
    (Tree.getFile_stay hempty root p hq depth).1, (Tree.getFile_stay hdot root p hq depth).1,
    (Tree.getFile_stay hempty root p hq depth).2, (Tree.getFile_stay hdot root p hq depth).2⟩

/-- Through the self-referring link of `selfLink`. -/
theorem path_composition_selfLink :
    selfLink.getFile none "a/b".toList .all 0
      = selfLink.getFile none "a".toList .all 0
          >>= fun n => selfLink.getFile (some n) "b".toList .all 0 :=
  (path_composition selfLink none 0 .all "a".toList "b".toList (by decide)).1 rfl

end MierOS.Fs
