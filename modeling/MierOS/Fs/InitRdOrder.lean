/-
  MierOS.Fs.InitRdOrder
  **WHICH ARCHIVES BECOME THE TREE THEY NAME.**

  A member goes astray when a directory on its way is missing: its node lands
  at a location shorter than its path.  So the node that belongs to a member
  that has gone astray could only come from a member with a longer path that
  has gone astray too, and of the longest there is none: in a right tree
  nothing has.

  Main results: `foldl_stepInto`, `longer_stray`, `build_right_iff`,
  `initrd_tree_iff`, `file_before_its_directory`.
-/
import Mathlib.Algebra.Order.BigOperators.Group.List
import Mathlib.Algebra.Order.Group.Nat
import MierOS.Fs.InitRd

namespace MierOS.Fs

open InitRdFilesystem

namespace Layout

/-! ## §1. One member. -/

section Place

variable {t : Layout}

/-- What is known of a walk from `cur` over the pieces `cs` that ends in `s`. -/
structure Descent (t : Layout) (cur cs : List Path) (s : Layout × List Path) : Prop where
  keeps : ∀ p, (t p).isSome = true → s.1 p = t p
  shallow : ∀ p, cur.length + cs.length < p.length → s.1 p = t p
  short : s.2.length ≤ cur.length + cs.length
  straight : s.2.length = cur.length + cs.length →
    s = (t, cur ++ cs) ∧ ∀ q, q <+: cs → q ≠ [] → (t (cur ++ q)).isSome = true

theorem add_keeps {p q : List Path} (e : VNodeType × Nat) (h : (t q).isSome = true) :
    t.add p e q = t q :=
  Option.or_of_isSome h

theorem add_of_ne {p q : List Path} (e : VNodeType × Nat) (h : q ≠ p) : t.add p e q = t q := by
  unfold add
  rw [if_neg h, Option.or_none]

theorem stepInto_of_enters {cur : List Path} {c : Path} (h : t.enters cur c) (size : Nat) :
    stepInto size (t, cur) c = (t, cur ++ [c]) :=
  if_pos h

theorem stepInto_of_stays {cur : List Path} {c : Path} (h : ¬ t.enters cur c) (size : Nat) :
    stepInto size (t, cur) c = (t.add (cur ++ [c]) (.DIRECTORY, size), cur) :=
  if_neg h

/-- **How far a walk gets.** -/
theorem foldl_stepInto (size : Nat) (cs : List Path) : ∀ (t : Layout) (cur : List Path),
    Descent t cur cs (cs.foldl (stepInto size) (t, cur)) := by
  induction cs with
  | nil =>
      intro t cur
      refine ⟨fun _ _ => rfl, fun _ _ => rfl, Nat.le_refl _, fun _ => ⟨?_, ?_⟩⟩
      · rw [List.append_nil]
        rfl
      · intro q hq hne
        exact absurd (List.prefix_nil.mp hq) hne
  | cons c cs ih =>
      intro t cur
      rw [List.foldl_cons]
      by_cases henters : t.enters cur c
      · rw [stepInto_of_enters henters]
        obtain ⟨hkeeps, hshallow, hshort, hstraight⟩ := ih t (cur ++ [c])
        have hlength : (cur ++ [c]).length + cs.length = cur.length + (c :: cs).length := by
          rw [List.length_append, List.length_singleton, List.length_cons]
          omega
        rw [hlength] at hshallow hshort hstraight
        refine ⟨hkeeps, hshallow, hshort, fun h => ⟨?_, ?_⟩⟩
        · rw [(hstraight h).1, List.append_assoc]
          rfl
        · intro q hq hne
          obtain ⟨d, q, rfl⟩ := List.exists_cons_of_ne_nil hne
          obtain ⟨rfl, htail⟩ := List.cons_prefix_cons.mp hq
          by_cases hnil : q = []
          · rw [hnil]
            exact henters.2
          · have hlast := (hstraight h).2 q htail hnil
            rw [List.append_assoc] at hlast
            exact hlast
      · -- from here on the walk is a piece behind
        rw [stepInto_of_stays henters]
        obtain ⟨hkeeps, hshallow, hshort, -⟩ := ih (t.add (cur ++ [c]) (.DIRECTORY, size)) cur
        refine ⟨fun p hp => ?_, fun p hp => ?_, ?_, fun h => ?_⟩
        · have hadd : t.add (cur ++ [c]) (.DIRECTORY, size) p = t p := add_keeps _ hp
          rw [hkeeps p (hadd ▸ hp), hadd]
        · rw [List.length_cons] at hp
          have hne : p ≠ cur ++ [c] := by
            rintro rfl
            rw [List.length_append, List.length_singleton] at hp
            omega
          rw [hshallow p (by omega), add_of_ne _ hne]
        · rw [List.length_cons]
          omega
        · rw [List.length_cons] at h
          omega

/-- Through directories a walk goes straight. -/
theorem foldl_stepInto_directories (size : Nat) (cs : List Path) : ∀ (cur : List Path),
    (∀ q, q <+: cs → (t (cur ++ q)).map Prod.fst = some .DIRECTORY) →
    cs.foldl (stepInto size) (t, cur) = (t, cur ++ cs) := by
  induction cs with
  | nil =>
      intro cur _
      rw [List.append_nil]
      rfl
  | cons c cs ih =>
      intro cur hdir
      have hhere := hdir [] List.nil_prefix
      have hthere := hdir [c] (List.cons_prefix_cons.mpr ⟨rfl, List.nil_prefix⟩)
      rw [List.append_nil] at hhere
      have henters : t.enters cur c := by
        refine ⟨hhere, ?_⟩
        cases hat : t (cur ++ [c]) with
        | none =>
            rw [hat] at hthere
            exact absurd hthere (by simp)
        | some e => rfl
      rw [List.foldl_cons, stepInto_of_enters henters, ih (cur ++ [c]), List.append_assoc]
      · rfl
      · intro q hq
        rw [List.append_assoc]
        exact hdir (c :: q) (List.cons_prefix_cons.mpr ⟨rfl, hq⟩)

/-- The walk for a member, before its last piece. -/
def descend (t : Layout) (m : Member) : Layout × List Path :=
  m.path.dropLast.foldl (stepInto m.size) (t, [])

/-- **A member goes astray**: the walk ends elsewhere than the path says. -/
def Strayed (t : Layout) (m : Member) : Prop := (t.descend m).2.length ≠ m.path.dropLast.length

theorem descent (t : Layout) (m : Member) : Descent t [] m.path.dropLast (t.descend m) :=
  foldl_stepInto m.size m.path.dropLast t []

theorem place_of_nil (t : Layout) {m : Member} (h : m.path = []) : t.place m = t := if_pos h

theorem place_eq (t : Layout) {m : Member} (h : m.path ≠ []) :
    t.place m = (t.descend m).1.add ((t.descend m).2 ++ [m.path.getLastD []]) m.made :=
  if_neg h

theorem place_keeps (m : Member) {p : List Path} (h : (t p).isSome = true) :
    t.place m p = t p := by
  by_cases hnil : m.path = []
  · rw [place_of_nil t hnil]
  · have hkeeps := (t.descent m).keeps p h
    rw [place_eq t hnil, add_keeps _ (hkeeps ▸ h), hkeeps]

/-- A prefix that is not the whole is one of all but the last piece. -/
theorem prefix_dropLast_iff {q p : List Path} (hp : p ≠ []) :
    q <+: p.dropLast ↔ q <+: p ∧ q ≠ p := by
  constructor
  · intro h
    refine ⟨h.trans (List.dropLast_prefix p), ?_⟩
    rintro rfl
    have hlength := h.length_le
    rw [List.length_dropLast] at hlength
    have := List.length_pos_of_ne_nil hp
    omega
  · intro ⟨h, hne⟩
    rw [← List.dropLast_append_getLast hp] at h hne
    rcases List.prefix_concat_iff.mp h with heq | h
    · exact absurd heq hne
    · exact h

/-- **A member that goes straight** is put at its path; the way there is there. -/
theorem place_straight {m : Member} (h : ¬ t.Strayed m) (hpath : m.path ≠ []) :
    t.place m = t.add m.path m.made
      ∧ ∀ q, q <+: m.path → q ≠ m.path → q ≠ [] → (t q).isSome = true := by
  have hlength : (t.descend m).2.length
      = ([] : List Path).length + m.path.dropLast.length := by
    rw [not_not.mp h, List.length_nil, Nat.zero_add]
  obtain ⟨heq, hthere⟩ := (t.descent m).straight hlength
  refine ⟨?_, fun q hq hne hnil => hthere q ((prefix_dropLast_iff hpath).mpr ⟨hq, hne⟩) hnil⟩
  rw [place_eq t hpath, heq]
  show t.add (m.path.dropLast ++ [m.path.getLastD []]) m.made = _
  rw [List.getLastD_eq_getLast?, List.getLast?_eq_some_getLast hpath, Option.getD_some,
    List.dropLast_append_getLast]

/-- **A member that goes astray** changes only what is shorter than its path. -/
theorem place_strayed {m : Member} (h : t.Strayed m) {p : List Path}
    (hp : m.path.length ≤ p.length) : t.place m p = t p := by
  have hd := t.descent m
  by_cases hnil : m.path = []
  · rw [place_of_nil t hnil]
  · have hpos := List.length_pos_of_ne_nil hnil
    have hdrop : m.path.dropLast.length = m.path.length - 1 := List.length_dropLast
    have hshort := hd.short
    rw [List.length_nil, Nat.zero_add] at hshort
    have hlt : (t.descend m).2.length < m.path.dropLast.length := Nat.lt_of_le_of_ne hshort h
    have hne : p ≠ (t.descend m).2 ++ [m.path.getLastD []] := by
      rintro rfl
      rw [List.length_append, List.length_singleton] at hp
      omega
    rw [place_eq t hnil, add_of_ne _ hne]
    refine hd.shallow p ?_
    rw [List.length_nil]
    omega

/-- A path through directories is straight. -/
theorem not_strayed_of_directories {m : Member}
    (h : ∀ q, q <+: m.path.dropLast → (t q).map Prod.fst = some .DIRECTORY) : ¬ t.Strayed m := by
  refine not_not_intro ?_
  unfold descend
  rw [foldl_stepInto_directories m.size m.path.dropLast [] h]
  rfl

end Place

/-! ## §2. The members one after another. -/

section Build

variable {members : List Member}

/-- The locations after the first `n` members. -/
def upTo (members : List Member) (n : Nat) : Layout := build (members.take n)

theorem upTo_succ {i : Nat} (hi : i < members.length) :
    upTo members (i + 1) = (upTo members i).place members[i] := by
  unfold upTo build
  rw [← List.take_concat_get' members i hi, List.foldl_append]
  rfl

theorem upTo_length : upTo members members.length = build members := by
  unfold upTo
  rw [List.take_length]

theorem upTo_zero_of_ne {p : List Path} (hp : p ≠ []) : upTo members 0 p = none := if_neg hp

theorem upTo_keeps {i n : Nat} (hin : i ≤ n) (hn : n ≤ members.length) {p : List Path}
    (h : (upTo members i p).isSome = true) : upTo members n p = upTo members i p := by
  induction n, hin using Nat.le_induction with
  | base => rfl
  | succ n _ ih =>
      have hkept := ih (Nat.le_of_succ_le hn)
      rw [upTo_succ hn, place_keeps _ (hkept ▸ h), hkept]

theorem upTo_root {n : Nat} (hn : n ≤ members.length) : upTo members n [] = some (.DIRECTORY, 0) :=
  upTo_keeps (Nat.zero_le n) hn rfl

/-- What is there was put there by a member. -/
theorem exists_maker {n : Nat} (hn : n ≤ members.length) {p : List Path} (hp : p ≠ [])
    (h : (upTo members n p).isSome = true) :
    ∃ i, ∃ hi : i < members.length, i < n ∧ upTo members i p = none
      ∧ ((upTo members i).place members[i] p).isSome = true := by
  induction n with
  | zero =>
      rw [upTo_zero_of_ne hp] at h
      exact absurd h (by simp)
  | succ n ih =>
      cases hbefore : upTo members n p with
      | none =>
          refine ⟨n, hn, Nat.lt_succ_self n, hbefore, ?_⟩
          rw [← upTo_succ hn]
          exact h
      | some e =>
          obtain ⟨i, hi, hin, hmade⟩ := ih (Nat.le_of_succ_le hn) (by rw [hbefore]; rfl)
          exact ⟨i, hi, Nat.lt_succ_of_lt hin, hmade⟩

/-- Paths are those of one member each. -/
theorem index_unique (hdistinct : (members.map Member.path).Nodup) {i j : Nat}
    (hi : i < members.length) (hj : j < members.length)
    (h : members[i].path = members[j].path) : i = j := by
  have hi' : i < (members.map Member.path).length := by rwa [List.length_map]
  have hj' : j < (members.map Member.path).length := by rwa [List.length_map]
  have hsame : (members.map Member.path)[i] = (members.map Member.path)[j] := by
    rw [List.getElem_map, List.getElem_map]
    exact h
  exact hdistinct.getElem_inj_iff.mp hsame

/-- **Behind every stray member there is a longer one**, if something is at its path. -/
theorem longer_stray (hdistinct : (members.map Member.path).Nodup) {i : Nat}
    (hi : i < members.length) (hthere : (build members members[i].path).isSome = true)
    (h : (upTo members i).Strayed members[i]) :
    ∃ j, ∃ hj : j < members.length, (upTo members j).Strayed members[j]
      ∧ members[i].path.length < members[j].path.length := by
  have hpath : members[i].path ≠ [] := by
    intro hnil
    refine h ?_
    unfold descend
    rw [hnil]
    rfl
  rw [← upTo_length] at hthere
  obtain ⟨j, hj, -, hnone, hmade⟩ := exists_maker (Nat.le_refl _) hpath hthere
  by_cases hstray : (upTo members j).Strayed members[j]
  · refine ⟨j, hj, hstray, ?_⟩
    by_contra hle
    rw [place_strayed hstray (Nat.le_of_not_lt hle), hnone] at hmade
    exact absurd hmade (by simp)
  · -- a member that goes straight makes its own node only, and that is not `i`
    by_cases hnil : members[j].path = []
    · rw [place_of_nil _ hnil, hnone] at hmade
      exact absurd hmade (by simp)
    · rw [(place_straight hstray hnil).1] at hmade
      have hsame : members[i].path = members[j].path := by
        by_contra hne
        rw [add_of_ne _ hne, hnone] at hmade
        exact absurd hmade (by simp)
      obtain rfl := index_unique hdistinct hi hj hsame
      exact absurd h hstray

/-- **In a tree with something at every path nothing has gone astray.** -/
theorem not_strayed (hdistinct : (members.map Member.path).Nodup)
    (hthere : ∀ m ∈ members, (build members m.path).isSome = true) {i : Nat}
    (hi : i < members.length) : ¬ (upTo members i).Strayed members[i] := by
  intro h
  -- the stray members would have paths of any length
  have hlong : ∀ n, ∃ j, ∃ hj : j < members.length, (upTo members j).Strayed members[j]
      ∧ n ≤ members[j].path.length := by
    intro n
    induction n with
    | zero => exact ⟨i, hi, h, Nat.zero_le _⟩
    | succ n ih =>
        obtain ⟨j, hj, hstray, hn⟩ := ih
        obtain ⟨k, hk, hlonger, hlt⟩ :=
          longer_stray hdistinct hj (hthere _ (List.getElem_mem hj)) hstray
        exact ⟨k, hk, hlonger, Nat.lt_of_le_of_lt hn hlt⟩
  obtain ⟨j, hj, -, hle⟩ := hlong ((members.map fun m => m.path.length).sum + 1)
  have hsum : members[j].path.length ≤ (members.map fun m => m.path.length).sum :=
    List.single_le_sum (fun _ _ => Nat.zero_le _) _
      (List.mem_map_of_mem (List.getElem_mem hj))
  exact absurd (Nat.lt_of_lt_of_le (Nat.lt_succ_self _) hle) (Nat.not_lt_of_le hsum)

/-- Where nothing went astray, there is something at the paths only. -/
theorem straight_paths {n : Nat} (hn : n ≤ members.length)
    (hstraight : ∀ i (hi : i < members.length), i < n → ¬ (upTo members i).Strayed members[i])
    {p : List Path} (hp : p ≠ []) (h : (upTo members n p).isSome = true) :
    ∃ j, ∃ hj : j < members.length, j < n ∧ members[j].path = p := by
  obtain ⟨j, hj, hjn, hnone, hmade⟩ := exists_maker hn hp h
  refine ⟨j, hj, hjn, ?_⟩
  by_cases hnil : members[j].path = []
  · rw [place_of_nil _ hnil, hnone] at hmade
    exact absurd hmade (by simp)
  · rw [(place_straight (hstraight j hj hjn) hnil).1] at hmade
    by_contra hne
    rw [add_of_ne _ (Ne.symm hne), hnone] at hmade
    exact absurd hmade (by simp)

/-- Where nothing went astray, every member is at its path. -/
theorem straight_made (hdistinct : (members.map Member.path).Nodup) {n : Nat}
    (hn : n ≤ members.length)
    (hstraight : ∀ i (hi : i < members.length), i < n → ¬ (upTo members i).Strayed members[i])
    {j : Nat} (hj : j < members.length) (hjn : j < n) (hpath : members[j].path ≠ []) :
    upTo members n members[j].path = some members[j].made := by
  have hnone : upTo members j members[j].path = none := by
    cases hat : upTo members j members[j].path with
    | none => rfl
    | some e =>
        obtain ⟨k, hk, hkj, hsame⟩ := straight_paths (Nat.le_of_lt hj)
          (fun i hi hij => hstraight i hi (hij.trans hjn)) hpath (by rw [hat]; rfl)
        obtain rfl := index_unique hdistinct hk hj hsame
        exact absurd hkj (Nat.lt_irrefl k)
  have hmade : upTo members (j + 1) members[j].path = some members[j].made := by
    rw [upTo_succ hj, (place_straight (hstraight j hj hjn) hpath).1]
    unfold add
    rw [hnone, if_pos rfl]
    rfl
  rw [upTo_keeps hjn hn (by rw [hmade]; rfl), hmade]

end Build

end Layout

/-! ## §3. Archives in order. -/

/-- **An archive in order**: the directories on the way to a member are members before
it; a name that ends in a separator is a directory's; a name without any piece is the
root's; and the data of a member ends 512 bytes below 2^31. -/
structure Orderly (members : List Member) : Prop where
  parents : ∀ i (hi : i < members.length), ∀ q, q <+: members[i].path → q ≠ members[i].path →
    q ≠ [] → ∃ j, ∃ hj : j < members.length, j < i ∧ members[j].path = q
  separator : ∀ m ∈ members, m.name.getLast? = some '/' → m.type = .DIRECTORY
  nameless : ∀ m ∈ members, m.path = [] → m.type = .DIRECTORY ∧ m.size = 0
  size : ∀ m ∈ members, m.size ≤ 2 ^ 31 - 512

/-- A member is where its path says. -/
structure Layout.Right (t : Layout) (m : Member) : Prop where
  node : t m.path = some (m.type, m.size)
  directories : ∀ q, q <+: m.path → q ≠ m.path → (t q).map Prod.fst = some .DIRECTORY

section Order

open Layout

variable {members : List Member}

/-- Nothing is behind the last separator of a name that ends in one. -/
theorem components_getLastD (name : Path) :
    (components name).getLastD [] = [] ↔ name = [] ∨ name.getLast? = some '/' := by
  induction name with
  | nil => exact ⟨fun _ => Or.inl rfl, fun _ => rfl⟩
  | cons c name ih =>
      obtain ⟨p, ps, hp⟩ := List.exists_cons_of_ne_nil (components_ne_nil name)
      rw [hp] at ih
      by_cases hc : c = '/'
      · rw [hc, components_separator, hp]
        cases name with
        | nil =>
            obtain ⟨rfl, rfl⟩ := List.cons.inj hp
            exact ⟨fun _ => Or.inr rfl, fun _ => rfl⟩
        | cons d name =>
            rw [List.getLast?_cons_cons]
            exact ih.trans (or_congr_left ⟨nofun, nofun⟩)
      · rw [components_char hc hp]
        cases name with
        | nil =>
            obtain ⟨rfl, rfl⟩ := List.cons.inj hp
            exact ⟨nofun, fun h => by simp [hc] at h⟩
        | cons d name =>
            rw [List.getLast?_cons_cons]
            cases ps with
            | nil =>
                -- one piece, which is the name
                have hne : p ≠ [] := by
                  rintro rfl
                  by_cases hd : d = '/'
                  · rw [hd, components_separator] at hp
                    exact components_ne_nil name (List.cons.inj hp).2
                  · obtain ⟨x, xs, hx⟩ := List.exists_cons_of_ne_nil (components_ne_nil name)
                    rw [components_char hd hx] at hp
                    exact absurd (List.cons.inj hp).1 (by simp)
                exact ⟨nofun, fun h => absurd (ih.mpr (Or.inr (h.resolve_left nofun))) hne⟩
            | cons q qs => exact ih.trans (or_congr_left ⟨nofun, nofun⟩)

/-- The node made for a member has its type, but behind a separator that of a directory. -/
theorem Member.made_eq (m : Member) (hpath : m.path ≠ []) :
    m.made = (m.type, m.size) ↔ (m.name.getLast? = some '/' → m.type = .DIRECTORY) := by
  have hname : m.name ≠ [] := by
    intro h
    unfold Member.path at hpath
    rw [h] at hpath
    exact hpath rfl
  unfold Member.made
  rw [Prod.mk.injEq]
  by_cases hrest : (components m.name).getLastD [] = []
  · rw [if_pos hrest]
    have hlast := ((components_getLastD m.name).mp hrest).resolve_left hname
    exact ⟨fun h _ => h.1.symm, fun h => ⟨(h hlast).symm, rfl⟩⟩
  · rw [if_neg hrest]
    exact ⟨fun _ h => absurd ((components_getLastD m.name).mpr (Or.inr h)) hrest,
      fun _ => ⟨rfl, rfl⟩⟩

/-- In an archive in order nothing goes astray. -/
theorem Orderly.not_strayed (hok : ArchiveOk members) (horder : Orderly members) {i : Nat}
    (hi : i < members.length) : ¬ (upTo members i).Strayed members[i] := by
  induction i using Nat.strong_induction_on with
  | _ i ih =>
      refine not_strayed_of_directories fun q hq => ?_
      by_cases hnil : q = []
      · rw [hnil, upTo_root (Nat.le_of_lt hi)]
        rfl
      · by_cases hpath : members[i].path = []
        · rw [hpath] at hq
          exact absurd (List.prefix_nil.mp hq) hnil
        · obtain ⟨hinit, hne⟩ := (prefix_dropLast_iff hpath).mp hq
          obtain ⟨j, hj, hji, rfl⟩ := horder.parents i hi q hinit hne hnil
          rw [straight_made hok.distinct (Nat.le_of_lt hi)
            (fun k hk hki => ih k hki hk) hj hji hnil]
          have htype := hok.below _ (List.getElem_mem hj) _ (List.getElem_mem hi) hinit hne
          rw [(members[j].made_eq hnil).mpr fun _ => htype]
          exact congrArg some htype

theorem build_root : build members [] = some (.DIRECTORY, 0) := by
  rw [← upTo_length]
  exact upTo_root (Nat.le_refl _)

/-- **The locations are right for the archives in order.** -/
theorem build_right_iff (hok : ArchiveOk members)
    (hsize : ∀ m ∈ members, m.size ≤ 2 ^ 31 - 512) :
    (∀ m ∈ members, (build members).Right m) ↔ Orderly members := by
  constructor
  · intro hright
    -- every member is there, so none of them strayed
    have hthere : ∀ m ∈ members, (build members m.path).isSome = true := by
      intro m hm
      rw [(hright m hm).node]
      rfl
    have hstraight := fun i (hi : i < members.length) => not_strayed hok.distinct hthere hi
    have hmade : ∀ m ∈ members, m.path ≠ [] → m.made = (m.type, m.size) := by
      intro m hm hpath
      obtain ⟨j, hj, rfl⟩ := List.mem_iff_getElem.mp hm
      have hat := straight_made hok.distinct (Nat.le_refl _) (fun i hi _ => hstraight i hi) hj hj hpath
      rw [upTo_length, (hright _ hm).node] at hat
      exact (Option.some.inj hat).symm
    -- the parents came first, the separators and the root are as the archive says
    refine ⟨fun i hi q hq hne hnil => ?_, fun m hm hlast => ?_, fun m hm hpath => ?_, hsize⟩
    · have hpath : members[i].path ≠ [] := by
        intro h
        rw [h] at hq
        exact hnil (List.prefix_nil.mp hq)
      have hbefore := (place_straight (hstraight i hi) hpath).2 q hq hne hnil
      exact straight_paths (Nat.le_of_lt hi) (fun k hk _ => hstraight k hk) hnil hbefore
    · by_cases hpath : m.path = []
      · have hroot := (hright m hm).node
        rw [hpath, build_root] at hroot
        exact (congrArg Prod.fst (Option.some.inj hroot)).symm
      · exact (m.made_eq hpath).mp (hmade m hm hpath) hlast
    · have hroot := (hright m hm).node
      rw [hpath, build_root] at hroot
      have hroot := Option.some.inj hroot
      exact ⟨(congrArg Prod.fst hroot).symm, (congrArg Prod.snd hroot).symm⟩
  · intro horder
    have hstraight := fun i (hi : i < members.length) (_ : i < members.length) =>
      horder.not_strayed hok hi
    have hnode : ∀ m ∈ members, build members m.path = some (m.type, m.size) := by
      intro m hm
      by_cases hpath : m.path = []
      · obtain ⟨htype, hzero⟩ := horder.nameless m hm hpath
        rw [hpath, build_root, htype, hzero]
      · obtain ⟨j, hj, rfl⟩ := List.mem_iff_getElem.mp hm
        rw [← upTo_length, straight_made hok.distinct (Nat.le_refl _) hstraight hj hj hpath,
          (members[j].made_eq hpath).mpr (horder.separator _ hm)]
    refine fun m hm => ⟨hnode m hm, fun q hq hne => ?_⟩
    by_cases hnil : q = []
    · rw [hnil, build_root]
      rfl
    · obtain ⟨i, hi, rfl⟩ := List.mem_iff_getElem.mp hm
      obtain ⟨j, hj, -, rfl⟩ := horder.parents i hi q hq hne hnil
      rw [hnode _ (List.getElem_mem hj)]
      exact congrArg some (hok.below _ (List.getElem_mem hj) _ hm hq hne)

end Order

/-! ## §4. The filesystem. -/

section Filesystem

variable {hash : Path → Nat} {fs : InitRdFilesystem} {t : Layout}

/-- **A member is where its path says**: from the root, by the children of these names,
behind directories. -/
structure Placed (hash : Path → Nat) (fs : InitRdFilesystem) (m : Member) : Prop where
  node : ∃ id, walk hash fs fs.root m.path = some id ∧ (fs.nodes id).type = m.type
    ∧ (fs.nodes id).size = m.size
  directories : ∀ q, q <+: m.path → q ≠ m.path →
    ∃ id, walk hash fs fs.root q = some id ∧ (fs.nodes id).type = .DIRECTORY

theorem Reads.placed_iff (hreads : Reads hash fs t) (m : Member) :
    Placed hash fs m ↔ t.Right m := by
  have hnode : (∃ id, walk hash fs fs.root m.path = some id ∧ (fs.nodes id).type = m.type
      ∧ (fs.nodes id).size = m.size) ↔ t m.path = some (m.type, m.size) := by
    rw [← hreads.located m.path, Option.map_eq_some_iff]
    exact exists_congr fun id => and_congr_right fun _ => (Prod.mk.injEq _ _ _ _ ▸ Iff.rfl)
  have hdir : ∀ q, (∃ id, walk hash fs fs.root q = some id ∧ (fs.nodes id).type = .DIRECTORY)
      ↔ (t q).map Prod.fst = some .DIRECTORY := by
    intro q
    rw [← hreads.located q, Option.map_map, Option.map_eq_some_iff]
    rfl
  constructor
  · intro ⟨hn, hd⟩
    exact ⟨hnode.mp hn, fun q hq hne => (hdir q).mp (hd q hq hne)⟩
  · intro ⟨hn, hd⟩
    exact ⟨hnode.mpr hn, fun q hq hne => (hdir q).mpr (hd q hq hne)⟩

/-- What the constructor makes of an archive, if it comes to an end. -/
theorem construct_cases (hash : Path → Nat) {mem : Memory} {initrd : BitVec 64}
    {members : List Member} (harchive : ArchiveAt mem initrd members) (hok : ArchiveOk members) :
    (∃ m ∈ members, 2 ^ 31 - 512 < m.size) ∧ (∀ fuel, construct hash mem fuel initrd = none)
    ∨ (∀ m ∈ members, m.size ≤ 2 ^ 31 - 512)
      ∧ ∃ fs, (∀ fuel, members.length < fuel → construct hash mem fuel initrd = some fs)
        ∧ Reads hash fs (Layout.build members) := by
  by_cases hsize : ∀ m ∈ members, m.size ≤ 2 ^ 31 - 512
  · exact Or.inr ⟨hsize, constructLoop_refines hsize hok.dots harchive reads_init⟩
  · have hlarge : ∃ m ∈ members, 2 ^ 31 - 512 < m.size := by
      by_contra hno
      exact hsize fun m hm => Nat.le_of_not_lt fun h => hno ⟨m, hm, h⟩
    exact Or.inl ⟨hlarge, fun fuel => constructLoop_overflow hok.size hlarge fuel harchive⟩

end Filesystem

/-- **THE TREE OF THE INITIAL RAM DISK.**  For every archive with names that end within
their field, no `.` and `..`, distinct paths, sizes below 2^31 and nothing below a
member that is not a directory: the constructor comes to an end with a tree in which
every member is the node at its path, with its type and its size and behind
directories, exactly when the archive is in order. -/
theorem initrd_tree_iff (hash : Path → Nat) {mem : Memory} {initrd : BitVec 64}
    {members : List Member} (harchive : ArchiveAt mem initrd members) (hok : ArchiveOk members) :
    (∃ fs, (∀ fuel, members.length < fuel → construct hash mem fuel initrd = some fs)
      ∧ ∀ m ∈ members, Placed hash fs m) ↔ Orderly members := by
  rcases construct_cases hash harchive hok with ⟨⟨x, hx, hlarge⟩, hnone⟩ | ⟨hsize, fs, hfs, hreads⟩
  · constructor
    · rintro ⟨fs, hfs, -⟩
      have hsome := hfs (members.length + 1) (Nat.lt_succ_self _)
      rw [hnone] at hsome
      exact absurd hsome (by simp)
    · intro horder
      exact absurd hlarge (Nat.not_lt_of_le (horder.size x hx))
  · rw [← build_right_iff hok hsize]
    constructor
    · intro ⟨fs', hfs', hplaced⟩ m hm
      have hsame := (hfs _ (Nat.lt_succ_self _)).symm.trans (hfs' _ (Nat.lt_succ_self _))
      obtain rfl := Option.some.inj hsame
      exact (hreads.placed_iff m).mp (hplaced m hm)
    · intro hright
      exact ⟨fs, hfs, fun m hm => (hreads.placed_iff m).mpr (hright m hm)⟩

/-- A memory of headers, block after block: the name and the type flag of each, all of
size zero. -/
def headersOnly (headers : List (List (BitVec 8) × BitVec 8)) : Memory := fun a =>
  match headers[a.toNat / 512]? with
  | none => 0
  | some (name, flag) =>
      let offset := a.toNat % 512
      if offset < 100 then name.getD offset 0
      else if offset < 124 then 0
      else if offset < 135 then 48
      else if offset = 156 then flag
      else if 257 ≤ offset then ustar.getD (offset - 257) 0
      else 0

/-- A directory, and a file in it. -/
theorem initrd_tree_iff_sorted :
    let mem := headersOnly [([97, 47], 53), ([97, 47, 98], 48)]
    let members : List Member := [⟨['a', '/'], 0, 53⟩, ⟨['a', '/', 'b'], 0, 48⟩]
    ArchiveAt mem 0 members ∧ ArchiveOk members
      ∧ ∃ fs, (∀ fuel, 2 < fuel → construct (fun _ => 0) mem fuel 0 = some fs)
        ∧ ∀ m ∈ members, Placed (fun _ => 0) fs m := by
  intro mem members
  have hend : mem.memcmp (0 + 512 + 0 + 512 + 0 + 257) ustar = 0 := by decide
  have harchive : ArchiveAt mem 0 members :=
    ⟨⟨by decide, by decide, by decide, by decide, by decide⟩,
      ⟨by decide, by decide, by decide, by decide, by decide⟩, hend⟩
  have hok : ArchiveOk members := ⟨by decide, by decide, by decide, by decide⟩
  have horder : Orderly members := by
    refine ⟨?_, by decide, by decide, by decide⟩
    intro i hi q hq hne hnil
    have hin := List.mem_inits _ _ |>.mpr hq
    match i, hi with
    | 0, _ =>
        have hfirst : ∀ q ∈ [['a']].inits, q ≠ [['a']] → q = [] := by decide
        exact absurd (hfirst q hin hne) hnil
    | 1, _ =>
        have hsecond : ∀ q ∈ [['a'], ['b']].inits, q ≠ [['a'], ['b']] → q ≠ [] → q = [['a']] := by
          decide
        exact ⟨0, by decide, by decide, (hsecond q hin hne hnil).symm⟩
  exact ⟨harchive, hok, (initrd_tree_iff (fun _ => 0) harchive hok).mpr horder⟩

/-- **A file before its directory**: `a/b` alone makes `/a` and, beside it, `/b`. -/
theorem file_before_its_directory :
    let mem := headersOnly [([97, 47, 98], 48)]
    let members : List Member := [⟨['a', '/', 'b'], 0, 48⟩]
    ArchiveAt mem 0 members ∧ ArchiveOk members
      ∧ ¬ ∃ fs, (∀ fuel, members.length < fuel → construct (fun _ => 0) mem fuel 0 = some fs)
        ∧ ∀ m ∈ members, Placed (fun _ => 0) fs m := by
  intro mem members
  have hend : mem.memcmp (0 + 512 + 0 + 257) ustar = 0 := by decide
  have harchive : ArchiveAt mem 0 members :=
    ⟨⟨by decide, by decide, by decide, by decide, by decide⟩, hend⟩
  have hok : ArchiveOk members := ⟨by decide, by decide, by decide, by decide⟩
  refine ⟨harchive, hok, ?_⟩
  intro ⟨fs, hfs, hplaced⟩
  rcases construct_cases (fun _ => 0) harchive hok with ⟨-, hnone⟩ | ⟨-, fs', hfs', hreads⟩
  · have hsome := hfs 2 (by decide)
    rw [hnone] at hsome
    exact absurd hsome (by simp)
  · obtain rfl := Option.some.inj ((hfs 2 (by decide)).symm.trans (hfs' 2 (by decide)))
    have hright := (hreads.placed_iff _).mp (hplaced _ List.mem_cons_self)
    have hnothing : Layout.build members [['a'], ['b']] = none := by decide
    exact absurd (hnothing.symm.trans hright.node) (by simp)

end MierOS.Fs
