/-
  MierOS.Stdlib.MapIterator
  **ITERATION over `std::UnorderedMap`**: `begin`, `end` and `operator++` of
  `kernel/std/include/unordered_map.hpp`, on the memory of `Stdlib.MapCopy`.

  At the end of a chain `operator++` looks for the next bucket that is not empty.
  Its loop moves the index on together with every bucket it reads, so the index is
  one too far when an entry was found, and is the capacity when none was: it is
  corrected in the first case only.

  Main results: `Chained`, `Step.chained`, `advance_eq_firstFrom`,
  `map_iteration_complete`.
-/
import MierOS.Lib.Chains
import MierOS.Lib.Loop
import MierOS.Stdlib.MapCopy
import Mathlib.Data.List.GetD

namespace MierOS.Stdlib.MapMemory

open Lib Lib.Links Lib.Chains
open Function (update update_eq_self update_idem update_of_ne update_self)

variable {K V : Type}

/-! ## §1. The iterator. -/

/-- An `iterator`, without the reference to its map. -/
structure Iterator where
  index : Nat
  entry : Nat
  deriving Repr, DecidableEq

/-- `end()`. -/
def «end» (m : MapMemory K V) (map : Nat) : Iterator := ⟨m.capacity map, 0⟩

/-- The loop of `begin()` from index `i` on. -/
def firstFrom (m : MapMemory K V) (map i : Nat) : Iterator :=
  if i < m.capacity map then
    if m.head map i ≠ 0 then ⟨i, m.head map i⟩ else firstFrom m map (i + 1)
  else m.end map
termination_by m.capacity map - i

/-- `begin()`. -/
def begin (m : MapMemory K V) (map : Nat) : Iterator := m.firstFrom map 0

/-- The loop of `operator++`: `index` and `new_entry` as it leaves them. -/
def skipBuckets (m : MapMemory K V) (map index newEntry : Nat) : Nat × Nat :=
  if index < m.capacity map ∧ newEntry = 0 then
    skipBuckets m map (index + 1) (m.head map index)
  else (index, newEntry)
termination_by m.capacity map - index

/-- `operator++`; `none` when it reads through a null pointer. -/
def advance (m : MapMemory K V) (map : Nat) (it : Iterator) : Option Iterator :=
  if it.entry = 0 then none
  else if m.next it.entry = 0 then
    let (index, newEntry) := m.skipBuckets map (it.index + 1) 0
    some ⟨if newEntry ≠ 0 then index - 1 else index, newEntry⟩
  else some ⟨it.index, m.next it.entry⟩

/-- A round of `for(auto it = begin(); it != end(); ++it)`, with the entries visited. -/
def iterateRound (m : MapMemory K V) (map : Nat) (s : Iterator × List Nat) :
    (Iterator × List Nat) ⊕ Option (List Nat) :=
  if s.1 = m.end map then .inr (some s.2)
  else
    match m.advance map s.1 with
    | none => .inr none
    | some it => .inl (it, s.2 ++ [s.1.entry])

/-! ## §2. The chains of a map. -/

/-- **The buckets of the map are chains that share no entry.** -/
structure Chained (m : MapMemory K V) (map : Nat) (chain : Nat → List Nat) : Prop where
  length : (m.bucket map).length = m.capacity map
  forest : Forest m.next 0 (m.head map) chain

section Chains

variable {m m' : MapMemory K V} {map : Nat} {chain : Nat → List Nat}

/-- An element of a vector replaced. -/
theorem getD_set {l : List Nat} {pos : Nat} (hpos : pos < l.length) (p : Nat) :
    (fun i => (l.set pos p).getD i 0) = update (fun i => l.getD i 0) pos p := by
  funext i
  by_cases hi : i = pos
  · subst hi
    rw [update_self]
    simp [List.getD_eq_getElem?_getD, hpos]
  · rw [update_of_ne hi]
    simp [List.getD_eq_getElem?_getD, List.getElem?_set_ne (Ne.symm hi)]

theorem head_setHead {pos : Nat} (hpos : pos < (m.bucket map).length) (p : Nat) :
    (m.setHead map pos p).head map = update (m.head map) pos p := by
  show (fun i => ((m.setHead map pos p).bucket map).getD i 0) = _
  unfold setHead
  dsimp only
  rw [update_self]
  exact getD_set hpos p

theorem head_setTable (bucket : List Nat) (capacity : Nat) :
    (m.setTable map bucket capacity).head map = fun i => bucket.getD i 0 := by
  funext i
  show (update m.bucket map bucket map).getD i 0 = _
  rw [update_self]

/-- The entries in the chains are those the map reaches. -/
theorem Chained.reaches_iff (h : Chained m map chain) {a : Nat} :
    Reaches m map a ↔ ∃ i, a ∈ chain i := by
  constructor
  · have howned : Owned m map fun a => ∃ i, a ∈ chain i := by
      constructor
      · intro p hp
        obtain ⟨i, hi, rfl⟩ := List.mem_iff_getElem.mp hp
        have hhead : m.head map i = (m.bucket map)[i] := by
          simp [MapMemory.head, List.getD_eq_getElem?_getD, hi]
        by_cases hnull : (m.bucket map)[i] = 0
        · exact Or.inl hnull
        · rw [← hhead] at hnull ⊢
          obtain ⟨l, hl⟩ := h.forest.chain_eq_cons hnull
          exact Or.inr ⟨i, hl ▸ List.mem_cons_self⟩
      · rintro a ⟨i, ha⟩
        exact (h.forest.next_mem ha).imp_right fun hmem => ⟨i, hmem⟩
    exact howned.reaches
  · rintro ⟨i, ha⟩
    -- along the chain, from a head that the map reaches
    have hwalk : ∀ {l : List Nat} {p : Nat}, Seg m.next p l 0 → 0 ∉ l → NullOr (Reaches m map) p →
        ∀ a ∈ l, Reaches m map a := by
      intro l
      induction l with
      | nil => exact fun _ _ _ a ha => absurd ha List.not_mem_nil
      | cons x l ih =>
          intro p hseg hlive hp a ha
          obtain ⟨rfl, hrest⟩ := hseg
          have hx : Reaches m map p :=
            hp.resolve_left fun hnull => hlive (hnull ▸ List.mem_cons_self)
          rcases List.mem_cons.mp ha with rfl | ha
          · exact hx
          · exact ih hrest (fun hmem => hlive (List.mem_cons_of_mem p hmem))
              ((owned_reaches m map).nexts p hx) a ha
    exact hwalk (h.forest.seg i) (h.forest.live i)
      (nullOr_getD (owned_reaches m map).heads i) a ha

theorem chained_emptyTable (m : MapMemory K V) (map capacity size : Nat) :
    Chained (m.emptyTable map capacity size) map fun _ => [] := by
  constructor
  · show (update m.bucket map _ map).length = update m.capacity map _ map
    rw [update_self, update_self, List.length_replicate]
  · refine Forest.empty fun i => ?_
    show (update m.bucket map _ map).getD i 0 = 0
    rw [update_self]
    by_cases hi : i < capacity <;> simp [List.getD_eq_getElem?_getD, hi]

theorem Chained.newEntry (h : Chained m map chain) {address : Nat} (hfree : ∀ i, address ∉ chain i)
    (key : K) (value : V) : Chained (m.newEntry address key value) map chain :=
  ⟨h.length, h.forest.free hfree 0⟩

theorem newEntry_next (m : MapMemory K V) (address : Nat) (key : K) (value : V) :
    (m.newEntry address key value).next address = 0 := update_self _ _ _

/-- A bucket whose pointer changes, and the chains that makes. -/
theorem Chained.setHead (h : Chained m map chain) {pos p : Nat} {chain' : Nat → List Nat}
    (hpos : pos < m.capacity map)
    (hforest : Forest m.next 0 (update (m.head map) pos p) chain') :
    Chained (m.setHead map pos p) map chain' := by
  constructor
  · show (update m.bucket map _ map).length = _
    rw [update_self, List.length_set]
    exact h.length
  · rw [head_setHead (h.length ▸ hpos)]
    exact hforest

/-- The entry becomes the first of an empty bucket. -/
theorem Chained.pushFirst (h : Chained m map chain) {pos address : Nat}
    (hpos : pos < m.capacity map) (hhead : m.head map pos = 0) (hfree : ∀ i, address ∉ chain i)
    (hnext : m.next address = 0) : ∃ chain', Chained (m.setHead map pos address) map chain' := by
  obtain ⟨chain', hforest⟩ := h.forest.push hhead hfree hnext
  exact ⟨chain', h.setHead hpos hforest⟩

/-- The entry goes behind the last one. -/
theorem Chained.pushLast (h : Chained m map chain) {i last address : Nat} {l : List Nat}
    (hlast : chain i = l ++ [last]) (hfree : ∀ i, address ∉ chain i)
    (hnext : m.next address = 0) : ∃ chain', Chained (m.setNext last address) map chain' := by
  obtain ⟨chain', hforest⟩ := h.forest.pushLast hlast hfree hnext
  exact ⟨chain', h.length, hforest⟩

end Chains

/-! ## §3. A rehash. -/

section Rehash

variable {hash : K → Nat} {m m' : MapMemory K V} {map : Nat}

/-- The loop to the last entry of a chain ends there. -/
theorem lastOf_spec {l : List Nat} : ∀ {p last fuel : Nat}, Seg m.next p (p :: l) 0 → 0 ∉ p :: l →
    m.lastOf fuel p = some last → ∃ front, p :: l = front ++ [last] := by
  induction l with
  | nil =>
      intro p last fuel hseg _ hloop
      cases fuel with
      | zero => exact nomatch hloop
      | succ fuel =>
          have hnull : m.next p = 0 := hseg.2
          unfold MapMemory.lastOf at hloop
          rw [if_pos hnull] at hloop
          exact ⟨[], by rw [Option.some.inj hloop]; rfl⟩
  | cons x l ih =>
      intro p last fuel hseg hlive hloop
      obtain ⟨_, hrest⟩ := hseg
      have hx : m.next p = x := hrest.start
      have hne : x ≠ 0 := fun heq => hlive (by rw [heq]; simp)
      cases fuel with
      | zero => exact nomatch hloop
      | succ fuel =>
          unfold MapMemory.lastOf at hloop
          rw [hx, if_neg hne] at hloop
          rw [hx] at hrest
          obtain ⟨front, hfront⟩ := ih hrest (fun hmem => hlive (List.mem_cons_of_mem p hmem)) hloop
          exact ⟨p :: front, by rw [hfront]; rfl⟩

/-- The first entry of an old chain is taken off. -/
theorem relink_take {old new : Nat → Nat} {i e : Nat} {chain : Nat ⊕ Nat → List Nat} (he : e ≠ 0)
    (h : Forest m.next 0 (Sum.elim (update old i e) new) chain) :
    ∃ chain', Forest (m.setNext e 0).next 0 (Sum.elim (update old i (m.next e)) new) chain'
      ∧ ∀ j, e ∉ chain' j := by
  have hhead : Sum.elim (update old i e) new (Sum.inl i) = e := update_self _ _ _
  obtain ⟨l, hl⟩ := h.chain_eq_cons (i := Sum.inl i) (hhead.symm ▸ he)
  rw [hhead] at hl
  have hfree := h.pop_free hl
  have hpop := (h.pop hl).free hfree 0
  rw [Sum.update_elim_inl, update_idem] at hpop
  exact ⟨_, hpop, hfree⟩

/-- **One chain of a rehash**: its entries go over to the new buckets one by one.  The old
chains `old` and the new ones share no entry in any round. -/
theorem relinkLoop_forest {newCap bound i : Nat} {old : Nat → Nat} {newBucket' : List Nat}
    (fuel : Nat) : ∀ {m : MapMemory K V} {e : Nat} {newBucket : List Nat}
      {chain : Nat ⊕ Nat → List Nat},
      Forest m.next 0 (Sum.elim (update old i e) fun k => newBucket.getD k 0) chain →
      newBucket.length = newCap →
      relinkLoop hash newCap bound fuel e m newBucket = some (m', newBucket') →
      (∃ chain', Forest m'.next 0
        (Sum.elim (update old i 0) fun k => newBucket'.getD k 0) chain')
      ∧ newBucket'.length = newCap ∧ m'.bucket = m.bucket := by
  induction fuel with
  | zero => exact fun _ _ hloop => (nomatch hloop)
  | succ fuel ih =>
      intro m e newBucket chain h hlength hloop
      unfold MapMemory.relinkLoop at hloop
      dsimp only at hloop
      split_ifs at hloop with hnull hcap hempty
      · -- the end of the chain
        obtain ⟨rfl, rfl⟩ := Prod.mk.inj (Option.some.inj hloop)
        exact ⟨⟨chain, hnull ▸ h⟩, hlength, rfl⟩
      · -- behind the last entry of its new bucket
        obtain ⟨last, hlast, hrest⟩ := Option.bind_eq_some_iff.mp hloop
        obtain ⟨chain₁, h₁, hfree⟩ := relink_take hnull h
        obtain ⟨l, hl⟩ := h₁.chain_eq_cons (i := Sum.inr (hash (m.key e) % newCap)) hempty
        have hseg := h₁.seg (Sum.inr (hash (m.key e) % newCap))
        have hlive := h₁.live (Sum.inr (hash (m.key e) % newCap))
        rw [hl] at hseg hlive
        obtain ⟨front, hfront⟩ := lastOf_spec hseg hlive hlast
        obtain ⟨chain₂, h₂⟩ := h₁.pushLast (hl.trans hfront) hfree (update_self e 0 m.next)
        obtain ⟨hforest, hlength', hbucket⟩ := ih h₂ hlength hrest
        exact ⟨hforest, hlength', hbucket⟩
      · -- the first entry of its new bucket
        have hpos : hash (m.key e) % newCap < newBucket.length := by
          rw [hlength]
          exact Nat.mod_lt _ (Nat.pos_of_ne_zero hcap)
        obtain ⟨chain₁, h₁, hfree⟩ := relink_take hnull h
        obtain ⟨chain₂, h₂⟩ := h₁.push (i := Sum.inr (hash (m.key e) % newCap)) (not_not.mp hempty)
          hfree (update_self e 0 m.next)
        rw [Sum.update_elim_inr, ← getD_set hpos] at h₂
        obtain ⟨hforest, hlength', hbucket⟩ := ih h₂ (by rw [List.length_set]; exact hlength) hloop
        exact ⟨hforest, hlength', hbucket⟩

/-- In front of bucket `i` of a rehash of `m`: what is left of the old chains and the new
ones share no entry, and the old buckets from `i` on are as they were. -/
structure Moving (m : MapMemory K V) (map newCap i : Nat) (s : MapMemory K V × List Nat)
    (old : Nat → Nat) (chain : Nat ⊕ Nat → List Nat) : Prop where
  forest : Forest s.1.next 0 (Sum.elim old fun k => s.2.getD k 0) chain
  left : ∀ j, i ≤ j → old j = m.head map j
  length : s.2.length = newCap
  bucket : s.1.bucket = m.bucket

theorem moving_start {chain : Nat → List Nat} (h : Chained m map chain) (newCap : Nat) :
    Moving m map newCap 0 (m, List.replicate newCap 0) (m.head map)
      (Sum.elim chain fun _ => []) := by
  refine ⟨h.forest.extend fun k => ?_, fun _ _ => rfl, List.length_replicate, rfl⟩
  by_cases hk : k < newCap <;> simp [List.getD_eq_getElem?_getD, hk]

theorem Moving.round {newCap i fuel : Nat} {s s' : MapMemory K V × List Nat} {old : Nat → Nat}
    {chain : Nat ⊕ Nat → List Nat} (h : Moving m map newCap i s old chain)
    (hround : relinkLoop hash newCap fuel fuel (s.1.head map i) s.1 s.2 = some s') :
    ∃ old' chain', Moving m map newCap (i + 1) s' old' chain' := by
  have hhead : s.1.head map i = old i := by
    rw [h.left i (Nat.le_refl i)]
    unfold MapMemory.head
    rw [h.bucket]
  have hforest := h.forest
  rw [← update_eq_self i old] at hforest
  rw [hhead] at hround
  obtain ⟨⟨chain', hforest'⟩, hlength, hbucket⟩ :=
    relinkLoop_forest fuel hforest h.length hround
  refine ⟨_, chain', hforest', fun j hj => ?_, hlength, hbucket.trans h.bucket⟩
  rw [update_of_ne (by omega)]
  exact h.left j (by omega)

/-- **A rehash keeps the chains apart.** -/
theorem Chained.rehash {chain : Nat → List Nat} (h : Chained m map chain) {fuel : Nat}
    (hrehash : rehash hash m map fuel = some m') : ∃ chain', Chained m' map chain' := by
  obtain ⟨⟨m₁, newBucket⟩, hloop, rfl⟩ := Option.map_eq_some_iff.mp hrehash
  obtain ⟨old, chain', hmoved⟩ := loop_invariant (n := m.capacity map)
    (I := fun i s => ∃ old chain, Moving m map (MapCounter.newCap (m.size map)) i s old chain)
    ⟨_, _, moving_start h _⟩
    (fun i s s' _ _ hs hround => by
      obtain ⟨old, chain, hs⟩ := hs
      exact hs.round hround)
    _ _ (Nat.le_refl _) hloop
  refine ⟨chain' ∘ Sum.inr, ?_, ?_⟩
  · show (update m₁.bucket map _ map).length = update m₁.capacity map _ map
    rw [update_self, update_self]
    exact hmoved.length
  · rw [head_setTable]
    exact hmoved.forest.comap Sum.inr_injective

theorem Chained.counted {chain : Nat → List Nat} (h : Chained m map chain) {fuel : Nat}
    (hcounted : counted hash m map fuel = some m') : ∃ chain', Chained m' map chain' := by
  unfold MapMemory.counted at hcounted
  dsimp only at hcounted
  have hsize : Chained (m.setSize map ((m.size map + 1) % 2 ^ 64)) map chain := ⟨h.length, h.forest⟩
  split_ifs at hcounted with hgrow
  · exact hsize.rehash hcounted
  · exact ⟨chain, Option.some.inj hcounted ▸ hsize⟩

end Rehash

/-! ## §4. The calls. -/

section Calls

variable [DecidableEq K] {hash : K → Nat} {m m' : MapMemory K V} {map : Nat}
  {chain : Nat → List Nat}

/-- What the loop through a chain ends with: the entry of the key and what stands in front
of it, or null behind the last entry. -/
theorem seek_split (key : K) {l : List Nat} : ∀ {p prev prev' entry fuel : Nat},
    Seg m.next p l 0 → 0 ∉ l → m.seek key fuel prev p = some (prev', entry) →
    ∃ front back, l = front ++ back ∧ prev' = front.getLastD prev
      ∧ (entry = 0 ∧ back = [] ∨ entry ≠ 0 ∧ ∃ rest, back = entry :: rest) := by
  induction l with
  | nil =>
      intro p prev prev' entry fuel hseg _ hseek
      cases fuel with
      | zero => exact nomatch hseek
      | succ fuel =>
          have hp : p = 0 := hseg
          unfold MapMemory.seek at hseek
          rw [if_pos hp] at hseek
          obtain ⟨rfl, rfl⟩ := Prod.mk.inj (Option.some.inj hseek)
          exact ⟨[], [], rfl, rfl, Or.inl ⟨rfl, rfl⟩⟩
  | cons x l ih =>
      intro p prev prev' entry fuel hseg hlive hseek
      obtain ⟨rfl, hrest⟩ := hseg
      have hp : p ≠ 0 := fun heq => hlive (heq ▸ List.mem_cons_self)
      cases fuel with
      | zero => exact nomatch hseek
      | succ fuel =>
          unfold MapMemory.seek at hseek
          rw [if_neg hp] at hseek
          by_cases hkey : key = m.key p
          · rw [if_pos hkey] at hseek
            obtain ⟨rfl, rfl⟩ := Prod.mk.inj (Option.some.inj hseek)
            exact ⟨[], p :: l, rfl, rfl, Or.inr ⟨hp, l, rfl⟩⟩
          · rw [if_neg hkey] at hseek
            obtain ⟨front, back, hl, hprev, hentry⟩ :=
              ih hrest (fun hmem => hlive (List.mem_cons_of_mem p hmem)) hseek
            refine ⟨p :: front, back, by rw [hl]; rfl, ?_, hentry⟩
            rw [hprev, List.getLastD_cons]

omit [DecidableEq K] in
theorem pos_lt {key : K} {pos : Nat} (hpos : bucketPos hash m map key = some pos) :
    pos < m.capacity map := by
  unfold bucketPos at hpos
  split_ifs at hpos with hcap
  exact Option.some.inj hpos ▸ Nat.mod_lt _ (Nat.pos_of_ne_zero hcap)

/-- The end of a chain that is not empty. -/
theorem Chained.last_of_seek (h : Chained m map chain) {key : K} {pos last entry fuel : Nat}
    (hhead : m.head map pos ≠ 0) (hseek : m.seek key fuel 0 (m.head map pos) = some (last, entry))
    (hentry : entry = 0) : ∃ front, chain pos = front ++ [last] := by
  obtain ⟨front, back, hl, hlast, hcase⟩ :=
    seek_split key (h.forest.seg pos) (h.forest.live pos) hseek
  rcases hcase with ⟨_, rfl⟩ | ⟨hne, _⟩
  · rw [List.append_nil] at hl
    obtain ⟨l, hcons⟩ := h.forest.chain_eq_cons hhead
    have hfront : front ≠ [] := by
      rw [← hl, hcons]
      exact List.cons_ne_nil _ _
    refine ⟨front.dropLast, ?_⟩
    rw [hl, hlast, List.getLastD_eq_getLast?, List.getLast?_eq_some_getLast hfront, Option.getD_some,
      List.dropLast_append_getLast hfront]
  · exact absurd hentry hne

theorem Chained.insert (h : Chained m map chain) {key : K} {value : V} {address fuel : Nat}
    (hfree : ∀ i, address ∉ chain i)
    (hinsert : insert hash m map key value address fuel = some m') :
    ∃ chain', Chained m' map chain' := by
  have hnew := h.newEntry hfree key value
  have hnext := newEntry_next m address key value
  obtain ⟨pos, hpos, hrest⟩ := Option.bind_eq_some_iff.mp hinsert
  have hlt := pos_lt hpos
  split_ifs at hrest with hhead
  · -- an empty chain
    obtain ⟨chain', hlink⟩ := hnew.pushFirst hlt hhead hfree hnext
    exact hlink.counted hrest
  · obtain ⟨⟨last, entry⟩, hseek, hrest⟩ := Option.bind_eq_some_iff.mp hrest
    dsimp only at hrest
    split_ifs at hrest with hnull
    · obtain ⟨front, hfront⟩ := hnew.last_of_seek hhead hseek hnull
      obtain ⟨chain', hlink⟩ := hnew.pushLast hfront hfree hnext
      exact hlink.counted hrest
    · -- the key is there: the new entry is freed again
      exact ⟨chain, Option.some.inj hrest ▸ hnew⟩

theorem Chained.index [Inhabited V] (h : Chained m map chain) {key : K} {address fuel : Nat}
    (hfree : ∀ i, address ∉ chain i) (hindex : index hash m map key address fuel = some m') :
    ∃ chain', Chained m' map chain' := by
  have hnew := h.newEntry hfree key (default : V)
  have hnext := newEntry_next m address key (default : V)
  obtain ⟨pos, hpos, hrest⟩ := Option.bind_eq_some_iff.mp hindex
  have hlt := pos_lt hpos
  split_ifs at hrest with hhead
  · obtain ⟨chain', hlink⟩ := hnew.pushFirst hlt hhead hfree hnext
    exact ⟨chain', Option.some.inj hrest ▸ hlink⟩
  · obtain ⟨⟨last, entry⟩, hseek, rfl⟩ := Option.map_eq_some_iff.mp hrest
    dsimp only
    split_ifs with hnull
    · obtain ⟨front, hfront⟩ := h.last_of_seek hhead hseek hnull
      exact hnew.pushLast hfront hfree hnext
    · exact ⟨chain, h⟩

theorem Chained.erase (h : Chained m map chain) {key : K} {fuel : Nat}
    (herase : erase hash m map key fuel = some m') : ∃ chain', Chained m' map chain' := by
  obtain ⟨pos, hpos, hrest⟩ := Option.bind_eq_some_iff.mp herase
  have hlt := pos_lt hpos
  obtain ⟨⟨prev, entry⟩, hseek, rfl⟩ := Option.map_eq_some_iff.mp hrest
  obtain ⟨front, back, hl, hprev, hcase⟩ :=
    seek_split key (h.forest.seg pos) (h.forest.live pos) hseek
  dsimp only
  rcases hcase with ⟨hnull, _⟩ | ⟨hne, rest, rfl⟩
  · rw [if_pos hnull]
    exact ⟨chain, h⟩
  · rw [if_neg hne]
    rcases List.eq_nil_or_concat' front with rfl | ⟨front, last, rfl⟩
    · -- the first of its chain
      have hzero : prev = 0 := hprev
      have hlink := h.setHead hlt (h.forest.pop hl)
      rw [if_pos hzero]
      exact ⟨_, hlink.length, hlink.forest⟩
    · -- behind `prev`, which is an entry of the chain
      rw [List.append_assoc] at hl
      have hlast : prev = last := hprev.trans List.getLastD_concat
      have hlive : prev ≠ 0 := by
        intro hzero
        refine h.forest.live pos ?_
        rw [hl, ← hzero, hlast]
        simp
      rw [if_neg hlive, hlast]
      exact ⟨_, h.length, h.forest.unlink hl⟩

omit [DecidableEq K] in
theorem Chained.clear (hclear : clear m map fuel = some m') : ∃ chain', Chained m' map chain' := by
  obtain ⟨_, -, rfl⟩ := Option.map_eq_some_iff.mp hclear
  exact ⟨_, chained_emptyTable _ _ _ _⟩

/-- A call on the map; the allocator answers with an entry that the map does not have. -/
def Fresh (map : Nat) (_ : List (Event K V)) (m : MapMemory K V) (e : Event K V) : Prop :=
  e.map = map ∧ ¬ Reaches m map e.address

/-- **Every call keeps the chains of the map apart.** -/
theorem Step.chained [Inhabited V] {e : Event K V} (h : Chained m map chain) (hmap : e.map = map)
    (hfresh : ¬ Reaches m map e.address) (hst : Step hash m e m') :
    ∃ chain', Chained m' map chain' := by
  obtain ⟨fuel, hexec⟩ := hst
  have hfree : ∀ i, e.address ∉ chain i := fun i hi => hfresh (h.reaches_iff.mpr ⟨i, hi⟩)
  unfold exec at hexec
  rw [hmap] at hexec
  split at hexec
  · exact h.insert hfree hexec
  · exact h.index hfree hexec
  · exact h.erase hexec
  · exact Chained.clear hexec

/-- A call adds no entry but the one the allocator answered with. -/
theorem Step.not_reaches [Inhabited V] {e : Event K V} {a : Nat} (hst : Step hash m e m')
    (hold : ¬ Reaches m e.map a) (hne : a ≠ e.address) : ¬ Reaches m' e.map a := by
  intro hreach
  obtain ⟨S, hwithin, hS⟩ := hst.within
  rcases hS a (hwithin.owned.reaches hreach) with hmem | hnew
  · exact hold hmem
  · exact hne hnew

theorem chained_run [Inhabited V] {m₀ : MapMemory K V} {capacity : Nat} {hist : List (Event K V)}
    (hrun : GuardedRun (Step hash) (Fresh map) (m₀.emptyTable map capacity 0) hist m) :
    ∃ chain, Chained m map chain := by
  refine hrun.historyInvariant (fun _ m => ∃ chain, Chained m map chain)
    ⟨_, chained_emptyTable m₀ map capacity 0⟩ ?_
  rintro _ m e m' ⟨chain, h⟩ ⟨hmap, hfresh⟩ hst
  exact hst.chained h hmap hfresh

end Calls

/-! ## §5. A loop over the map. -/

section Iteration

variable {m : MapMemory K V} {map : Nat} {chain : Nat → List Nat}

theorem firstFrom_end {i : Nat} (hi : m.capacity map ≤ i) : m.firstFrom map i = m.end map := by
  unfold firstFrom
  rw [if_neg (Nat.not_lt.mpr hi)]

theorem firstFrom_found {i : Nat} (hi : i < m.capacity map) (hhead : m.head map i ≠ 0) :
    m.firstFrom map i = ⟨i, m.head map i⟩ := by
  unfold firstFrom
  rw [if_pos hi, if_pos hhead]

theorem firstFrom_null {i : Nat} (hi : i < m.capacity map) (hhead : m.head map i = 0) :
    m.firstFrom map i = m.firstFrom map (i + 1) := by
  rw [firstFrom, if_pos hi, if_neg (not_not.mpr hhead)]

/-- **The loop of `operator++` is the one of `begin`**, with the index one too far where an
entry was found. -/
theorem skipBuckets_eq_firstFrom {i : Nat} (hi : i ≤ m.capacity map) :
    (⟨if (m.skipBuckets map i 0).2 ≠ 0 then (m.skipBuckets map i 0).1 - 1
        else (m.skipBuckets map i 0).1, (m.skipBuckets map i 0).2⟩ : Iterator)
      = m.firstFrom map i := by
  induction hn : m.capacity map - i generalizing i with
  | zero =>
      -- every bucket has been read, and the index is the capacity
      have hend : i = m.capacity map := by omega
      have hskip : m.skipBuckets map i 0 = (i, 0) := by
        unfold skipBuckets
        rw [if_neg (fun h => absurd h.1 (by omega))]
      rw [hskip, firstFrom_end (Nat.le_of_eq hend.symm), hend]
      rfl
  | succ n ih =>
      have hlt : i < m.capacity map := by omega
      have hskip : m.skipBuckets map i 0 = m.skipBuckets map (i + 1) (m.head map i) := by
        rw [skipBuckets, if_pos ⟨hlt, rfl⟩]
      by_cases hhead : m.head map i = 0
      · rw [hskip, hhead, firstFrom_null hlt hhead]
        exact ih hlt (by omega)
      · have hstop : m.skipBuckets map (i + 1) (m.head map i) = (i + 1, m.head map i) := by
          unfold skipBuckets
          rw [if_neg (fun h => hhead h.2)]
        rw [hskip, hstop, firstFrom_found hlt hhead]
        dsimp only
        rw [if_pos hhead, Nat.add_sub_cancel]

theorem advance_eq_firstFrom {it : Iterator} (hlt : it.index < m.capacity map)
    (hne : it.entry ≠ 0) (hnext : m.next it.entry = 0) :
    m.advance map it = some (m.firstFrom map (it.index + 1)) := by
  unfold advance
  rw [if_neg hne, if_pos hnext, ← skipBuckets_eq_firstFrom hlt]

/-- The chains from bucket `i` on, one after another. -/
def chainsFrom (chain : Nat → List Nat) (capacity i : Nat) : List Nat :=
  (List.range' i (capacity - i)).flatMap chain

theorem chainsFrom_step {capacity i : Nat} (hi : i < capacity) :
    chainsFrom chain capacity i = chain i ++ chainsFrom chain capacity (i + 1) := by
  obtain ⟨n, hn⟩ : ∃ n, capacity - i = n + 1 := ⟨capacity - i - 1, by omega⟩
  have hn' : capacity - (i + 1) = n := by omega
  unfold chainsFrom
  rw [hn, hn', List.range'_succ, List.flatMap_cons]

theorem chainsFrom_end {capacity i : Nat} (hi : capacity ≤ i) : chainsFrom chain capacity i = [] := by
  unfold chainsFrom
  rw [Nat.sub_eq_zero_of_le hi]
  rfl

/-- **Where an iterator stands**: at the end, with nothing to come, or at an entry, with the
rest of its chain and the later chains to come. -/
def At (m : MapMemory K V) (map : Nat) (chain : Nat → List Nat) (it : Iterator)
    (rest : List Nat) : Prop :=
  (it = m.end map ∧ rest = []) ∨
    it.index < m.capacity map ∧ it.entry ≠ 0 ∧ ∃ l, Seg m.next (m.next it.entry) l 0 ∧ 0 ∉ l
      ∧ rest = it.entry :: l ++ chainsFrom chain (m.capacity map) (it.index + 1)

/-- The search of `begin` stands at the first entry from bucket `i` on. -/
theorem Chained.at_firstFrom (h : Chained m map chain) {i : Nat} (hi : i ≤ m.capacity map) :
    At m map chain (m.firstFrom map i) (chainsFrom chain (m.capacity map) i) := by
  induction hn : m.capacity map - i generalizing i with
  | zero =>
      have hend : m.capacity map ≤ i := by omega
      exact Or.inl ⟨firstFrom_end hend, chainsFrom_end hend⟩
  | succ n ih =>
      have hlt : i < m.capacity map := by omega
      rw [chainsFrom_step hlt]
      by_cases hhead : m.head map i = 0
      · rw [firstFrom_null hlt hhead, h.forest.chain_eq_nil hhead, List.nil_append]
        exact ih hlt (by omega)
      · obtain ⟨l, hl⟩ := h.forest.chain_eq_cons hhead
        have hseg := h.forest.seg i
        have hlive := h.forest.live i
        rw [hl] at hseg hlive
        rw [firstFrom_found hlt hhead, hl]
        exact Or.inr ⟨hlt, hhead, l, hseg.2, fun hmem => hlive (List.mem_cons_of_mem _ hmem), rfl⟩

/-- **`operator++` goes on to the next entry.** -/
theorem Chained.at_advance (h : Chained m map chain) {it : Iterator} {a : Nat} {rest : List Nat}
    (hat : At m map chain it (a :: rest)) :
    it.entry = a ∧ it ≠ m.end map ∧ ∃ it', m.advance map it = some it' ∧ At m map chain it' rest := by
  rcases hat with ⟨_, hnil⟩ | ⟨hlt, hne, l, hseg, hlive, hrest⟩
  · exact nomatch hnil
  · obtain ⟨ha, rfl⟩ := List.cons.inj hrest
    refine ⟨ha.symm, fun hend => hne (congrArg Iterator.entry hend), ?_⟩
    cases l with
    | nil =>
        -- the end of the chain: on to the next bucket that is not empty
        have hnext : m.next it.entry = 0 := hseg
        exact ⟨_, advance_eq_firstFrom hlt hne hnext, h.at_firstFrom hlt⟩
    | cons x l =>
        obtain ⟨hx, hseg'⟩ := hseg
        have hnext : m.next it.entry ≠ 0 := fun hnull =>
          hlive (by rw [← hnull, hx]; exact List.mem_cons_self)
        refine ⟨⟨it.index, m.next it.entry⟩, ?_, Or.inr ⟨hlt, hnext, l, ?_, ?_, ?_⟩⟩
        · unfold advance
          rw [if_neg hne, if_neg hnext]
        · show Seg m.next (m.next (m.next it.entry)) l 0
          rw [hx]
          exact hseg'
        · exact fun hmem => hlive (List.mem_cons_of_mem x hmem)
        · show _ = m.next it.entry :: l ++ _
          rw [hx]
          rfl

/-- The loop ends, and has visited everything to come in order. -/
theorem Chained.iterate (h : Chained m map chain) {rest : List Nat} :
    ∀ {it : Iterator} (visited : List Nat), At m map chain it rest →
      Loop.Returns (m.iterateRound map) (it, visited) (some (visited ++ rest)) := by
  induction rest with
  | nil =>
      intro it visited hat
      rcases hat with ⟨hend, _⟩ | ⟨_, _, l, _, _, hrest⟩
      · refine Loop.Returns.inr ?_
        unfold iterateRound
        rw [if_pos hend, List.append_nil]
      · exact nomatch hrest
  | cons a rest ih =>
      intro it visited hat
      obtain ⟨ha, hne, it', hadvance, hat'⟩ := h.at_advance hat
      have hround : m.iterateRound map (it, visited) = .inl (it', visited ++ [it.entry]) := by
        unfold iterateRound
        rw [if_neg hne, hadvance]
      have hreturns := ih (visited ++ [it.entry]) hat'
      rw [List.append_assoc, ha] at hreturns
      rw [ha] at hround
      exact hreturns.inl hround

end Iteration

/-- **Iteration is complete.**  For every map made by calls of `insert`, `operator[]`,
`erase` and `clear` on an empty one of any capacity: the loop from `begin()` with
`operator++` ends, at `end()`, reads through no null pointer, and has visited each entry
that the map reaches exactly once. -/
theorem map_iteration_complete [DecidableEq K] [Inhabited V] {hash : K → Nat}
    {m₀ m : MapMemory K V} {map capacity : Nat} {hist : List (Event K V)}
    (hrun : GuardedRun (Step hash) (Fresh map) (m₀.emptyTable map capacity 0) hist m) :
    ∃ visited, Loop.Returns (m.iterateRound map) (m.begin map, []) (some visited)
      ∧ visited.Nodup ∧ ∀ a, a ∈ visited ↔ Reaches m map a := by
  obtain ⟨chain, h⟩ := chained_run hrun
  have hreturns := h.iterate [] (h.at_firstFrom (Nat.zero_le _))
  rw [List.nil_append] at hreturns
  refine ⟨_, hreturns, h.forest.nodup_flatMap List.nodup_range', fun a => ?_⟩
  rw [h.reaches_iff]
  unfold chainsFrom
  rw [List.mem_flatMap]
  constructor
  · rintro ⟨i, _, ha⟩
    exact ⟨i, ha⟩
  · rintro ⟨i, ha⟩
    refine ⟨i, ?_, ha⟩
    -- a bucket behind the last one is null
    by_contra hout
    have hhead : m.head map i = 0 := by
      unfold MapMemory.head
      refine List.getD_eq_default _ _ ?_
      rw [h.length]
      rw [List.mem_range'_1] at hout
      omega
    rw [h.forest.chain_eq_nil hhead] at ha
    exact absurd ha List.not_mem_nil

/-- Two buckets, the first one empty: `insert` and `operator[]` put their entries into the
chain of the second one. -/
theorem map_iteration_complete_chain :
    ∃ (hist : List (Event Nat Nat)) (m : MapMemory Nat Nat), hist.length = 2
      ∧ GuardedRun (Step fun key => key) (Fresh 0) ((twoBuckets [] 0).emptyTable 0 2 0) hist m
      ∧ ∃ visited, Loop.Returns (m.iterateRound 0) (m.begin 0, []) (some visited)
        ∧ visited.Nodup ∧ ∀ a, a ∈ visited ↔ Reaches m 0 a := by
  have hstep : Step (fun key => key) ((twoBuckets [] 0).emptyTable 0 2 0) ⟨0, .insert 1 10, 1⟩ _ :=
    ⟨1, rfl⟩
  have hfirst : GuardedRun (Step fun key => key) (Fresh 0) ((twoBuckets [] 0).emptyTable 0 2 0)
      [⟨0, .insert 1 10, 1⟩] _ :=
    GuardedRun.step GuardedRun.init ⟨rfl, emptyTable_reaches _ 0 2 0 1⟩ hstep
  -- the entry at 1 is the only one in the map
  have hfresh := hstep.not_reaches (a := 2) (emptyTable_reaches _ 0 2 0 2) (by decide)
  have hrun : GuardedRun (Step fun key => key) (Fresh 0) ((twoBuckets [] 0).emptyTable 0 2 0)
      [⟨0, .index 3, 2⟩, ⟨0, .insert 1 10, 1⟩] _ :=
    GuardedRun.step hfirst ⟨rfl, hfresh⟩ ⟨2, rfl⟩
  exact ⟨_, _, rfl, hrun, map_iteration_complete hrun⟩

end MierOS.Stdlib.MapMemory
