/-
  MierOS.Stdlib.MapCopy
  **COPIES of `std::UnorderedMap`**: the copy constructor and the copy assignment of
  `kernel/std/include/unordered_map.hpp`, in a memory with many maps, on the entries and
  their pointers.

  Both give the copy a table of null pointers and the counter of the source, and then
  skip every bucket in which THEIR OWN pointer is null: that is all of them.

  Main results: `MapMemory`, `exec`, `Shows`, `copy_shows`, `apart_run`,
  `map_copy_iff`.
-/
import MierOS.Lib.Links
import MierOS.Lib.Run
import MierOS.Stdlib.MapCounter

namespace MierOS.Stdlib

open Lib Lib.Links
open Function (update update_of_ne update_self)

/-! ## §1. A memory with many maps. -/

/-- The entries by their addresses, and the fields of every map object.  The null pointer
is `0`; `bucket` lists the pointers of a map's vector. -/
structure MapMemory (K V : Type) where
  key : Nat → K
  value : Nat → V
  next : Nat → Nat
  bucket : Nat → List Nat
  capacity : Nat → Nat
  size : Nat → Nat

namespace MapMemory

variable {K V : Type}

/-- `f_bucket[pos]`. -/
def head (m : MapMemory K V) (map pos : Nat) : Nat := (m.bucket map).getD pos 0

/-- `entry->next = p`. -/
def setNext (m : MapMemory K V) (entry p : Nat) : MapMemory K V :=
  { m with next := update m.next entry p }

/-- `f_bucket[pos] = p`. -/
def setHead (m : MapMemory K V) (map pos p : Nat) : MapMemory K V :=
  { m with bucket := update m.bucket map ((m.bucket map).set pos p) }

/-- `f_size = n`. -/
def setSize (m : MapMemory K V) (map n : Nat) : MapMemory K V :=
  { m with size := update m.size map n }

/-- The vector and `f_capacity` replaced. -/
def setTable (m : MapMemory K V) (map : Nat) (bucket : List Nat) (capacity : Nat) :
    MapMemory K V :=
  { m with
    bucket := update m.bucket map bucket
    capacity := update m.capacity map capacity }

/-- `alloc<Entry>(key, value)`, which answers with `address`. -/
def newEntry (m : MapMemory K V) (address : Nat) (key : K) (value : V) : MapMemory K V :=
  { m with
    key := update m.key address key
    value := update m.value address value
    next := update m.next address 0 }

section Operations

variable [DecidableEq K] (hash : K → Nat)

/-- `Hasher {}(key) % f_capacity`; the processor traps on a capacity of `0`. -/
def bucketPos (m : MapMemory K V) (map : Nat) (key : K) : Option Nat :=
  if m.capacity map = 0 then none else some (hash key % m.capacity map)

/-- The loops through one chain: the entry of the key, or null, and the entry before. -/
def seek (m : MapMemory K V) (key : K) : Nat → Nat → Nat → Option (Nat × Nat)
  | 0, _, _ => none
  | fuel + 1, prev, entry =>
      if entry = 0 then some (prev, 0)
      else if key = m.key entry then some (prev, entry)
      else seek m key fuel entry (m.next entry)

/-- `at(key)`. -/
def «at» (m : MapMemory K V) (map : Nat) (key : K) (fuel : Nat) : Option (Option V) :=
  (bucketPos hash m map key).bind fun pos =>
    (m.seek key fuel 0 (m.head map pos)).map fun (_, entry) =>
      if entry = 0 then none else some (m.value entry)

/-- The last entry of a chain, as `rehash` looks for it. -/
def lastOf (m : MapMemory K V) : Nat → Nat → Option Nat
  | 0, _ => none
  | fuel + 1, last => if m.next last = 0 then some last else lastOf m fuel (m.next last)

/-- The inner loop of `rehash`: the chain that starts at `e` goes into `newBucket`. -/
def relinkLoop (newCap bound : Nat) :
    Nat → Nat → MapMemory K V → List Nat → Option (MapMemory K V × List Nat)
  | 0, _, _, _ => none
  | fuel + 1, e, m, newBucket =>
      if e = 0 then some (m, newBucket)
      else if newCap = 0 then none
      else
        let next := m.next e
        let m := m.setNext e 0
        let bucketPos := hash (m.key e) % newCap
        if newBucket.getD bucketPos 0 ≠ 0 then
          (m.lastOf bound (newBucket.getD bucketPos 0)).bind fun last =>
            relinkLoop newCap bound fuel next (m.setNext last e) newBucket
        else relinkLoop newCap bound fuel next m (newBucket.set bucketPos e)

/-- `rehash()`. -/
def rehash (m : MapMemory K V) (map fuel : Nat) : Option (MapMemory K V) :=
  let newCap := MapCounter.newCap (m.size map)
  let newBucket := List.replicate newCap 0
  ((List.range (m.capacity map)).foldlM (fun (s : MapMemory K V × List Nat) i =>
      relinkLoop hash newCap fuel fuel (s.1.head map i) s.1 s.2) (m, newBucket)).map fun s =>
    s.1.setTable map s.2 newCap

/-- The end of `insert`: the new entry is counted, and the table grows. -/
def counted (m : MapMemory K V) (map fuel : Nat) : Option (MapMemory K V) :=
  let m := m.setSize map ((m.size map + 1) % 2 ^ 64)
  if m.size map ≥ m.capacity map * 2 % 2 ^ 64 then rehash hash m map fuel else some m

/-- `insert({key, value})`. -/
def insert (m : MapMemory K V) (map : Nat) (key : K) (value : V) (address fuel : Nat) :
    Option (MapMemory K V) :=
  let m := m.newEntry address key value
  (bucketPos hash m map key).bind fun pos =>
    if m.head map pos = 0 then counted hash (m.setHead map pos address) map fuel
    else
      (m.seek key fuel 0 (m.head map pos)).bind fun (last, entry) =>
        if entry = 0 then counted hash (m.setNext last address) map fuel else some m

/-- `operator[](key)`. -/
def index [Inhabited V] (m : MapMemory K V) (map : Nat) (key : K) (address fuel : Nat) :
    Option (MapMemory K V) :=
  (bucketPos hash m map key).bind fun pos =>
    if m.head map pos = 0 then some ((m.newEntry address key default).setHead map pos address)
    else
      (m.seek key fuel 0 (m.head map pos)).map fun (last, entry) =>
        if entry = 0 then (m.newEntry address key default).setNext last address else m

/-- `erase(key)`. -/
def erase (m : MapMemory K V) (map : Nat) (key : K) (fuel : Nat) : Option (MapMemory K V) :=
  (bucketPos hash m map key).bind fun pos =>
    (m.seek key fuel 0 (m.head map pos)).map fun (prev, entry) =>
      if entry = 0 then m
      else
        let m := if prev = 0 then m.setHead map pos (m.next entry)
          else m.setNext prev (m.next entry)
        m.setSize map ((m.size map + (2 ^ 64 - 1)) % 2 ^ 64)

/-- The inner loop of `clear`, which frees one chain. -/
def freeLoop (m : MapMemory K V) : Nat → Nat → Option Unit
  | 0, _ => none
  | fuel + 1, e => if e = 0 then some () else freeLoop m fuel (m.next e)

/-- A vector of null pointers, `f_capacity` and `f_size`: what `clear` leaves and what a copy
starts with. -/
def emptyTable (m : MapMemory K V) (this capacity size : Nat) : MapMemory K V :=
  (m.setTable this (List.replicate capacity 0) capacity).setSize this size

/-- `clear()`. -/
def clear (m : MapMemory K V) (map fuel : Nat) : Option (MapMemory K V) :=
  ((List.range (m.capacity map)).foldlM (fun _ i => m.freeLoop fuel (m.head map i)) ()).map fun _ =>
    m.emptyTable map UnorderedMap.initialBucketSize 0

/-- The inner loop of a copy: the entries from `oEntry` on are copied behind `last`.  The
`k`-th allocation is the next one. -/
def copyChain (alloc : Nat → Nat) :
    Nat → Nat → Nat → Nat → MapMemory K V → Option (Nat × MapMemory K V)
  | 0, _, _, _, _ => none
  | fuel + 1, k, last, oEntry, m =>
      if oEntry = 0 then some (k, m)
      else
        let m := m.newEntry (alloc k) (m.key oEntry) (m.value oEntry)
        let m := m.setNext last (alloc k)
        copyChain alloc fuel (k + 1) (alloc k) (m.next oEntry) m

/-- One round of a copy: a bucket of the copy whose pointer is null is skipped. -/
def copyBucket (alloc : Nat → Nat) (this other fuel : Nat) (s : Nat × MapMemory K V) (i : Nat) :
    Option (Nat × MapMemory K V) :=
  if s.2.head this i = 0 then some s
  else
    let first := s.2.head other i
    if first = 0 then none
    else
      let last := alloc s.1
      let m := s.2.newEntry last (s.2.key first) (s.2.value first)
      let m := m.setHead this i last
      copyChain alloc fuel (s.1 + 1) last (m.next first) m

/-- The outer loop of a copy. -/
def copyBuckets (m : MapMemory K V) (this other : Nat) (alloc : Nat → Nat) (fuel : Nat) :
    Option (MapMemory K V) :=
  ((List.range (m.capacity this)).foldlM (copyBucket alloc this other fuel) (0, m)).map Prod.snd

/-- `UnorderedMap(const UnorderedMap<K, V>& other)` of the object `this`. -/
def copyConstruct (m : MapMemory K V) (this other : Nat) (alloc : Nat → Nat) (fuel : Nat) :
    Option (MapMemory K V) :=
  (m.emptyTable this (m.capacity other) (m.size other)).copyBuckets this other alloc fuel

/-- `operator=(const UnorderedMap<K, V>& other)`.  The vector is empty after `clear`, so
`resize` writes every element. -/
def copyAssign (m : MapMemory K V) (this other : Nat) (alloc : Nat → Nat) (fuel : Nat) :
    Option (MapMemory K V) :=
  (m.clear this fuel).bind fun m =>
    (m.emptyTable this (m.capacity other) (m.size other)).copyBuckets this other alloc fuel

end Operations

/-! ## §2. The table that a map stands for. -/

/-- The chains of the map are those of `t`, entry by entry. -/
structure Shows (m : MapMemory K V) (map : Nat) (t : UnorderedMap K V) : Prop where
  capacity : m.capacity map = t.capacity
  size : m.size map = t.size
  chains : ∀ pos, pos < t.capacity → ∃ l, Seg m.next (m.head map pos) l 0 ∧ 0 ∉ l
    ∧ l.map (fun a => (m.key a, m.value a)) = t.chain pos

section Lookup

variable [DecidableEq K] {hash : K → Nat} {m : MapMemory K V} {map : Nat} {t : UnorderedMap K V}

/-- The loop finds the entry that the chain holds for the key. -/
theorem seek_spec (key : K) {l : List Nat} : ∀ {p : Nat}, Seg m.next p l 0 → 0 ∉ l →
    ∀ prev fuel, l.length < fuel → ∃ prev' entry, m.seek key fuel prev p = some (prev', entry)
      ∧ (if entry = 0 then none else some (m.value entry))
        = ((UnorderedMap.seek key (l.map fun a => (m.key a, m.value a))).head?).map Prod.snd := by
  induction l with
  | nil =>
      intro p hp _ prev fuel hfuel
      obtain ⟨fuel, rfl⟩ := Nat.exists_eq_succ_of_ne_zero (Nat.ne_of_gt hfuel)
      exact ⟨prev, 0, if_pos hp, rfl⟩
  | cons a l ih =>
      intro p hseg hnull prev fuel hfuel
      obtain ⟨rfl, hrest⟩ := hseg
      have hp : p ≠ 0 := fun heq => hnull (heq ▸ List.mem_cons_self)
      obtain ⟨fuel, rfl⟩ := Nat.exists_eq_succ_of_ne_zero (Nat.ne_of_gt (Nat.zero_lt_of_lt hfuel))
      have hstep : m.seek key (fuel + 1) prev p
          = if key = m.key p then some (prev, p) else m.seek key fuel p (m.next p) := if_neg hp
      rw [hstep, List.map_cons]
      by_cases hkey : key = m.key p
      · refine ⟨prev, p, if_pos hkey, ?_⟩
        simp [UnorderedMap.seek, hkey, hp]
      · obtain ⟨prev', entry, hseek, hfound⟩ := ih hrest (fun h => hnull (List.mem_cons_of_mem p h))
          p fuel (Nat.lt_of_succ_lt_succ hfuel)
        refine ⟨prev', entry, (if_neg hkey).trans hseek, ?_⟩
        simpa [UnorderedMap.seek, hkey] using hfound

/-- **The answer of `at`**, with enough steps. -/
def Answers (hash : K → Nat) (m : MapMemory K V) (map : Nat) (key : K) (v : Option V) : Prop :=
  ∃ steps, ∀ fuel, steps ≤ fuel → m.at hash map key fuel = some v

theorem Answers.unique {key : K} {v w : Option V} (h : Answers hash m map key v)
    (h' : Answers hash m map key w) : v = w := by
  obtain ⟨n, hv⟩ := h
  obtain ⟨n', hw⟩ := h'
  exact Option.some.inj ((hv (n + n') (by omega)).symm.trans (hw (n + n') (by omega)))

/-- **A map answers as the table it stands for.** -/
theorem Shows.answers (h : Shows m map t) (hcap : 0 < t.capacity) (key : K) :
    Answers hash m map key (t.at hash key) := by
  obtain ⟨l, hseg, hnull, hl⟩ := h.chains (hash key % t.capacity) (Nat.mod_lt _ hcap)
  have hpos : bucketPos hash m map key = some (hash key % t.capacity) := by
    unfold bucketPos
    rw [h.capacity]
    exact if_neg (Nat.ne_of_gt hcap)
  refine ⟨l.length + 1, fun fuel hfuel => ?_⟩
  obtain ⟨prev, entry, hseek, hfound⟩ := seek_spec key hseg hnull 0 fuel hfuel
  unfold MapMemory.at
  rw [hpos, Option.bind_some, hseek, Option.map_some]
  show some (if entry = 0 then none else some (m.value entry)) = some (t.at hash key)
  rw [hfound, hl]
  unfold UnorderedMap.at
  cases UnorderedMap.seek key (t.chain (hash key % t.capacity)) <;> rfl

end Lookup

/-! ## §3. What an operation touches. -/

section Frame

variable {m m' m'' : MapMemory K V} {S : Nat → Prop} {map other : Nat} {p q entry : Nat}

/-- Null, or an entry of `S`. -/
def NullOr (S : Nat → Prop) (p : Nat) : Prop := p = 0 ∨ S p

/-- The entries of `S` include all that the map reaches. -/
structure Owned (m : MapMemory K V) (map : Nat) (S : Nat → Prop) : Prop where
  heads : ∀ p ∈ m.bucket map, NullOr S p
  nexts : ∀ a, S a → NullOr S (m.next a)

/-- **A change within `S` and one map**: other entries and other maps keep every field, and
the map reaches nothing outside `S` afterwards. -/
structure Within (S : Nat → Prop) (map : Nat) (m m' : MapMemory K V) : Prop where
  key : ∀ a, ¬ S a → m'.key a = m.key a
  value : ∀ a, ¬ S a → m'.value a = m.value a
  next : ∀ a, ¬ S a → m'.next a = m.next a
  bucket : ∀ j, j ≠ map → m'.bucket j = m.bucket j
  capacity : ∀ j, j ≠ map → m'.capacity j = m.capacity j
  size : ∀ j, j ≠ map → m'.size j = m.size j
  owned : Owned m' map S

theorem Owned.within (h : Owned m map S) : Within S map m m :=
  ⟨fun _ _ => rfl, fun _ _ => rfl, fun _ _ => rfl, fun _ _ => rfl, fun _ _ => rfl, fun _ _ => rfl, h⟩

theorem Within.trans (h : Within S map m m') (h' : Within S map m' m'') : Within S map m m'' where
  key a ha := (h'.key a ha).trans (h.key a ha)
  value a ha := (h'.value a ha).trans (h.value a ha)
  next a ha := (h'.next a ha).trans (h.next a ha)
  bucket j hj := (h'.bucket j hj).trans (h.bucket j hj)
  capacity j hj := (h'.capacity j hj).trans (h.capacity j hj)
  size j hj := (h'.size j hj).trans (h.size j hj)
  owned := h'.owned

theorem nullOr_getD {l : List Nat} (hl : ∀ p ∈ l, NullOr S p) (pos : Nat) :
    NullOr S (l.getD pos 0) := by
  by_cases hpos : pos < l.length
  · refine hl _ ?_
    simp [List.getD_eq_getElem?_getD, hpos]
  · left
    simp [List.getD_eq_getElem?_getD, List.getElem?_eq_none (Nat.le_of_not_lt hpos)]

theorem Owned.next (h : Owned m map S) (hp : NullOr S p) (hne : p ≠ 0) : NullOr S (m.next p) :=
  h.nexts p (hp.resolve_left hne)

/-- `entry->next = p`. -/
theorem Owned.setNext (h : Owned m map S) (hentry : S entry) (hp : NullOr S p) :
    Within S map m (m.setNext entry p) := by
  refine ⟨fun _ _ => rfl, fun _ _ => rfl, fun a ha => ?_, fun _ _ => rfl, fun _ _ => rfl,
    fun _ _ => rfl, h.heads, fun a ha => ?_⟩
  · exact update_of_ne (show a ≠ entry from fun heq => ha (heq ▸ hentry)) _ _
  · show NullOr S (update m.next entry p a)
    by_cases heq : a = entry
    · rw [heq, update_self]
      exact hp
    · rw [update_of_ne heq]
      exact h.nexts a ha

/-- `f_bucket[pos] = p`. -/
theorem Owned.setHead (h : Owned m map S) (pos : Nat) (hp : NullOr S p) :
    Within S map m (m.setHead map pos p) := by
  refine ⟨fun _ _ => rfl, fun _ _ => rfl, fun _ _ => rfl,
    fun _ hj => update_of_ne hj _ _, fun _ _ => rfl, fun _ _ => rfl, fun q hq => ?_, h.nexts⟩
  have hmem : q ∈ (m.bucket map).set pos p := by
    simpa [MapMemory.setHead] using hq
  rcases List.mem_or_eq_of_mem_set hmem with hmem | rfl
  · exact h.heads q hmem
  · exact hp

theorem Owned.setSize (h : Owned m map S) (n : Nat) : Within S map m (m.setSize map n) :=
  ⟨fun _ _ => rfl, fun _ _ => rfl, fun _ _ => rfl, fun _ _ => rfl, fun _ _ => rfl,
    fun _ hj => update_of_ne hj _ _, h.heads, h.nexts⟩

theorem Owned.setTable (h : Owned m map S) {bucket : List Nat} (hbucket : ∀ p ∈ bucket, NullOr S p)
    (capacity : Nat) : Within S map m (m.setTable map bucket capacity) := by
  refine ⟨fun _ _ => rfl, fun _ _ => rfl, fun _ _ => rfl,
    fun _ hj => update_of_ne hj _ _, fun _ hj => update_of_ne hj _ _,
    fun _ _ => rfl, fun q hq => ?_, h.nexts⟩
  exact hbucket q (by simpa [MapMemory.setTable] using hq)

theorem Owned.emptyTable (h : Owned m map S) (capacity size : Nat) :
    Within S map m (m.emptyTable map capacity size) := by
  have hbuckets : ∀ p ∈ List.replicate capacity 0, NullOr S p := fun p hp =>
    Or.inl (List.eq_of_mem_replicate hp)
  have htable := h.setTable hbuckets capacity
  exact htable.trans (htable.owned.setSize size)

/-- A new entry joins those that the map owned. -/
theorem Owned.newEntry (h : Owned m map S) (address : Nat) (key : K) (value : V) :
    Within (fun a => S a ∨ a = address) map m (m.newEntry address key value) := by
  have hnot : ∀ a, ¬ (S a ∨ a = address) → a ≠ address := fun a ha heq => ha (Or.inr heq)
  refine ⟨fun a ha => update_of_ne (hnot a ha) _ _,
    fun a ha => update_of_ne (hnot a ha) _ _,
    fun a ha => update_of_ne (hnot a ha) _ _, fun _ _ => rfl, fun _ _ => rfl,
    fun _ _ => rfl, fun p hp => (h.heads p hp).imp_right Or.inl, fun a ha => ?_⟩
  show NullOr _ (update m.next address 0 a)
  by_cases heq : a = address
  · rw [heq, update_self]
    exact Or.inl rfl
  · rw [update_of_ne heq]
    exact (h.nexts a (ha.resolve_right heq)).imp_right Or.inl

section Operations

variable {hash : K → Nat}

theorem Owned.lastOf (h : Owned m map S) {last : Nat} (fuel : Nat) :
    ∀ {p : Nat}, S p → m.lastOf fuel p = some last → S last := by
  induction fuel with
  | zero => exact fun _ hlast => absurd hlast (by simp [MapMemory.lastOf])
  | succ fuel ih =>
      intro p hp hlast
      unfold MapMemory.lastOf at hlast
      split_ifs at hlast with hnull
      · exact Option.some.inj hlast ▸ hp
      · exact ih ((h.nexts p hp).resolve_left hnull) hlast

/-- **One chain of a rehash**: it is relinked within the entries of the map. -/
theorem Owned.relinkLoop {newCap bound : Nat} {newBucket' : List Nat} (fuel : Nat) :
    ∀ {m : MapMemory K V} {e : Nat} {newBucket : List Nat}, Owned m map S → NullOr S e →
      (∀ p ∈ newBucket, NullOr S p) →
      relinkLoop hash newCap bound fuel e m newBucket = some (m', newBucket') →
      Within S map m m' ∧ ∀ p ∈ newBucket', NullOr S p := by
  induction fuel with
  | zero => exact fun _ _ _ hloop => absurd hloop (by simp [MapMemory.relinkLoop])
  | succ fuel ih =>
      intro m e newBucket h he hnew hloop
      unfold MapMemory.relinkLoop at hloop
      dsimp only at hloop
      split_ifs at hloop with hnull hcap hempty
      · -- the end of the chain
        obtain ⟨rfl, rfl⟩ := Prod.mk.inj (Option.some.inj hloop)
        exact ⟨h.within, hnew⟩
      · -- behind the last entry of the bucket
        obtain ⟨last, hlast, hrest⟩ := Option.bind_eq_some_iff.mp hloop
        have hcut := h.setNext (he.resolve_left hnull) (Or.inl rfl)
        have hfirst := (nullOr_getD hnew (hash (m.key e) % newCap)).resolve_left hempty
        have hlink := hcut.owned.setNext (hcut.owned.lastOf bound hfirst hlast) he
        obtain ⟨hwithin, hnew'⟩ := ih hlink.owned (h.next he hnull) hnew hrest
        exact ⟨(hcut.trans hlink).trans hwithin, hnew'⟩
      · -- the first entry of the bucket
        have hcut := h.setNext (he.resolve_left hnull) (Or.inl rfl)
        obtain ⟨hwithin, hnew'⟩ := ih hcut.owned (h.next he hnull) (fun p hp => by
          rcases List.mem_or_eq_of_mem_set hp with hp | rfl
          · exact hnew p hp
          · exact he) hloop
        exact ⟨hcut.trans hwithin, hnew'⟩

theorem Owned.rehash (h : Owned m map S) {fuel : Nat} (hrehash : rehash hash m map fuel = some m') :
    Within S map m m' := by
  obtain ⟨⟨m₁, newBucket⟩, hloop, rfl⟩ := Option.map_eq_some_iff.mp hrehash
  -- the invariant: the new bucket begins with entries of the map only
  have hall := loop_invariant (n := m.capacity map)
    (I := fun _ s => Within S map m s.1 ∧ ∀ p ∈ s.2, NullOr S p)
    ⟨h.within, fun p hp => Or.inl (List.eq_of_mem_replicate hp)⟩
    (fun i s s' _ _ hs hround => by
      obtain ⟨hwithin, hnew⟩ := hs
      obtain ⟨hwithin', hnew'⟩ := hwithin.owned.relinkLoop fuel (nullOr_getD hwithin.owned.heads i)
        hnew (show MapMemory.relinkLoop hash _ _ _ _ _ _ = some (s'.1, s'.2) from hround)
      exact ⟨hwithin.trans hwithin', hnew'⟩)
    _ _ (Nat.le_refl _) hloop
  exact hall.1.trans (hall.1.owned.setTable hall.2 _)

theorem Owned.counted (h : Owned m map S) {fuel : Nat}
    (hcounted : counted hash m map fuel = some m') : Within S map m m' := by
  unfold MapMemory.counted at hcounted
  dsimp only at hcounted
  have hsize := h.setSize ((m.size map + 1) % 2 ^ 64)
  split_ifs at hcounted with hgrow
  · exact hsize.trans (hsize.owned.rehash hcounted)
  · exact Option.some.inj hcounted ▸ hsize

theorem Owned.clear (h : Owned m map S) {fuel : Nat} (hclear : clear m map fuel = some m') :
    Within S map m m' := by
  obtain ⟨_, -, rfl⟩ := Option.map_eq_some_iff.mp hclear
  exact h.emptyTable _ _

variable [DecidableEq K]

/-- What the loop through a chain ends with, and that it has moved on from null. -/
theorem Owned.seek (h : Owned m map S) (key : K) {prev' entry' : Nat} (fuel : Nat) :
    ∀ {prev entry : Nat}, NullOr S prev → NullOr S entry →
      m.seek key fuel prev entry = some (prev', entry') →
      NullOr S prev' ∧ NullOr S entry'
        ∧ (prev ≠ 0 ∨ entry ≠ 0 → prev' ≠ 0 ∨ entry' ≠ 0) := by
  induction fuel with
  | zero => exact fun _ _ hseek => absurd hseek (by simp [MapMemory.seek])
  | succ fuel ih =>
      intro prev entry hprev hentry hseek
      unfold MapMemory.seek at hseek
      split_ifs at hseek with hnull hkey
      · obtain ⟨rfl, rfl⟩ := Prod.mk.inj (Option.some.inj hseek)
        exact ⟨hprev, Or.inl rfl, fun hor => Or.inl (hor.resolve_right (fun hne => hne hnull))⟩
      · obtain ⟨rfl, rfl⟩ := Prod.mk.inj (Option.some.inj hseek)
        exact ⟨hprev, hentry, id⟩
      · obtain ⟨hp, he, hmoved⟩ := ih hentry (h.next hentry hnull) hseek
        exact ⟨hp, he, fun _ => hmoved (Or.inl hnull)⟩

/-- **`insert`** touches the entries of its map and the new one. -/
theorem Owned.insert (h : Owned m map S) {key : K} {value : V} {address fuel : Nat}
    (hinsert : insert hash m map key value address fuel = some m') :
    Within (fun a => S a ∨ a = address) map m m' := by
  have hentry := h.newEntry address key value
  obtain ⟨pos, -, hrest⟩ := Option.bind_eq_some_iff.mp hinsert
  have hnew : NullOr (fun a => S a ∨ a = address) address := Or.inr (Or.inr rfl)
  split_ifs at hrest with hhead
  · -- an empty chain
    have hlink := hentry.owned.setHead pos hnew
    exact (hentry.trans hlink).trans (hlink.owned.counted hrest)
  · obtain ⟨⟨last, entry⟩, hseek, hrest⟩ := Option.bind_eq_some_iff.mp hrest
    obtain ⟨hlast, -, hmoved⟩ := hentry.owned.seek key fuel (Or.inl rfl)
      (nullOr_getD hentry.owned.heads pos) hseek
    dsimp only at hrest
    split_ifs at hrest with hnull
    · -- the chain was not empty, so there is a last entry
      have hne : last ≠ 0 := (hmoved (Or.inr hhead)).resolve_right fun hne => hne hnull
      have hlink := hentry.owned.setNext (hlast.resolve_left hne) hnew
      exact (hentry.trans hlink).trans (hlink.owned.counted hrest)
    · exact Option.some.inj hrest ▸ hentry

/-- **`operator[]`** does when it makes an entry, and touches nothing otherwise. -/
theorem Owned.index [Inhabited V] (h : Owned m map S) {key : K} {address fuel : Nat}
    (hindex : index hash m map key address fuel = some m') :
    Within S map m m' ∨ Within (fun a => S a ∨ a = address) map m m' := by
  have hentry := h.newEntry address key (default : V)
  obtain ⟨pos, -, hrest⟩ := Option.bind_eq_some_iff.mp hindex
  have hnew : NullOr (fun a => S a ∨ a = address) address := Or.inr (Or.inr rfl)
  split_ifs at hrest with hhead
  · exact Or.inr (Option.some.inj hrest ▸ hentry.trans (hentry.owned.setHead pos hnew))
  · obtain ⟨⟨last, entry⟩, hseek, rfl⟩ := Option.map_eq_some_iff.mp hrest
    obtain ⟨hlast, -, hmoved⟩ := h.seek key fuel (Or.inl rfl) (nullOr_getD h.heads pos) hseek
    dsimp only
    split_ifs with hnull
    · have hne : last ≠ 0 := (hmoved (Or.inr hhead)).resolve_right fun hne => hne hnull
      have hlink := hentry.owned.setNext (Or.inl (hlast.resolve_left hne)) hnew
      exact Or.inr (hentry.trans hlink)
    · exact Or.inl h.within

/-- **`erase`** touches the entries of its map. -/
theorem Owned.erase (h : Owned m map S) {key : K} {fuel : Nat}
    (herase : erase hash m map key fuel = some m') : Within S map m m' := by
  obtain ⟨pos, -, hrest⟩ := Option.bind_eq_some_iff.mp herase
  obtain ⟨⟨prev, entry⟩, hseek, rfl⟩ := Option.map_eq_some_iff.mp hrest
  obtain ⟨hprev, hentry, -⟩ := h.seek key fuel (Or.inl rfl) (nullOr_getD h.heads pos) hseek
  dsimp only
  split_ifs with hnull hfirst
  · -- the key is not there
    exact h.within
  · -- it is the first of its chain
    have hlink := h.setHead pos (h.next hentry hnull)
    exact hlink.trans (hlink.owned.setSize _)
  · have hlink := h.setNext (hprev.resolve_left hfirst) (h.next hentry hnull)
    exact hlink.trans (hlink.owned.setSize _)

end Operations

end Frame

/-! ## §4. Maps that share no entry. -/

section Apart

variable {m m' : MapMemory K V} {S : Nat → Prop} {i j this other : Nat}

/-- The entries that a map reaches. -/
inductive Reaches (m : MapMemory K V) (map : Nat) : Nat → Prop
  | head {p : Nat} : p ∈ m.bucket map → p ≠ 0 → Reaches m map p
  | next {a : Nat} : Reaches m map a → m.next a ≠ 0 → Reaches m map (m.next a)

theorem owned_reaches (m : MapMemory K V) (map : Nat) : Owned m map (Reaches m map) where
  heads p hp := (Decidable.em (p = 0)).imp_right (Reaches.head hp)
  nexts a ha := (Decidable.em (m.next a = 0)).imp_right (Reaches.next ha)

theorem Owned.reaches (h : Owned m i S) {a : Nat} (ha : Reaches m i a) : S a := by
  induction ha with
  | head hp hne => exact (h.heads _ hp).resolve_left hne
  | next _ hne ih => exact (h.nexts _ ih).resolve_left hne

/-- **The two maps share no entry.** -/
def Apart (m : MapMemory K V) (i j : Nat) : Prop := ∀ a, Reaches m i a → ¬ Reaches m j a

theorem Apart.symm (h : Apart m i j) : Apart m j i := fun a ha ha' => h a ha' ha

/-- A change that stays off the entries of map `j` keeps what it owns. -/
theorem Within.reaches_other (h : Within S i m m') (hij : j ≠ i)
    (hS : ∀ a, S a → ¬ Reaches m j a) : Owned m' j (Reaches m j) where
  heads p hp := (owned_reaches m j).heads p (h.bucket j hij ▸ hp)
  nexts a ha := by
    rw [h.next a fun hSa => hS a hSa ha]
    exact (owned_reaches m j).nexts a ha

theorem Within.apart (h : Within S i m m') (hij : j ≠ i) (hS : ∀ a, S a → ¬ Reaches m j a) :
    Apart m' i j := fun a ha ha' =>
  hS a (h.owned.reaches ha) ((h.reaches_other hij hS).reaches ha')

section Calls

variable [DecidableEq K] {hash : K → Nat}

/-- The loop through a chain reads entries of its map only. -/
theorem Within.seek_eq (h : Within S i m m') (hS : ∀ a, S a → ¬ Reaches m j a) (key : K)
    (fuel : Nat) : ∀ {prev entry : Nat}, NullOr (Reaches m j) entry →
      m'.seek key fuel prev entry = m.seek key fuel prev entry := by
  induction fuel with
  | zero => exact fun _ => rfl
  | succ fuel ih =>
      intro prev entry hentry
      unfold MapMemory.seek
      by_cases hnull : entry = 0
      · rw [if_pos hnull, if_pos hnull]
      · have hreach := hentry.resolve_left hnull
        have hout : ¬ S entry := fun hSe => hS entry hSe hreach
        rw [if_neg hnull, if_neg hnull, h.key entry hout, h.next entry hout,
          ih ((owned_reaches m j).nexts entry hreach)]

/-- **The map answers as before**: the same counter, and the same answers of `at`. -/
structure SameAnswers (hash : K → Nat) (m m' : MapMemory K V) (map : Nat) : Prop where
  size : m'.size map = m.size map
  answers : ∀ key fuel, m'.at hash map key fuel = m.at hash map key fuel

theorem Within.sameAnswers (h : Within S i m m') (hij : j ≠ i)
    (hS : ∀ a, S a → ¬ Reaches m j a) : SameAnswers hash m m' j := by
  refine ⟨h.size j hij, fun key fuel => ?_⟩
  have hpos : bucketPos hash m' j key = bucketPos hash m j key := by
    unfold bucketPos
    rw [h.capacity j hij]
  unfold MapMemory.at
  rw [hpos]
  refine congrArg (Option.bind _) (funext fun pos => ?_)
  have hhead : m'.head j pos = m.head j pos := by
    unfold MapMemory.head
    rw [h.bucket j hij]
  have hfirst : NullOr (Reaches m j) (m.head j pos) := nullOr_getD (owned_reaches m j).heads pos
  rw [hhead, h.seek_eq hS key fuel hfirst]
  cases hseek : m.seek key fuel 0 (m.head j pos) with
  | none => rfl
  | some found =>
      -- the value that is read is that of an entry of this map
      obtain ⟨-, hentry, -⟩ := (owned_reaches m j).seek key fuel (Or.inl rfl) hfirst hseek
      by_cases hnull : found.2 = 0
      · simp [hnull]
      · have hout : ¬ S found.2 := fun hSe => hS _ hSe (hentry.resolve_left hnull)
        simp [hnull, h.value _ hout]

/-- A call on a map. -/
inductive Call (K V : Type) where
  | insert (key : K) (value : V)
  | index (key : K)
  | erase (key : K)
  | clear
  deriving Repr, DecidableEq

/-- A call, the map it is made on, and the address the allocator answers with. -/
structure Event (K V : Type) where
  map : Nat
  call : Call K V
  address : Nat
  deriving Repr, DecidableEq

variable [Inhabited V]

/-- The memory after a call. -/
def exec (hash : K → Nat) (fuel : Nat) (m : MapMemory K V) (e : Event K V) :
    Option (MapMemory K V) :=
  match e.call with
  | .insert key value => m.insert hash e.map key value e.address fuel
  | .index key => m.index hash e.map key e.address fuel
  | .erase key => m.erase hash e.map key fuel
  | .clear => m.clear e.map fuel

/-- The call returns, and leaves `m'`. -/
def Step (hash : K → Nat) (m : MapMemory K V) (e : Event K V) (m' : MapMemory K V) : Prop :=
  ∃ fuel, exec hash fuel m e = some m'

/-- A call on one of the two maps; the allocator answers with an entry of neither. -/
def Proper (this other : Nat) (_ : List (Event K V)) (m : MapMemory K V) (e : Event K V) : Prop :=
  (e.map = this ∨ e.map = other) ∧ ¬ Reaches m this e.address ∧ ¬ Reaches m other e.address

/-- **What a call touches**: the entries of its map, and the new one if it makes one. -/
theorem Step.within {e : Event K V} (hst : Step hash m e m') :
    ∃ S, Within S e.map m m' ∧ ∀ a, S a → Reaches m e.map a ∨ a = e.address := by
  obtain ⟨fuel, hexec⟩ := hst
  have howned := owned_reaches m e.map
  unfold exec at hexec
  split at hexec
  · exact ⟨_, howned.insert hexec, fun _ ha => ha⟩
  · rcases howned.index hexec with hwithin | hwithin
    · exact ⟨_, hwithin, fun _ ha => Or.inl ha⟩
    · exact ⟨_, hwithin, fun _ ha => ha⟩
  · exact ⟨_, howned.erase hexec, fun _ ha => Or.inl ha⟩
  · exact ⟨_, howned.clear hexec, fun _ ha => Or.inl ha⟩

/-- **One call on one of two maps that share no entry**: the other one answers as before,
and they still share none. -/
theorem Step.apart {e : Event K V} (hst : Step hash m e m') (hapart : Apart m e.map j)
    (hij : j ≠ e.map) (hfresh : ¬ Reaches m j e.address) :
    SameAnswers hash m m' j ∧ Apart m' e.map j := by
  obtain ⟨S, hwithin, hS⟩ := hst.within
  have hout : ∀ a, S a → ¬ Reaches m j a := fun a ha hreach => by
    rcases hS a ha with ha | rfl
    · exact hapart a ha hreach
    · exact hfresh hreach
  exact ⟨hwithin.sameAnswers hij hout, hwithin.apart hij hout⟩

/-- **Later changes to one of the maps do not affect the other**: in every run of calls on
the two, a call on one leaves the answers of the other as they are. -/
def Independent (hash : K → Nat) (m : MapMemory K V) (this other : Nat) : Prop :=
  ∀ hist s, GuardedRun (Step hash) (Proper this other) m hist s → ∀ e s',
    Proper this other hist s e → Step hash s e s' →
    ∀ j, j = this ∨ j = other → j ≠ e.map → SameAnswers hash s s' j

theorem apart_run {hist : List (Event K V)} {s : MapMemory K V} (hne : this ≠ other)
    (hapart : Apart m this other)
    (hrun : GuardedRun (Step hash) (Proper this other) m hist s) : Apart s this other := by
  refine hrun.historyInvariant (fun _ s => Apart s this other) hapart ?_
  intro hist s e s' hs ⟨hmap, hthis, hother⟩ hst
  rcases hmap with hmap | hmap
  · rw [← hmap] at hs hne ⊢
    exact (hst.apart hs hne.symm hother).2
  · rw [← hmap] at hs hne ⊢
    exact (hst.apart hs.symm hne hthis).2.symm

/-- **Maps that share no entry are independent.** -/
theorem Apart.independent (hapart : this ≠ other → Apart m this other) :
    Independent hash m this other := by
  intro hist s hrun e s' ⟨hmap, hthis, hother⟩ hst j hj hne
  have hboth : this ≠ other := by
    rintro rfl
    rcases hmap with hmap | hmap <;> rcases hj with hj | hj <;> exact hne (hj.trans hmap.symm)
  have hs := apart_run hboth (hapart hboth) hrun
  rcases hmap with hmap | hmap
  · have hj' : j = other := hj.resolve_left fun hj => hne (hj.trans hmap.symm)
    subst hj'
    exact (hst.apart (hmap ▸ hs) hne hother).1
  · have hj' : j = this := hj.resolve_right fun hj => hne (hj.trans hmap.symm)
    subst hj'
    exact (hst.apart (hmap ▸ hs.symm) hne hthis).1

end Calls

end Apart

/-! ## §5. Copies. -/

section Copies

variable {m m' : MapMemory K V} {this other map : Nat} {t : UnorderedMap K V}

/-- The two operations that copy. -/
inductive Copying where
  | construct
  | assign
  deriving Repr, DecidableEq

/-- `this` is made a copy of `other`. -/
def copy (m : MapMemory K V) (alloc : Nat → Nat) (fuel this other : Nat) :
    Copying → Option (MapMemory K V)
  | .construct => m.copyConstruct this other alloc fuel
  | .assign => m.copyAssign this other alloc fuel

/-- A new object is not its own source; one that is assigned to is a map. -/
def Copying.Proper (m : MapMemory K V) (this other : Nat) : Copying → Prop
  | .construct => this ≠ other
  | .assign => ∃ t, Shows m this t

theorem emptyTable_head (m : MapMemory K V) (this capacity size pos : Nat) :
    (m.emptyTable this capacity size).head this pos = 0 := by
  simp only [emptyTable, setTable, setSize, head, update_self, List.getD_eq_getElem?_getD,
    List.getElem?_replicate]
  split <;> rfl

/-- **The copy loop skips every bucket**, because those of the copy are null. -/
theorem copyBuckets_emptyTable (m : MapMemory K V) (alloc : Nat → Nat)
    (this other fuel capacity size : Nat) :
    (m.emptyTable this capacity size).copyBuckets this other alloc fuel
      = some (m.emptyTable this capacity size) := by
  have hloop : ∀ buckets : List Nat, buckets.foldlM (copyBucket alloc this other fuel)
      (0, m.emptyTable this capacity size) = some (0, m.emptyTable this capacity size) := by
    intro buckets
    induction buckets with
    | nil => rfl
    | cons i buckets ih =>
        have hskip : copyBucket alloc this other fuel (0, m.emptyTable this capacity size) i
            = some (0, m.emptyTable this capacity size) :=
          if_pos (emptyTable_head m this capacity size i)
        rw [List.foldlM_cons, hskip]
        exact ih
  unfold copyBuckets
  rw [hloop]
  rfl

theorem freeLoop_some {l : List Nat} : ∀ {p : Nat}, Seg m.next p l 0 → 0 ∉ l → ∀ fuel,
    l.length < fuel → m.freeLoop fuel p = some () := by
  induction l with
  | nil =>
      intro p hp _ fuel hfuel
      obtain ⟨fuel, rfl⟩ := Nat.exists_eq_succ_of_ne_zero (Nat.ne_of_gt hfuel)
      exact if_pos hp
  | cons a l ih =>
      intro p hseg hnull fuel hfuel
      obtain ⟨rfl, hrest⟩ := hseg
      obtain ⟨fuel, rfl⟩ := Nat.exists_eq_succ_of_ne_zero (Nat.ne_of_gt (Nat.zero_lt_of_lt hfuel))
      have hp : p ≠ 0 := fun heq => hnull (heq ▸ List.mem_cons_self)
      have hstep : m.freeLoop (fuel + 1) p = m.freeLoop fuel (m.next p) := if_neg hp
      exact hstep.trans (ih hrest (fun h => hnull (List.mem_cons_of_mem p h)) fuel
        (Nat.lt_of_succ_lt_succ hfuel))

/-- **`clear`** returns: the chains of a map end. -/
theorem Shows.clear (h : Shows m map t) :
    ∃ steps, ∀ fuel, steps ≤ fuel →
      m.clear map fuel = some (m.emptyTable map UnorderedMap.initialBucketSize 0) := by
  have hloops : ∀ n, n ≤ t.capacity → ∃ steps, ∀ fuel, steps ≤ fuel →
      (List.range n).foldlM (fun _ i => m.freeLoop fuel (m.head map i)) () = some () := by
    intro n
    induction n with
    | zero => exact fun _ => ⟨0, fun _ _ => rfl⟩
    | succ n ih =>
        intro hn
        obtain ⟨steps, hsteps⟩ := ih (Nat.le_of_succ_le hn)
        obtain ⟨l, hseg, hnull, -⟩ := h.chains n hn
        refine ⟨steps + l.length + 1, fun fuel hfuel => foldlM_range_succ.mpr ⟨(), ?_, ?_⟩⟩
        · exact hsteps fuel (by omega)
        · exact freeLoop_some hseg hnull fuel (by omega)
  obtain ⟨steps, hsteps⟩ := hloops (m.capacity map) (Nat.le_of_eq h.capacity)
  refine ⟨steps, fun fuel hfuel => ?_⟩
  unfold MapMemory.clear
  rw [hsteps fuel hfuel]
  rfl

theorem emptyTable_reaches (m : MapMemory K V) (this capacity size a : Nat) :
    ¬ Reaches (m.emptyTable this capacity size) this a := by
  have hnone : Owned (m.emptyTable this capacity size) this fun _ => False := by
    refine ⟨fun p hp => Or.inl ?_, fun _ hfalse => hfalse.elim⟩
    have hmem : p ∈ List.replicate capacity 0 := by
      simpa [emptyTable, setTable, setSize] using hp
    exact List.eq_of_mem_replicate hmem
  exact fun ha => hnone.reaches ha

theorem emptyTable_fields (m : MapMemory K V) (this capacity size : Nat) :
    (m.emptyTable this capacity size).capacity this = capacity
      ∧ (m.emptyTable this capacity size).size this = size :=
  ⟨update_self _ _ _, update_self _ _ _⟩

theorem emptyTable_other (m : MapMemory K V) {this other : Nat} (hne : this ≠ other)
    (capacity size : Nat) :
    (m.emptyTable this capacity size).capacity other = m.capacity other
      ∧ (m.emptyTable this capacity size).size other = m.size other :=
  ⟨update_of_ne hne.symm _ _, update_of_ne hne.symm _ _⟩

/-- What a copy leaves in `this`: null pointers only, and a counter. -/
structure Emptied (m : MapMemory K V) (this size : Nat) : Prop where
  head : ∀ pos, m.head this pos = 0
  reaches : ∀ a, ¬ Reaches m this a
  capacity : 0 < m.capacity this
  size : m.size this = size

theorem emptied_emptyTable (m : MapMemory K V) (this size : Nat) {capacity : Nat}
    (hcap : 0 < capacity) : Emptied (m.emptyTable this capacity size) this size := by
  obtain ⟨hcapacity, hsize⟩ := emptyTable_fields m this capacity size
  exact ⟨emptyTable_head m this capacity size, emptyTable_reaches m this capacity size,
    by rw [hcapacity]; exact hcap, hsize⟩

/-- **What both operations make**: a map without entries, with the counter of the source.
An assignment of a map to itself has cleared the counter before. -/
theorem copy_shows (how : Copying) (hproper : how.Proper m this other) (hsrc : Shows m other t)
    (hcap : 0 < t.capacity) (alloc : Nat → Nat) :
    ∃ m' steps, (∀ fuel, steps ≤ fuel → m.copy alloc fuel this other how = some m')
      ∧ Emptied m' this (if this = other then 0 else t.size) := by
  rw [← hsrc.capacity] at hcap
  cases how with
  | construct =>
      refine ⟨_, 0, fun fuel _ => copyBuckets_emptyTable _ alloc this other fuel _ _, ?_⟩
      rw [if_neg hproper, ← hsrc.size]
      exact emptied_emptyTable m this _ hcap
  | assign =>
      obtain ⟨t₀, hthis⟩ := hproper
      obtain ⟨steps, hclear⟩ := hthis.clear
      let m₁ := m.emptyTable this UnorderedMap.initialBucketSize 0
      refine ⟨m₁.emptyTable this (m₁.capacity other) (m₁.size other), steps,
        fun fuel hfuel => ?_, ?_⟩
      · show (m.clear this fuel).bind _ = _
        rw [hclear fuel hfuel]
        exact copyBuckets_emptyTable _ alloc this other fuel _ _
      · by_cases hself : this = other
        · subst hself
          obtain ⟨hcapacity, hsize⟩ := emptyTable_fields m this UnorderedMap.initialBucketSize 0
          rw [if_pos rfl, show m₁.size this = 0 from hsize]
          exact emptied_emptyTable _ this 0 (by rw [show m₁.capacity this = 64 from hcapacity]; decide)
        · obtain ⟨hcapacity, hsize⟩ :=
            emptyTable_other m hself UnorderedMap.initialBucketSize 0
          rw [if_neg hself, ← hsrc.size, ← hsize]
          exact emptied_emptyTable _ this _ (by rw [show m₁.capacity other = _ from hcapacity]; exact hcap)

variable [DecidableEq K] {hash : K → Nat}

theorem Emptied.answers {size : Nat} (h : Emptied m this size) (key : K) :
    Answers hash m this key none := by
  refine ⟨1, fun fuel hfuel => ?_⟩
  obtain ⟨fuel, rfl⟩ := Nat.exists_eq_succ_of_ne_zero (Nat.ne_of_gt hfuel)
  unfold MapMemory.at bucketPos
  rw [if_neg (Nat.ne_of_gt h.capacity), Option.bind_some, h.head]
  rfl

/-- **`this` is a copy of the source**: the same size, and the same answers of `at`. -/
structure CopyOf (hash : K → Nat) (m m' : MapMemory K V) (this other : Nat) : Prop where
  size : m'.size this = m.size other
  answers : ∀ key v, Answers hash m other key v ↔ Answers hash m' this key v

/-- A map without entries is a copy of those that hold no key. -/
theorem Emptied.copyOf_iff (hsrc : Shows m other t) (hwf : UnorderedMap.WF hash t)
    (h : Emptied m' this (if this = other then 0 else t.size)) :
    CopyOf hash m m' this other ↔ t.size = 0 := by
  constructor
  · intro hcopy
    rw [hwf.size_eq, List.length_eq_zero_iff, List.eq_nil_iff_forall_not_mem]
    intro e he
    have hfound := (UnorderedMap.at_eq_some_iff hwf e.1 e.2).mpr he
    have hanswer := (hcopy.answers e.1 _).mp (hsrc.answers hwf.capacity_pos e.1)
    rw [hfound] at hanswer
    exact absurd (hanswer.unique (h.answers e.1)) (by simp)
  · intro hsize
    have hnone : ∀ key, t.at hash key = none := fun key => by
      rw [hwf.size_eq, List.length_eq_zero_iff] at hsize
      rw [UnorderedMap.at_eq_none_iff hwf, hsize]
      exact fun ⟨v, hv⟩ => absurd hv List.not_mem_nil
    refine ⟨?_, fun key v => ?_⟩
    · rw [h.size, hsrc.size, hsize, ite_self]
    · have hanswer : Answers hash m other key none := by
        rw [← hnone key]
        exact hsrc.answers hwf.capacity_pos key
      constructor
      · intro hv
        rw [hv.unique hanswer]
        exact h.answers key
      · intro hv
        rw [hv.unique (h.answers key)]
        exact hanswer

/-- **WHEN A COPY ANSWERS AS ITS SOURCE.**  Both operations return, for a source that
stands for any well-formed table (as those that calls on a new map lead to do), and what
they make has the size and the answers of the source, and is independent of it, exactly
when the source holds no entry. -/
theorem map_copy_iff [Inhabited V] (how : Copying) (hproper : how.Proper m this other)
    (hsrc : Shows m other t) (hwf : UnorderedMap.WF hash t) (alloc : Nat → Nat) :
    ∃ m' steps, (∀ fuel, steps ≤ fuel → m.copy alloc fuel this other how = some m')
      ∧ (CopyOf hash m m' this other ∧ Independent hash m' this other ↔ t.size = 0) := by
  obtain ⟨m', steps, hcopy, hempty⟩ := copy_shows how hproper hsrc hwf.capacity_pos alloc
  have hindependent : Independent hash m' this other :=
    Apart.independent fun _ a ha => absurd ha (hempty.reaches a)
  refine ⟨m', steps, hcopy, ?_⟩
  rw [← hempty.copyOf_iff hsrc hwf]
  exact ⟨fun h => h.1, fun h => ⟨h, hindependent⟩⟩

/-- Maps of two buckets, with one entry in the memory. -/
def twoBuckets (bucket : List Nat) (size : Nat) : MapMemory Nat Nat where
  key _ := 5
  value _ := 7
  next _ := 0
  bucket _ := bucket
  capacity _ := 2
  size _ := size

/-- The table with the entry, as `insert` makes it. -/
def oneKey : UnorderedMap Nat Nat :=
  ((UnorderedMap.ofCapacity 2 : UnorderedMap Nat Nat).insert (fun key => key) 5 7).2

theorem shows_oneKey : Shows (twoBuckets [0, 1] 1) 0 oneKey := by
  refine ⟨rfl, rfl, fun pos hpos => ?_⟩
  rcases Nat.le_one_iff_eq_zero_or_eq_one.mp (Nat.le_of_lt_succ hpos) with rfl | rfl
  · exact ⟨[], rfl, by simp, rfl⟩
  · exact ⟨[1], ⟨rfl, rfl⟩, by simp, rfl⟩

theorem shows_noKey :
    Shows (twoBuckets [0, 0] 0) 0 (UnorderedMap.ofCapacity 2 : UnorderedMap Nat Nat) := by
  refine ⟨rfl, rfl, fun pos hpos => ?_⟩
  rcases Nat.le_one_iff_eq_zero_or_eq_one.mp (Nat.le_of_lt_succ hpos) with rfl | rfl
  · exact ⟨[], rfl, by simp, rfl⟩
  · exact ⟨[], rfl, by simp, rfl⟩

/-- A map without entries is copied. -/
theorem map_copy_of_empty :
    ∃ m' steps, (∀ fuel, steps ≤ fuel →
        (twoBuckets [0, 0] 0).copy (fun k => k + 2) fuel 1 0 .construct = some m')
      ∧ CopyOf (fun key => key) (twoBuckets [0, 0] 0) m' 1 0
      ∧ Independent (fun key => key) m' 1 0 := by
  have hproper : Copying.Proper (twoBuckets [0, 0] 0) 1 0 .construct := Nat.one_ne_zero
  obtain ⟨m', steps, hcopy, hiff⟩ := map_copy_iff .construct hproper shows_noKey
    (UnorderedMap.wf_ofCapacity (fun key => key) (by decide)).1 fun k => k + 2
  exact ⟨m', steps, hcopy, hiff.mpr rfl⟩

/-- **The copy of a map with one key** does not find it. -/
theorem map_copy_loses_key :
    ¬ ∀ (m : MapMemory Nat Nat) (t : UnorderedMap Nat Nat) (hash alloc : Nat → Nat) (how : Copying)
        (this other : Nat), how.Proper m this other → Shows m other t → UnorderedMap.WF hash t →
        ∃ m' steps, (∀ fuel, steps ≤ fuel → m.copy alloc fuel this other how = some m')
          ∧ CopyOf hash m m' this other ∧ Independent hash m' this other := by
  intro hclaim
  have hwf : UnorderedMap.WF (fun key => key) oneKey :=
    (UnorderedMap.wf_ofCapacity (fun key => key) (by decide)).1.insert 5 7
  have hproper : Copying.Proper (twoBuckets [0, 1] 1) 1 0 .construct := Nat.one_ne_zero
  obtain ⟨m', steps, hreturns, hcopyOf, -⟩ :=
    hclaim _ _ (fun key => key) (fun k => k + 2) .construct 1 0 hproper shows_oneKey hwf
  obtain ⟨m'', steps', hcopy, hempty⟩ :=
    copy_shows .construct hproper shows_oneKey (by decide) fun k => k + 2
  have hsame : some m' = some m'' :=
    (hreturns (steps + steps') (by omega)).symm.trans (hcopy (steps + steps') (by omega))
  rw [Option.some.inj hsame] at hcopyOf
  exact absurd ((hempty.copyOf_iff shows_oneKey hwf).mp hcopyOf) (by decide)

end Copies

end MapMemory

end MierOS.Stdlib
