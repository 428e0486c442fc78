/-
  MierOS.Stdlib.UnorderedMap — the chained hash table of
  `kernel/std/include/unordered_map.hpp`.

  A table is a vector of `f_capacity` chains and a counter.  A chain is the
  list of its entries from the head along `next`; an entry pointer is the part
  of a chain that starts at it, the null pointer the empty list.  The hash
  function is arbitrary and `Pred` is equality.

  Main results: `WF`, `unorderedMap_refines_finmap`.
-/
import MierOS.Lib.Buckets
import Mathlib.Data.Finmap

namespace MierOS.Stdlib

open Lib.Buckets

/-! ## §1. The table. -/

/-- `UnorderedMap<K, V>`. -/
structure UnorderedMap (K V : Type) where
  bucket : List (List (K × V))
  capacity : Nat
  size : Nat
  deriving Repr, DecidableEq

namespace UnorderedMap

variable {K V : Type}

/-- `initial_bucket_size`. -/
def initialBucketSize : Nat := 64

/-- `UnorderedMap(initial_capacity)`. -/
def ofCapacity (initialCapacity : Nat) : UnorderedMap K V :=
  { bucket := List.replicate initialCapacity [], capacity := initialCapacity, size := 0 }

/-- The chain that starts at `f_bucket[pos]`. -/
def chain (m : UnorderedMap K V) (pos : Nat) : List (K × V) := m.bucket.getD pos []

/-- All entries, bucket by bucket. -/
def entries (m : UnorderedMap K V) : List (K × V) := (List.range m.capacity).flatMap m.chain

/-- `UnorderedMap::iterator`: a bucket index and the entry pointer. -/
structure Iterator (K V : Type) where
  index : Nat
  entry : List (K × V)
  deriving Repr, DecidableEq

/-- `end()`. -/
def endIter (m : UnorderedMap K V) : Iterator K V := ⟨m.capacity, []⟩

section Operations

variable [DecidableEq K] (hash : K → Nat)

/-- The loop `for(entry = head; entry != 0; entry = entry->next)` of `find` and
`at`: the entry pointer at which the key matches. -/
def seek (key : K) : List (K × V) → List (K × V)
  | [] => []
  | e :: rest => if key = e.1 then e :: rest else seek key rest

/-- `find(key)`. -/
def find (m : UnorderedMap K V) (key : K) : Iterator K V :=
  let bucketPos := hash key % m.capacity
  match seek key (m.chain bucketPos) with
  | [] => m.endIter
  | e :: rest => ⟨bucketPos, e :: rest⟩

/-- `at(key)`. -/
def «at» (m : UnorderedMap K V) (key : K) : Option V :=
  match seek key (m.chain (hash key % m.capacity)) with
  | [] => none
  | e :: _ => some e.2

/-- The capacity `rehash` grows to: the entry count rounded up to a multiple
of 64. -/
def rehashCapacity (size : Nat) : Nat :=
  if size &&& 0x3F ≠ 0 then (size ||| 0x3F) + 1 else size

/-- `rehash()`: relink every entry, in iteration order, at the end of its chain
in the new table. -/
def rehash (m : UnorderedMap K V) : UnorderedMap K V :=
  let newCap := rehashCapacity m.size
  { bucket := distribute (fun e => hash e.1 % newCap) (List.replicate newCap []) m.entries
    capacity := newCap
    size := m.size }

/-- `insert({key, value})`. -/
def insert (m : UnorderedMap K V) (key : K) (value : V) : Bool × UnorderedMap K V :=
  let bucketPos := hash key % m.capacity
  let c := m.chain bucketPos
  if c.any (fun e => key = e.1) then (false, m)
  else
    let m' : UnorderedMap K V :=
      { m with bucket := m.bucket.set bucketPos (c ++ [(key, value)]), size := m.size + 1 }
    (true, if m'.size ≥ m'.capacity * 2 then rehash hash m' else m')

/-- `erase(key)`. -/
def erase (m : UnorderedMap K V) (key : K) : UnorderedMap K V :=
  let bucketPos := hash key % m.capacity
  let c := m.chain bucketPos
  if c.any (fun e => key = e.1) then
    { m with bucket := m.bucket.set bucketPos (c.eraseP (fun e => key = e.1)), size := m.size - 1 }
  else m

/-- `clear()`. -/
def clear (_ : UnorderedMap K V) : UnorderedMap K V := ofCapacity initialBucketSize

end Operations

/-! ## §2. Well-formed tables. -/

/-- The representation invariant. -/
structure WF (hash : K → Nat) (m : UnorderedMap K V) : Prop where
  capacity_pos : 0 < m.capacity
  length_eq : m.bucket.length = m.capacity
  placed : ∀ i, ∀ e ∈ m.chain i, hash e.1 % m.capacity = i
  nodup : (m.entries.map Prod.fst).Nodup
  size_eq : m.size = m.entries.length

theorem entries_eq_flatten {m : UnorderedMap K V} (h : m.bucket.length = m.capacity) :
    m.entries = m.bucket.flatten := by
  unfold entries chain
  rw [List.flatMap_def, ← h]
  congr 1
  apply List.ext_getElem
  · simp
  · intro i h1 h2
    simp only [List.getElem_map, List.getElem_range]
    rw [List.getD_eq_getElem?_getD, List.getElem?_eq_getElem h2]
    rfl

section Lookup

variable {hash : K → Nat} {m : UnorderedMap K V}

/-- An entry can only be found in the chain of its own hash. -/
theorem WF.mem_entries_iff (h : WF hash m) (e : K × V) :
    e ∈ m.entries ↔ e ∈ m.chain (hash e.1 % m.capacity) := by
  rw [entries_eq_flatten h.length_eq, mem_flatten_iff]
  constructor
  · intro ⟨i, _, he⟩
    have hi : hash e.1 % m.capacity = i := h.placed i e he
    rw [hi]
    exact he
  · intro he
    exact ⟨_, by rw [h.length_eq]; exact Nat.mod_lt _ h.capacity_pos, he⟩

theorem WF.unique (h : WF hash m) {k : K} {v w : V} (hv : (k, v) ∈ m.entries)
    (hw : (k, w) ∈ m.entries) : v = w := by
  have := List.inj_on_of_nodup_map h.nodup hv hw rfl
  exact congrArg Prod.snd this

variable [DecidableEq K]

theorem any_chain_iff (h : WF hash m) (k : K) :
    (m.chain (hash k % m.capacity)).any (fun e => k = e.1) = true ↔ ∃ v, (k, v) ∈ m.entries := by
  rw [List.any_eq_true]
  constructor
  · intro ⟨⟨k', v⟩, he, hk⟩
    have hk' : k = k' := by simpa using hk
    subst hk'
    exact ⟨v, (h.mem_entries_iff _).mpr he⟩
  · intro ⟨v, hv⟩
    exact ⟨(k, v), (h.mem_entries_iff _).mp hv, by simp⟩

theorem seek_eq_nil {k : K} {c : List (K × V)} (h : seek k c = []) :
    ∀ e ∈ c, k ≠ e.1 := by
  induction c with
  | nil => simp
  | cons e c ih =>
      unfold seek at h
      split at h
      · exact absurd h (by simp)
      · rename_i hne
        intro e' he'
        rcases List.mem_cons.mp he' with rfl | he'
        · exact hne
        · exact ih h e' he'

theorem seek_eq_cons {k : K} {c rest : List (K × V)} {e : K × V}
    (h : seek k c = e :: rest) : e ∈ c ∧ k = e.1 := by
  induction c with
  | nil => exact absurd h (by simp [seek])
  | cons e' c ih =>
      unfold seek at h
      split at h
      · rename_i heq
        injection h with h _
        subst h
        exact ⟨List.mem_cons_self, heq⟩
      · obtain ⟨hmem, hk⟩ := ih h
        exact ⟨List.mem_cons_of_mem _ hmem, hk⟩

/-- **`at` finds exactly the entry of the key.** -/
theorem at_eq_some_iff (h : WF hash m) (k : K) (v : V) :
    m.at hash k = some v ↔ (k, v) ∈ m.entries := by
  unfold «at»
  cases hs : seek k (m.chain (hash k % m.capacity)) with
  | nil =>
      constructor
      · intro hn; exact absurd hn (by simp)
      · intro hv
        exact absurd rfl (seek_eq_nil hs _ ((h.mem_entries_iff _).mp hv))
  | cons e rest =>
      obtain ⟨k', v'⟩ := e
      obtain ⟨hmem, rfl⟩ := seek_eq_cons hs
      have hv' : (k, v') ∈ m.entries := (h.mem_entries_iff _).mpr hmem
      constructor
      · intro hv
        injection hv with hv
        exact hv ▸ hv'
      · intro hv
        exact congrArg some (h.unique hv' hv)

/-- `find` stops at the entry `at` reads. -/
theorem find_entry_eq_at (m : UnorderedMap K V) (k : K) :
    (m.find hash k).entry.head?.map Prod.snd = m.at hash k := by
  unfold find «at»
  cases hs : seek k (m.chain (hash k % m.capacity)) with
  | nil => simp only [hs, endIter]; rfl
  | cons e rest => simp only [hs]; rfl

/-- `find` reports `end()` for exactly the keys `at` does not find. -/
theorem find_isEmpty_iff (m : UnorderedMap K V) (k : K) :
    (m.find hash k).entry.isEmpty = true ↔ m.at hash k = none := by
  rw [← find_entry_eq_at]
  cases hentry : (m.find hash k).entry with
  | nil => simp
  | cons e rest => simp

/-- The test `find(key) == end()`. -/
theorem find_eq_end_iff (m : UnorderedMap K V) (k : K) :
    m.find hash k = m.endIter ↔ m.at hash k = none := by
  rw [← find_isEmpty_iff]
  unfold find
  cases hs : seek k (m.chain (hash k % m.capacity)) with
  | nil => simp [hs, endIter]
  | cons e rest => simp [hs, endIter]

end Lookup

/-! ## §3. The operations keep the table well formed. -/

section Preservation

variable {hash : K → Nat} {m : UnorderedMap K V}

theorem wf_ofCapacity (hash : K → Nat) {c : Nat} (hc : 0 < c) :
    WF hash (ofCapacity c : UnorderedMap K V) ∧ (ofCapacity c : UnorderedMap K V).entries = [] := by
  have hlen : (ofCapacity c : UnorderedMap K V).bucket.length
      = (ofCapacity c : UnorderedMap K V).capacity := by simp [ofCapacity]
  have hempty : (ofCapacity c : UnorderedMap K V).entries = [] := by
    rw [entries_eq_flatten hlen]
    simp [ofCapacity, List.flatten_replicate_nil]
  refine ⟨⟨hc, hlen, ?_, ?_, ?_⟩, hempty⟩
  · intro i e he
    simp [ofCapacity, chain, List.getD_eq_getElem?_getD, List.getElem?_replicate] at he
    split at he <;> simp at he
  · rw [hempty]; simp
  · rw [hempty]; rfl

/-- A table holding a permutation of the entries of a well-formed one, each in
its chain, with the right counter, is well formed. -/
theorem WF.of_perm {m' : UnorderedMap K V} {es : List (K × V)} (hcap : 0 < m'.capacity)
    (hlen : m'.bucket.length = m'.capacity)
    (hplaced : ∀ i, ∀ e ∈ m'.chain i, hash e.1 % m'.capacity = i)
    (hperm : m'.entries.Perm es) (hnodup : (es.map Prod.fst).Nodup)
    (hsize : m'.size = es.length) : WF hash m' :=
  ⟨hcap, hlen, hplaced, (hperm.map Prod.fst).nodup_iff.mpr hnodup, by rw [hsize, hperm.length_eq]⟩

theorem rehashCapacity_pos {size : Nat} (h : 0 < size) : 0 < rehashCapacity size := by
  unfold rehashCapacity
  split <;> omega

/-- **Rehash moves entries between chains and nothing else.** -/
theorem wf_rehash (h : WF hash m) (hpos : 0 < m.size) :
    WF hash (rehash hash m) ∧ (rehash hash m).entries.Perm m.entries := by
  have hcap : 0 < rehashCapacity m.size := rehashCapacity_pos hpos
  have hlen : (rehash hash m).bucket.length = (rehash hash m).capacity := by
    simp [rehash, distribute_length]
  have hperm : (rehash hash m).entries.Perm m.entries := by
    rw [entries_eq_flatten hlen]
    have hd := distribute_flatten_perm (fun e : K × V => hash e.1 % rehashCapacity m.size)
      m.entries (List.replicate (rehashCapacity m.size) [])
      (fun e _ => by rw [List.length_replicate]; exact Nat.mod_lt _ hcap)
    rw [List.flatten_replicate_nil, List.nil_append] at hd
    exact hd
  refine ⟨WF.of_perm hcap hlen ?_ hperm h.nodup h.size_eq, hperm⟩
  refine distribute_placed (fun e : K × V => hash e.1 % rehashCapacity m.size) m.entries _ ?_
  intro i e he
  simp [List.getD_eq_getElem?_getD, List.getElem?_replicate] at he
  split at he <;> simp at he

/-- The table right after a new entry is linked at the end of its chain, before the size
test of `insert`. -/
def link (hash : K → Nat) (m : UnorderedMap K V) (key : K) (value : V) : UnorderedMap K V :=
  { m with
    bucket := m.bucket.set (hash key % m.capacity)
      (m.chain (hash key % m.capacity) ++ [(key, value)])
    size := m.size + 1 }

/-- **Linking the entry of an absent key** adds exactly this entry. -/
theorem wf_link (h : WF hash m) {k : K} {v : V} (hk : ¬ ∃ w, (k, w) ∈ m.entries) :
    WF hash (m.link hash k v) ∧ (m.link hash k v).entries.Perm ((k, v) :: m.entries) := by
  have hpos : hash k % m.capacity < m.bucket.length := by
    rw [h.length_eq]; exact Nat.mod_lt _ h.capacity_pos
  have hlen : (m.link hash k v).bucket.length = (m.link hash k v).capacity := by
    simp [link, h.length_eq]
  have hperm : (m.link hash k v).entries.Perm ((k, v) :: m.entries) := by
    rw [entries_eq_flatten hlen, entries_eq_flatten h.length_eq]
    exact (flatten_append_perm m.bucket _ [(k, v)] hpos).trans List.perm_append_comm
  have hnodup : (((k, v) :: m.entries).map Prod.fst).Nodup := by
    rw [List.map_cons, List.nodup_cons]
    refine ⟨fun hmem => hk ?_, h.nodup⟩
    obtain ⟨⟨k', w⟩, hw, rfl⟩ := List.mem_map.mp hmem
    exact ⟨w, hw⟩
  refine ⟨WF.of_perm h.capacity_pos hlen ?_ hperm hnodup (by simp [link, h.size_eq]), hperm⟩
  intro i e he
  by_cases hi : hash k % m.capacity = i
  · subst hi
    have hself := getD_set_self m.bucket (hash k % m.capacity)
      (m.chain (hash k % m.capacity) ++ [(k, v)]) hpos
    have he' : e ∈ m.chain (hash k % m.capacity) ++ [(k, v)] := hself ▸ he
    rcases List.mem_append.mp he' with he' | he'
    · exact h.placed _ e he'
    · rw [List.mem_singleton.mp he']
      rfl
  · apply h.placed i e
    have he' : e ∈ (m.bucket.set (hash k % m.capacity)
        (m.chain (hash k % m.capacity) ++ [(k, v)])).getD i [] := he
    rw [getD_set_ne _ _ hi] at he'
    exact he'

variable [DecidableEq K]

/-- Inserting a key that is present changes nothing. -/
theorem insert_of_mem (h : WF hash m) {k : K} {v : V} (hk : ∃ w, (k, w) ∈ m.entries) :
    m.insert hash k v = (false, m) := by
  have hany := (any_chain_iff h k).mpr hk
  unfold insert
  simp only [hany, if_true]

/-- **Inserting an absent key** answers `true` and adds exactly its entry. -/
theorem insert_of_not_mem (h : WF hash m) {k : K} {v : V} (hk : ¬ ∃ w, (k, w) ∈ m.entries) :
    (m.insert hash k v).1 = true ∧ WF hash (m.insert hash k v).2
      ∧ (m.insert hash k v).2.entries.Perm ((k, v) :: m.entries) := by
  have hany : ¬ (m.chain (hash k % m.capacity)).any (fun e => k = e.1) = true := by
    rw [any_chain_iff h]; exact hk
  obtain ⟨hwf, hperm⟩ := wf_link (v := v) h hk
  have hins : m.insert hash k v
      = (true, if (m.link hash k v).size ≥ (m.link hash k v).capacity * 2
          then rehash hash (m.link hash k v) else m.link hash k v) := by
    unfold insert
    simp only [hany]
    rfl
  rw [hins]
  refine ⟨rfl, ?_⟩
  -- the rehash, when it happens, only moves entries around
  by_cases hgrow : (m.link hash k v).size ≥ (m.link hash k v).capacity * 2
  · rw [if_pos hgrow]
    obtain ⟨hwf', hperm'⟩ := wf_rehash hwf (Nat.succ_pos m.size)
    exact ⟨hwf', hperm'.trans hperm⟩
  · rw [if_neg hgrow]
    exact ⟨hwf, hperm⟩

/-- Erasing an absent key changes nothing. -/
theorem erase_of_not_mem (h : WF hash m) {k : K} (hk : ¬ ∃ w, (k, w) ∈ m.entries) :
    m.erase hash k = m := by
  have hany : ¬ (m.chain (hash k % m.capacity)).any (fun e => k = e.1) = true := by
    rw [any_chain_iff h]; exact hk
  unfold erase
  simp only [hany]
  rfl

/-- **Erasing a present key** removes exactly its entry. -/
theorem erase_of_mem (h : WF hash m) {k : K} {v : V} (hk : (k, v) ∈ m.entries) :
    WF hash (m.erase hash k) ∧ m.entries.Perm ((k, v) :: (m.erase hash k).entries) := by
  have hany := (any_chain_iff h k).mpr ⟨v, hk⟩
  have hpos : hash k % m.capacity < m.bucket.length := by
    rw [h.length_eq]; exact Nat.mod_lt _ h.capacity_pos
  have herase : m.erase hash k =
      { m with bucket := m.bucket.set (hash k % m.capacity)
                ((m.chain (hash k % m.capacity)).eraseP (fun e => k = e.1)),
               size := m.size - 1 } := by
    unfold erase
    simp only [hany, if_true]
  -- the entry the loop unlinks is the entry of the key
  have hchain : (m.chain (hash k % m.capacity)).Perm
      ((k, v) :: (m.chain (hash k % m.capacity)).eraseP (fun e => k = e.1)) := by
    obtain ⟨e, l₁, l₂, _, hke, hsplit, hrest⟩ :=
      List.exists_of_eraseP ((h.mem_entries_iff _).mp hk) (p := fun e => k = e.1) (by simp)
    obtain ⟨k', v'⟩ := e
    have hkk : k = k' := by simpa using hke
    subst hkk
    have hv' : (k, v') ∈ m.entries := by
      rw [h.mem_entries_iff, hsplit]; simp
    rw [hrest, hsplit, h.unique hk hv']
    exact List.perm_middle
  have hlen : (m.erase hash k).bucket.length = (m.erase hash k).capacity := by
    rw [herase]; simp [h.length_eq]
  have hperm : m.entries.Perm ((k, v) :: (m.erase hash k).entries) := by
    rw [entries_eq_flatten hlen, entries_eq_flatten h.length_eq, herase]
    exact flatten_remove_perm m.bucket _ (k, v) _ hpos hchain
  have hnodup : (((k, v) :: (m.erase hash k).entries).map Prod.fst).Nodup :=
    (hperm.map Prod.fst).nodup_iff.mp h.nodup
  refine ⟨⟨?_, hlen, ?_, ?_, ?_⟩, hperm⟩
  · rw [herase]; exact h.capacity_pos
  · intro i e he
    rw [herase] at he ⊢
    apply h.placed i e
    by_cases hi : hash k % m.capacity = i
    · subst hi
      have hself := getD_set_self m.bucket (hash k % m.capacity)
        ((m.chain (hash k % m.capacity)).eraseP (fun e => k = e.1)) hpos
      have he' : e ∈ (m.chain (hash k % m.capacity)).eraseP (fun e => k = e.1) := hself ▸ he
      exact List.mem_of_mem_eraseP he'
    · have he' : e ∈ (m.bucket.set (hash k % m.capacity)
          ((m.chain (hash k % m.capacity)).eraseP (fun e => k = e.1))).getD i [] := he
      rw [getD_set_ne _ _ hi] at he'
      exact he'
  · rw [List.map_cons, List.nodup_cons] at hnodup
    exact hnodup.2
  · have hcount := hperm.length_eq
    have hsize : (m.erase hash k).size = m.size - 1 := by rw [herase]
    rw [hsize, h.size_eq, hcount, List.length_cons]
    omega

/-! Every operation keeps a table well formed, and what `at` answers next. -/

theorem WF.insert (h : WF hash m) (k : K) (v : V) : WF hash (m.insert hash k v).2 := by
  by_cases hk : ∃ w, (k, w) ∈ m.entries
  · rw [insert_of_mem h hk]
    exact h
  · exact (insert_of_not_mem h hk).2.1

theorem WF.erase (h : WF hash m) (k : K) : WF hash (m.erase hash k) := by
  by_cases hk : ∃ w, (k, w) ∈ m.entries
  · exact (erase_of_mem h hk.choose_spec).1
  · rw [erase_of_not_mem h hk]
    exact h

theorem at_eq_none_iff (h : WF hash m) (k : K) :
    m.at hash k = none ↔ ¬ ∃ v, (k, v) ∈ m.entries := by
  rw [Option.eq_none_iff_forall_ne_some]
  constructor
  · intro hn hex
    exact hn _ ((at_eq_some_iff h k _).mpr hex.choose_spec)
  · intro hn v hv
    exact hn ⟨v, (at_eq_some_iff h k v).mp hv⟩

/-- **A lookup after an insertion of an absent key.** -/
theorem at_insert (h : WF hash m) {k : K} (v : V) (hk : m.at hash k = none) (x : K) :
    (m.insert hash k v).2.at hash x = if x = k then some v else m.at hash x := by
  have hk' : ¬ ∃ w, (k, w) ∈ m.entries := (at_eq_none_iff h k).mp hk
  have hperm := (insert_of_not_mem h (v := v) hk').2.2
  apply Option.ext
  intro w
  rw [at_eq_some_iff (h.insert k v), hperm.mem_iff, List.mem_cons, Prod.mk.injEq]
  by_cases hx : x = k
  · subst hx
    rw [if_pos rfl, Option.some_inj]
    constructor
    · intro hor
      cases hor with
      | inl heq => exact heq.2.symm
      | inr hmem => exact absurd ⟨w, hmem⟩ hk'
    · intro heq
      exact Or.inl ⟨rfl, heq.symm⟩
  · rw [if_neg hx, at_eq_some_iff h]
    simp [hx]

theorem at_ofCapacity {c : Nat} (hc : 0 < c) (k : K) :
    (ofCapacity c : UnorderedMap K V).at hash k = none := by
  rw [at_eq_none_iff (wf_ofCapacity hash hc).1, (wf_ofCapacity hash hc).2]
  intro ⟨v, hv⟩
  exact absurd hv List.not_mem_nil

/-- **A lookup after any insertion**: an entry that is there stays. -/
theorem at_insert_or (h : WF hash m) (k : K) (v : V) (x : K) :
    (m.insert hash k v).2.at hash x = (m.at hash x).or (if k = x then some v else none) := by
  cases hk : m.at hash k with
  | none =>
      rw [at_insert h v hk]
      by_cases hx : x = k
      · subst hx
        rw [if_pos rfl, if_pos rfl, hk]
        rfl
      · rw [if_neg hx, if_neg (Ne.symm hx), Option.or_none]
  | some w =>
      rw [insert_of_mem h ⟨w, (at_eq_some_iff h k w).mp hk⟩]
      by_cases hx : k = x
      · rw [← hx, hk]
        rfl
      · rw [if_neg hx, Option.or_none]

/-- **A lookup after an erasure.** -/
theorem at_erase (h : WF hash m) (k x : K) :
    (m.erase hash k).at hash x = if x = k then none else m.at hash x := by
  by_cases hk : ∃ w, (k, w) ∈ m.entries
  · obtain ⟨v, hv⟩ := hk
    have hwf := (erase_of_mem h hv).1
    have hperm := (erase_of_mem h hv).2
    apply Option.ext
    intro w
    by_cases hx : x = k
    · subst hx
      rw [if_pos rfl, at_eq_some_iff hwf]
      -- a second entry of the key would break `nodup` of the table before
      have hnodup := (hperm.map Prod.fst).nodup_iff.mp h.nodup
      rw [List.map_cons, List.nodup_cons] at hnodup
      constructor
      · intro hmem
        exact absurd (List.mem_map_of_mem hmem) hnodup.1
      · intro hn
        exact absurd hn (by simp)
    · rw [if_neg hx, at_eq_some_iff hwf, at_eq_some_iff h, hperm.mem_iff, List.mem_cons,
        Prod.mk.injEq]
      simp [hx]
  · rw [erase_of_not_mem h hk]
    by_cases hx : x = k
    · subst hx
      rw [if_pos rfl]
      exact (at_eq_none_iff h x).mpr hk
    · rw [if_neg hx]

end Preservation

/-! ## §4. The finite map a table stands for. -/

/-- The operations of a caller, the size query included. -/
inductive Op (K V : Type) where
  | insert (key : K) (value : V)
  | erase (key : K)
  | clear
  | at (key : K)
  | find (key : K)
  | size
  deriving Repr, DecidableEq

/-- What an operation answers. -/
inductive Result (V : Type) where
  | inserted (added : Bool)
  | done
  | value (v : Option V)
  | count (n : Nat)
  deriving Repr, DecidableEq

section Refinement

variable [DecidableEq K]

/-- One operation on the table. -/
def apply (hash : K → Nat) (m : UnorderedMap K V) : Op K V → Result V × UnorderedMap K V
  | .insert k v => (.inserted (m.insert hash k v).1, (m.insert hash k v).2)
  | .erase k => (.done, m.erase hash k)
  | .clear => (.done, m.clear)
  | .at k => (.value (m.at hash k), m)
  | .find k => (.value ((m.find hash k).entry.head?.map Prod.snd), m)
  | .size => (.count m.size, m)

/-- The same operation on a FINITE MAP: the specification. -/
def specApply (f : Finmap (fun _ : K => V)) : Op K V → Result V × Finmap (fun _ : K => V)
  | .insert k v => if k ∈ f then (.inserted false, f) else (.inserted true, f.insert k v)
  | .erase k => (.done, f.erase k)
  | .clear => (.done, ∅)
  | .at k => (.value (f.lookup k), f)
  | .find k => (.value (f.lookup k), f)
  | .size => (.count f.keys.card, f)

/-- A sequence of operations: the answers in order and the final table. -/
def run (hash : K → Nat) : UnorderedMap K V → List (Op K V) → List (Result V) × UnorderedMap K V
  | m, [] => ([], m)
  | m, op :: ops =>
      let (r, m') := apply hash m op
      let (rs, m'') := run hash m' ops
      (r :: rs, m'')

/-- The sequence on the specification. -/
def specRun : Finmap (fun _ : K => V) → List (Op K V) → List (Result V) × Finmap (fun _ : K => V)
  | f, [] => ([], f)
  | f, op :: ops =>
      let (r, f') := specApply f op
      let (rs, f'') := specRun f' ops
      (r :: rs, f'')

/-- The table `m` is well formed and holds exactly the bindings of `f`. -/
structure Refines (hash : K → Nat) (m : UnorderedMap K V) (f : Finmap (fun _ : K => V)) : Prop where
  wf : WF hash m
  lookup_iff : ∀ k v, f.lookup k = some v ↔ (k, v) ∈ m.entries

variable {hash : K → Nat} {m : UnorderedMap K V} {f : Finmap (fun _ : K => V)}

theorem Refines.mem_iff (h : Refines hash m f) (k : K) : k ∈ f ↔ ∃ v, (k, v) ∈ m.entries := by
  rw [Finmap.mem_iff]
  simp only [h.lookup_iff]

theorem Refines.at_eq (h : Refines hash m f) (k : K) : m.at hash k = f.lookup k := by
  apply Option.ext
  intro v
  rw [at_eq_some_iff h.wf, ← h.lookup_iff]

/-- The counter is the number of bound keys. -/
theorem Refines.size_eq (h : Refines hash m f) : m.size = f.keys.card := by
  have hkeys : f.keys = (m.entries.map Prod.fst).toFinset := by
    ext k
    rw [Finmap.mem_keys, h.mem_iff, List.mem_toFinset, List.mem_map]
    constructor
    · rintro ⟨v, hv⟩; exact ⟨(k, v), hv, rfl⟩
    · rintro ⟨⟨k', v⟩, hv, rfl⟩; exact ⟨v, hv⟩
  rw [hkeys, List.toFinset_card_of_nodup h.wf.nodup, List.length_map, h.wf.size_eq]

theorem refines_ofCapacity (hash : K → Nat) {c : Nat} (hc : 0 < c) :
    Refines hash (ofCapacity c : UnorderedMap K V) ∅ := by
  obtain ⟨hwf, hempty⟩ := wf_ofCapacity (V := V) hash hc
  exact ⟨hwf, fun k v => by rw [hempty]; simp⟩

/-- **One operation**: same answer, and the results still correspond. -/
theorem apply_refines (h : Refines hash m f) (op : Op K V) :
    (apply hash m op).1 = (specApply f op).1
      ∧ Refines hash (apply hash m op).2 (specApply f op).2 := by
  cases op with
  | insert k v =>
      simp only [apply, specApply]
      by_cases hk : k ∈ f
      · have hmem := (h.mem_iff k).mp hk
        rw [if_pos hk, insert_of_mem h.wf hmem]
        exact ⟨rfl, h⟩
      · have hmem : ¬ ∃ w, (k, w) ∈ m.entries := fun hw => hk ((h.mem_iff k).mpr hw)
        obtain ⟨htrue, hwf, hperm⟩ := insert_of_not_mem (v := v) h.wf hmem
        rw [if_neg hk, htrue]
        refine ⟨rfl, hwf, fun k' v' => ?_⟩
        rw [hperm.mem_iff, List.mem_cons, ← h.lookup_iff]
        by_cases hkk : k' = k
        · subst hkk
          have hnone : f.lookup k' = none := Finmap.lookup_eq_none.mpr hk
          rw [Finmap.lookup_insert, hnone]
          simp [eq_comm]
        · rw [Finmap.lookup_insert_of_ne f hkk]
          simp [hkk]
  | erase k =>
      refine ⟨rfl, ?_⟩
      simp only [apply, specApply]
      by_cases hk : ∃ w, (k, w) ∈ m.entries
      · obtain ⟨w, hw⟩ := hk
        obtain ⟨hwf, hperm⟩ := erase_of_mem h.wf hw
        refine ⟨hwf, fun k' v' => ?_⟩
        have hnodup := (hperm.map Prod.fst).nodup_iff.mp h.wf.nodup
        rw [List.map_cons, List.nodup_cons] at hnodup
        by_cases hkk : k' = k
        · subst hkk
          rw [Finmap.lookup_erase]
          refine ⟨fun hn => absurd hn (by simp), fun hmem => ?_⟩
          exact absurd (List.mem_map.mpr ⟨_, hmem, rfl⟩) hnodup.1
        · rw [Finmap.lookup_erase_ne hkk, h.lookup_iff, hperm.mem_iff, List.mem_cons]
          simp [hkk]
      · rw [erase_of_not_mem h.wf hk]
        refine ⟨h.wf, fun k' v' => ?_⟩
        by_cases hkk : k' = k
        · subst hkk
          rw [Finmap.lookup_erase]
          exact ⟨fun hn => absurd hn (by simp), fun hmem => absurd ⟨v', hmem⟩ hk⟩
        · rw [Finmap.lookup_erase_ne hkk, h.lookup_iff]
  | clear => exact ⟨rfl, refines_ofCapacity hash (by decide)⟩
  | «at» k => exact ⟨congrArg Result.value (h.at_eq k), h⟩
  | find k =>
      refine ⟨?_, h⟩
      show Result.value ((m.find hash k).entry.head?.map Prod.snd) = Result.value (f.lookup k)
      rw [find_entry_eq_at, h.at_eq]
  | size => exact ⟨congrArg Result.count h.size_eq, h⟩

theorem run_refines (ops : List (Op K V)) :
    ∀ {m : UnorderedMap K V} {f : Finmap (fun _ : K => V)}, Refines hash m f →
      (run hash m ops).1 = (specRun f ops).1
        ∧ Refines hash (run hash m ops).2 (specRun f ops).2 := by
  induction ops with
  | nil => intro m f h; exact ⟨rfl, h⟩
  | cons op ops ih =>
      intro m f h
      obtain ⟨hres, href⟩ := apply_refines h op
      obtain ⟨hrest, hfinal⟩ := ih href
      exact ⟨by simp only [run, specRun, hres, hrest], hfinal⟩

/-- **THE HASH TABLE IS A FINITE MAP.**  For every hash function, every key
type with equality, every initial capacity `c ≥ 1` and every sequence of
`insert`, `erase`, `clear`, `at`, `find` and `size` calls on an empty table, the
answers are those of the finite map the same calls build — `insert` answers
`true` and adds the pair iff the key was absent, `erase` removes exactly its
key, `at` and `find` give the value of the last successful insert not erased
since, `size` is the number of keys — and the final table is well formed and
holds exactly that map. -/
theorem unorderedMap_refines_finmap (hash : K → Nat) (c : Nat) (hc : 1 ≤ c)
    (ops : List (Op K V)) :
    (run hash (ofCapacity c) ops).1 = (specRun ∅ ops).1
      ∧ (∀ k, (run hash (ofCapacity c) ops).2.at hash k = (specRun ∅ ops).2.lookup k)
      ∧ (run hash (ofCapacity c) ops).2.size = (specRun ∅ ops).2.keys.card
      ∧ WF hash (run hash (ofCapacity c) ops).2 := by
  obtain ⟨hres, href⟩ := run_refines ops (refines_ofCapacity (V := V) hash hc)
  exact ⟨hres, fun k => href.at_eq k, href.size_eq, href.wf⟩

/-- Three colliding keys in a one-bucket table: the second insert triggers a
rehash, and the duplicate is refused. -/
theorem unorderedMap_refines_finmap_collision :
    1 ≤ 1 ∧ (run (fun _ : Nat => 7) (ofCapacity 1)
        [.insert 1 10, .insert 2 20, .insert 1 30, .at 1, .erase 2, .find 2, .size]).1
      = ([.inserted true, .inserted true, .inserted false, .value (some 10), .done, .value none,
          .count 1] : List (Result Nat)) := by
  refine ⟨le_refl 1, ?_⟩
  rw [(unorderedMap_refines_finmap (fun _ : Nat => 7) 1 (le_refl 1) _).1]
  decide

end Refinement

end UnorderedMap

end MierOS.Stdlib
