/-
  MierOS.Stdlib.MapCounter
  **THE COUNTER of `UnorderedMap`** in machine arithmetic: `f_size` is a `size_t` that
  `insert` increments and `erase` decrements, and from which `rehash` computes the next
  capacity.

  `operator[]` makes the entry of a key that is absent as well, and does not count it.
  Erasing such an entry decrements the counter all the same; from `0` it wraps, and a
  counter next to `2 ^ 64` makes the next `insert` rehash into a table of capacity `0`.

  Main results: `Counts`, `Op.Safe`, `mapCounter_iff`.
-/
import MierOS.Lib.LowBits
import MierOS.Lib.Run
import MierOS.Stdlib.UnorderedMap

namespace MierOS.Stdlib.MapCounter

open Lib Lib.Buckets Stdlib.UnorderedMap

/-! ## §1. The operations, with wrapping arithmetic. -/

section Operations

variable {K V : Type} (hash : K → Nat)

/-- `Hasher {}(key) % f_capacity`; the processor traps on a capacity of `0`. -/
def bucketPos (m : UnorderedMap K V) (key : K) : Option Nat :=
  if m.capacity = 0 then none else some (hash key % m.capacity)

/-- `newCap` of `rehash`. -/
def newCap (size : Nat) : Nat :=
  if size &&& 0x3F ≠ 0 then ((size ||| 0x3F) + 1) % 2 ^ 64 else size

/-- `rehash()`: there is a remainder to take for every entry. -/
def rehash (m : UnorderedMap K V) : Option (UnorderedMap K V) :=
  if newCap m.size = 0 ∧ ¬ m.entries.isEmpty then none
  else some
    { bucket := distribute (fun e => hash e.1 % newCap m.size)
        (List.replicate (newCap m.size) []) m.entries
      capacity := newCap m.size
      size := m.size }

variable [DecidableEq K]

/-- `insert({key, value})`. -/
def insert (m : UnorderedMap K V) (key : K) (value : V) : Option (Bool × UnorderedMap K V) :=
  (bucketPos hash m key).bind fun pos =>
    if (m.chain pos).any (fun e => key = e.1) then some (false, m)
    else
      let m : UnorderedMap K V :=
        { m with
          bucket := m.bucket.set pos (m.chain pos ++ [(key, value)])
          size := (m.size + 1) % 2 ^ 64 }
      if m.size ≥ m.capacity * 2 % 2 ^ 64 then (rehash hash m).map (true, ·) else some (true, m)

/-- `operator[](key)`: an absent key gets an entry with the value `V()`, which nothing
counts. -/
def index [Inhabited V] (m : UnorderedMap K V) (key : K) : Option (V × UnorderedMap K V) :=
  (bucketPos hash m key).map fun pos =>
    match seek key (m.chain pos) with
    | e :: _ => (e.2, m)
    | [] => (default, { m with bucket := m.bucket.set pos (m.chain pos ++ [(key, default)]) })

/-- `erase(key)`. -/
def erase (m : UnorderedMap K V) (key : K) : Option (UnorderedMap K V) :=
  (bucketPos hash m key).map fun pos =>
    if (m.chain pos).any (fun e => key = e.1) then
      { m with
        bucket := m.bucket.set pos ((m.chain pos).eraseP fun e => key = e.1)
        size := (m.size + (2 ^ 64 - 1)) % 2 ^ 64 }
    else m

/-- `at(key)`. -/
def «at» (m : UnorderedMap K V) (key : K) : Option (Option V) :=
  (bucketPos hash m key).map fun _ => m.at hash key

/-- The calls that make and destroy entries. -/
inductive Op (K V : Type) where
  | index (key : K)
  | insert (key : K) (value : V)
  | erase (key : K)
  | clear
  deriving Repr, DecidableEq

/-- The table after a call; nothing when the processor traps. -/
def exec [Inhabited V] (m : UnorderedMap K V) : Op K V → Option (UnorderedMap K V)
  | .index key => (index hash m key).map Prod.snd
  | .insert key value => (insert hash m key value).map Prod.snd
  | .erase key => erase hash m key
  | .clear => some m.clear

/-- The table after a sequence of calls on a new one. -/
def run [Inhabited V] (ops : List (Op K V)) : Option (UnorderedMap K V) :=
  ops.foldlM (exec hash) (ofCapacity initialBucketSize)

end Operations

/-! ## §2. What a state owes its callers. -/

section Counting

variable {K V : Type} [DecidableEq K] {hash : K → Nat} {m : UnorderedMap K V}

/-- **`size()` is the number of distinct keys**, the capacity is not `0`, and a lookup
takes no remainder by `0`. -/
structure Counts (hash : K → Nat) (m : UnorderedMap K V) : Prop where
  size_eq : m.size = (m.entries.map Prod.fst).toFinset.card
  capacity_ne : m.capacity ≠ 0
  lookup : ∀ key, («at» hash m key).isSome = true

/-- The call makes no entry that is not counted, and none for which there is no capacity:
an `operator[]` finds its key, and an `insert` finds its key or a table with fewer than
`2 ^ 64 - 64` entries. -/
def Op.Safe (hash : K → Nat) (m : UnorderedMap K V) : Op K V → Prop
  | .index key => (m.at hash key).isSome = true
  | .insert key _ => (m.at hash key).isSome = true ∨ m.entries.length < 2 ^ 64 - 64
  | .erase _ => True
  | .clear => True

end Counting

/-! ## §3. The capacity after a rehash. -/

theorem and_63 (size : Nat) : size &&& 0x3F = size % 64 :=
  Nat.and_two_pow_sub_one_eq_mod size 6

theorem or_63 (size : Nat) : size ||| 0x3F = size / 64 * 64 + 63 :=
  MierOS.Lib.LowBits.or_two_pow_sub_one 6 size

/-- Up to `2 ^ 64 - 64` the rounding does not wrap. -/
theorem newCap_eq {size : Nat} (h : size ≤ 2 ^ 64 - 64) :
    newCap size = rehashCapacity size ∧ newCap size % 64 = 0 := by
  unfold newCap rehashCapacity
  rw [and_63, or_63]
  split_ifs with hrest
  · have hlt : size / 64 * 64 + 63 + 1 < 2 ^ 64 := by omega
    rw [Nat.mod_eq_of_lt hlt]
    omega
  · omega

/-- Above it, it wraps to `0`. -/
theorem newCap_wraps {size : Nat} (h : 2 ^ 64 - 64 < size) (hlt : size < 2 ^ 64) :
    newCap size = 0 := by
  unfold newCap
  rw [and_63, or_63, if_pos (by omega)]
  omega

/-! ## §4. The invariant. -/

section Invariant

variable {K V : Type} {hash : K → Nat} {m : UnorderedMap K V}

/-- **The invariant**: a well-formed table whose entries have a capacity to go to. -/
structure Inv (hash : K → Nat) (m : UnorderedMap K V) : Prop where
  wf : WF hash m
  room : m.entries.length ≤ 2 ^ 64 - 64
  blocks : m.capacity % 64 = 0

theorem Inv.bucketPos_eq (h : Inv hash m) (key : K) :
    bucketPos hash m key = some (hash key % m.capacity) :=
  if_neg (Nat.ne_of_gt h.wf.capacity_pos)

theorem inv_new : Inv hash (ofCapacity initialBucketSize : UnorderedMap K V) := by
  obtain ⟨hwf, hempty⟩ := wf_ofCapacity (V := V) hash (show 0 < initialBucketSize by decide)
  exact ⟨hwf, by rw [hempty]; exact Nat.zero_le _, Nat.mod_self 64⟩

/-- A counted entry, as long as there is a capacity for one more. -/
theorem Inv.link (h : Inv hash m) {key : K} (value : V) (hk : ¬ ∃ v, (key, v) ∈ m.entries)
    (hroom : m.entries.length < 2 ^ 64 - 64) : Inv hash (m.link hash key value) := by
  obtain ⟨hwf, hperm⟩ := wf_link (v := value) h.wf hk
  refine ⟨hwf, ?_, h.blocks⟩
  rw [hperm.length_eq, List.length_cons]
  omega

theorem Inv.rehash (h : Inv hash m) (hpos : 0 < m.size) :
    ∃ m', rehash hash m = some m' ∧ Inv hash m' := by
  obtain ⟨hcap, hblocks⟩ := newCap_eq (h.wf.size_eq ▸ h.room)
  obtain ⟨hwf, hperm⟩ := wf_rehash h.wf hpos
  refine ⟨UnorderedMap.rehash hash m, ?_, hwf, ?_, ?_⟩
  · have hne : newCap m.size ≠ 0 := by
      rw [hcap]
      exact Nat.ne_of_gt (rehashCapacity_pos hpos)
    unfold MapCounter.rehash
    rw [if_neg (fun hzero => hne hzero.1), hcap]
    rfl
  · rw [hperm.length_eq]
    exact h.room
  · show rehashCapacity m.size % 64 = 0
    rw [← hcap]
    exact hblocks

end Invariant

/-! ## §5. One call. -/

section Calls

variable {K V : Type} [DecidableEq K] {hash : K → Nat} {m : UnorderedMap K V}

theorem Inv.counts (h : Inv hash m) : Counts hash m where
  size_eq := by
    rw [List.toFinset_card_of_nodup h.wf.nodup, List.length_map]
    exact h.wf.size_eq
  capacity_ne := Nat.ne_of_gt h.wf.capacity_pos
  lookup key := by
    show ((bucketPos hash m key).map _).isSome = true
    rw [h.bucketPos_eq]
    rfl

theorem isSome_at_iff (h : Inv hash m) (key : K) :
    (m.at hash key).isSome = true ↔ ∃ v, (key, v) ∈ m.entries := by
  rw [← Option.ne_none_iff_isSome, ne_eq, at_eq_none_iff h.wf, not_not]

theorem insert_of_mem (h : Inv hash m) {key : K} (value : V) (hk : ∃ v, (key, v) ∈ m.entries) :
    insert hash m key value = some (false, m) := by
  have hany := (any_chain_iff h.wf key).mpr hk
  unfold insert
  rw [h.bucketPos_eq]
  exact if_pos hany

/-- What `insert` does with an absent key: the counter does not wrap yet. -/
theorem insert_of_not_mem (h : Inv hash m) {key : K} (value : V)
    (hk : ¬ ∃ v, (key, v) ∈ m.entries) :
    insert hash m key value =
      if m.size + 1 ≥ m.capacity * 2 % 2 ^ 64 then
        (MapCounter.rehash hash (m.link hash key value)).map (true, ·)
      else some (true, m.link hash key value) := by
  have hany : ¬ (m.chain (hash key % m.capacity)).any (fun e => key = e.1) = true :=
    fun hany => hk ((any_chain_iff h.wf key).mp hany)
  have hsize : (m.size + 1) % 2 ^ 64 = m.size + 1 := by
    have hroom := h.room
    have hcount := h.wf.size_eq
    exact Nat.mod_eq_of_lt (by omega)
  unfold insert
  rw [h.bucketPos_eq]
  simp only [Option.bind_some, if_neg hany, hsize]
  rfl

/-- `erase` takes an entry away and its count with it. -/
theorem erase_eq (h : Inv hash m) (key : K) : erase hash m key = some (m.erase hash key) := by
  unfold erase UnorderedMap.erase
  rw [h.bucketPos_eq]
  by_cases hany : (m.chain (hash key % m.capacity)).any (fun e => key = e.1) = true
  · obtain ⟨v, hv⟩ := (any_chain_iff h.wf key).mp hany
    have hpos : 0 < m.entries.length := List.length_pos_of_mem hv
    -- `f_size - 1`, which does not go below 0
    have hsize : (m.size + (2 ^ 64 - 1)) % 2 ^ 64 = m.size - 1 := by
      have hroom := h.room
      have hcount := h.wf.size_eq
      omega
    simp only [Option.map_some, if_pos hany, hsize]
  · simp only [Option.map_some, if_neg hany]

theorem Inv.erase (h : Inv hash m) (key : K) : Inv hash (m.erase hash key) := by
  by_cases hk : ∃ v, (key, v) ∈ m.entries
  · obtain ⟨v, hv⟩ := hk
    obtain ⟨hwf, hperm⟩ := erase_of_mem h.wf hv
    have hroom := h.room
    have hlength := hperm.length_eq
    rw [List.length_cons] at hlength
    refine ⟨hwf, by omega, ?_⟩
    unfold UnorderedMap.erase
    simp only [(any_chain_iff h.wf key).mpr ⟨v, hv⟩, if_true]
    exact h.blocks
  · rw [erase_of_not_mem h.wf hk]
    exact h

/-- **A safe call** returns, and leaves a table that counts. -/
theorem exec_of_safe [Inhabited V] (h : Inv hash m) {op : Op K V} (hsafe : op.Safe hash m) :
    ∃ m', exec hash m op = some m' ∧ Inv hash m' := by
  cases op with
  | index key =>
      -- the key is found and nothing changes
      refine ⟨m, ?_, h⟩
      have hseek : (m.at hash key).isSome = true := hsafe
      unfold UnorderedMap.at at hseek
      show (index hash m key).map Prod.snd = some m
      unfold index
      rw [h.bucketPos_eq]
      cases hs : seek key (m.chain (hash key % m.capacity)) with
      | nil => simp [hs] at hseek
      | cons e rest => simp [hs]
  | insert key value =>
      by_cases hk : ∃ v, (key, v) ∈ m.entries
      · exact ⟨m, by simp only [exec, insert_of_mem h value hk]; rfl, h⟩
      · have hroom := hsafe.resolve_left fun hsome => hk ((isSome_at_iff h key).mp hsome)
        have hlink := h.link value hk hroom
        have hins := insert_of_not_mem h value hk
        by_cases hgrow : m.size + 1 ≥ m.capacity * 2 % 2 ^ 64
        · -- the table grows behind the insertion
          obtain ⟨m', hrehash, hinv⟩ := hlink.rehash (Nat.succ_pos m.size)
          rw [if_pos hgrow, hrehash] at hins
          exact ⟨m', by simp only [exec, hins]; rfl, hinv⟩
        · rw [if_neg hgrow] at hins
          exact ⟨_, by simp only [exec, hins]; rfl, hlink⟩
  | erase key => exact ⟨m.erase hash key, erase_eq h key, h.erase key⟩
  | clear => exact ⟨_, rfl, inv_new⟩

/-- **`operator[]` of an absent key** makes an entry and leaves the counter. -/
theorem index_of_not_mem [Inhabited V] (h : Inv hash m) {key : K}
    (hk : ¬ ∃ v, (key, v) ∈ m.entries) :
    index hash m key = some (default, { m.link hash key default with size := m.size }) := by
  have hnone := (at_eq_none_iff h.wf key).mpr hk
  unfold UnorderedMap.at at hnone
  unfold index
  rw [h.bucketPos_eq]
  cases hs : seek key (m.chain (hash key % m.capacity)) with
  | nil => simp [hs, UnorderedMap.link]
  | cons e rest => simp [hs] at hnone

/-- At `2 ^ 64 - 64` entries one more leaves no capacity, whatever the capacity was. -/
theorem insert_traps (h : Inv hash m) {key : K} (value : V) (hk : ¬ ∃ v, (key, v) ∈ m.entries)
    (hfull : ¬ m.entries.length < 2 ^ 64 - 64) : insert hash m key value = none := by
  obtain ⟨hwf, hperm⟩ := wf_link (v := value) h.wf hk
  have hroom := h.room
  have hblocks := h.blocks
  have hsize : m.size = 2 ^ 64 - 64 := by
    have hcount := h.wf.size_eq
    omega
  have hentries : (m.link hash key value).entries.isEmpty = false := by
    rw [List.isEmpty_eq_false_iff, ← List.length_pos_iff_ne_nil, hperm.length_eq]
    exact Nat.succ_pos _
  have hcap : newCap (m.size + 1) = 0 := newCap_wraps (by omega) (by omega)
  rw [insert_of_not_mem h value hk, if_pos (by omega)]
  unfold MapCounter.rehash
  rw [if_pos ⟨hcap, by simp [hentries]⟩]
  rfl

/-- **A call that is not safe** traps, or leaves a counter that is wrong. -/
theorem not_counts_of_not_safe [Inhabited V] (h : Inv hash m) {op : Op K V}
    (hnot : ¬ op.Safe hash m) : ¬ ∃ m', exec hash m op = some m' ∧ Counts hash m' := by
  intro ⟨m', hexec, hcounts⟩
  cases op with
  | index key =>
      have hk : ¬ ∃ v, (key, v) ∈ m.entries := fun hk => hnot ((isSome_at_iff h key).mpr hk)
      obtain ⟨hwf, hperm⟩ := wf_link (v := default) h.wf hk
      have hm' : { m.link hash key default with size := m.size } = m' := by
        simpa [exec, index_of_not_mem h hk] using hexec
      -- one more key, the same counter
      have hsize := hcounts.size_eq
      rw [← hm'] at hsize
      have hkeys : m.size = ((m.link hash key default).entries.map Prod.fst).toFinset.card := hsize
      rw [List.toFinset_card_of_nodup hwf.nodup, List.length_map, hperm.length_eq,
        List.length_cons, h.wf.size_eq] at hkeys
      omega
  | insert key value =>
      have hk : ¬ ∃ v, (key, v) ∈ m.entries := fun hk =>
        hnot (Or.inl ((isSome_at_iff h key).mpr hk))
      -- the rehash divides by the capacity 0
      have htraps := insert_traps h value hk fun hroom => hnot (Or.inr hroom)
      simp [exec, htraps] at hexec
  | erase key => exact hnot trivial
  | clear => exact hnot trivial

/-! ## §6. Sequences of calls. -/

theorem run_concat [Inhabited V] (ops : List (Op K V)) (op : Op K V) :
    run hash (ops ++ [op]) = (run hash ops).bind (exec hash · op) := by
  simp [run, List.foldlM_append]

/-- The call is safe in the state that the calls before it leave. -/
def SafeAfter [Inhabited V] (hash : K → Nat) (before : List (Op K V)) (op : Op K V) : Prop :=
  ∀ m, run hash before = some m → op.Safe hash m

/-- **Safe calls keep the invariant.** -/
theorem inv_run [Inhabited V] {ops : List (Op K V)} (hsafe : AtEach (SafeAfter hash) ops) :
    ∃ m, run hash ops = some m ∧ Inv hash m := by
  induction ops using List.reverseRecOn with
  | nil => exact ⟨_, rfl, inv_new⟩
  | append_singleton ops op ih =>
      obtain ⟨hbefore, hlast⟩ := atEach_concat_iff.mp hsafe
      obtain ⟨m, hrun, hinv⟩ := ih hbefore
      obtain ⟨m', hexec, hinv'⟩ := exec_of_safe hinv (hlast m hrun)
      exact ⟨m', by rw [run_concat, hrun]; exact hexec, hinv'⟩

/-- Every state that the calls go through counts. -/
def CountsThroughout [Inhabited V] (hash : K → Nat) (ops : List (Op K V)) : Prop :=
  ∀ before later, ops = before ++ later → ∃ m, run hash before = some m ∧ Counts hash m

/-- **WHEN THE COUNTER IS RIGHT.**  For every hash function and every sequence of
`operator[]`, `insert`, `erase` and `clear` on a new map, `size()` is the number of
distinct keys, the capacity is not `0` and no lookup takes a remainder by `0` in every
state EXACTLY WHEN every `operator[]` finds its key, and every `insert` finds its key or
fewer than `2 ^ 64 - 64` entries. -/
theorem mapCounter_iff [Inhabited V] (hash : K → Nat) (ops : List (Op K V)) :
    CountsThroughout hash ops ↔ AtEach (SafeAfter hash) ops := by
  constructor
  · intro hcounts
    induction ops using List.reverseRecOn with
    | nil => exact atEach_nil _
    | append_singleton ops op ih =>
        have hbefore := ih fun before later heq =>
          hcounts before (later ++ [op]) (by rw [heq, List.append_assoc])
        obtain ⟨m, hrun, hinv⟩ := inv_run hbefore
        refine atEach_concat_iff.mpr ⟨hbefore, fun m' hrun' => ?_⟩
        obtain rfl : m = m' := Option.some.inj (hrun.symm.trans hrun')
        -- the state behind this call counts, so the call was safe
        obtain ⟨m'', hrun'', hcounts''⟩ := hcounts (ops ++ [op]) [] (List.append_nil _).symm
        rw [run_concat, hrun] at hrun''
        by_contra hnot
        exact not_counts_of_not_safe hinv hnot ⟨m'', hrun'', hcounts''⟩
  · intro hsafe before later heq
    -- a prefix of safe calls is safe
    have hbefore : AtEach (SafeAfter hash) before := fun b e l hb =>
      hsafe b e (l ++ later) (by rw [heq, hb]; simp)
    obtain ⟨m, hrun, hinv⟩ := inv_run hbefore
    exact ⟨m, hrun, hinv.counts⟩

end Calls

/-- **Two entries that nothing counted, both erased**: the counter is `2 ^ 64 - 2`, and the
next insertion rehashes into a table of capacity `0`. -/
theorem uncounted_entries_trap :
    ¬ ∀ (hash : Nat → Nat) (ops : List (Op Nat Nat)), CountsThroughout hash ops := by
  intro hclaim
  obtain ⟨m, hrun, -⟩ := hclaim (fun key => key)
    [.index 1, .index 2, .erase 1, .erase 2, .insert 3 0] _ [] (List.append_nil _).symm
  have htrap : run (fun key : Nat => key)
      ([.index 1, .index 2, .erase 1, .erase 2, .insert 3 0] : List (Op Nat Nat)) = none := by
    decide +kernel
  rw [htrap] at hrun
  exact absurd hrun (by simp)

end MierOS.Stdlib.MapCounter
