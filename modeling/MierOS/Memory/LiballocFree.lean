/-
  MierOS.Memory.LiballocFree
  **WHAT `free` DOES TO THE HEAP**: the block is taken out of its chunk, and a chunk
  without blocks goes back to `liballoc_free`.
-/
import MierOS.Memory.LiballocMalloc

namespace MierOS.Memory.Liballoc

open Lib Lib.FlatMemory Lib.Arena Lib.DoubleLinks

variable {W : Type}

/-! ## §1. The stores that take a block out. -/

/-- The fields that are written when a block between `pred` and `succ` goes. -/
def takeStores (m : FlatMemory) (base pred succ : Nat) (b : Block) : List Store :=
  [Store.field base Major.usage (sub64 (m.get base Major.usage) (b.size + 40)),
    Store.field b.addr Minor.magic dead]
  ++ (if succ = 0 then [] else [Store.field succ Minor.prev pred])
  ++ [if pred = 0 then Store.field base Major.first succ else Store.field pred Minor.next succ]

theorem Taken.of_stores {m : FlatMemory} {base pred succ : Nat} {b : Block}
    (hbase : base + 40 ≤ b.addr) (hpred : pred ≠ 0 → base + 40 ≤ pred ∧ pred + 40 ≤ b.addr)
    (hsucc : succ ≠ 0 → b.addr + 40 ≤ succ) (hpred' : pred < 0x10000000000000000)
    (hsucc' : succ < 0x10000000000000000) :
    Taken m (storeAll m (takeStores m base pred succ b)) base pred succ b := by
  have hapart : (takeStores m base pred succ b).Pairwise Store.Apart := by
    unfold takeStores
    by_cases hp : pred = 0 <;> by_cases hs : succ = 0 <;>
      simp only [hp, hs, if_true, if_false, List.append_nil, List.cons_append, List.nil_append,
        List.pairwise_cons, List.mem_cons, Store.Apart, Store.field, fields, forall_eq_or_imp,
        List.not_mem_nil, false_imp_iff, implies_true, and_true, List.Pairwise.nil] <;> omega
  have hload : ∀ w ∈ takeStores m base pred succ b, w.value < 256 ^ w.width →
      (storeAll m (takeStores m base pred succ b)).load w.width w.addr = w.value := fun w hw hlt =>
    (load_storeAll hapart hw).trans (Nat.mod_eq_of_lt hlt)
  refine ⟨?_, ?_, ?_, ?_, ?_⟩
  · exact load_storeAll hapart (show Store.field base Major.usage
      (sub64 (m.get base Major.usage) (b.size + 40)) ∈ _ by simp [takeStores])
  · intro hzero
    exact hload (Store.field base Major.first succ) (by simp [takeStores, hzero]) hsucc'
  · intro hne
    exact hload (Store.field pred Minor.next succ) (by simp [takeStores, hne]) hsucc'
  · intro hne
    exact hload (Store.field succ Minor.prev pred) (by simp [takeStores, hne]) hpred'
  · intro x hheader _ hcount hfirst hpredx hsuccx
    refine storeAll_out fun w hw => ?_
    unfold takeStores at hw
    rcases List.mem_append.mp hw with hw | hw
    · rcases List.mem_append.mp hw with hw | hw
      · simp only [List.mem_cons, List.not_mem_nil, or_false] at hw
        rcases hw with rfl | rfl
        · exact hcount
        · show x < b.addr + 24 ∨ b.addr + 24 + 4 ≤ x
          omega
      · by_cases hzero : succ = 0
        · rw [if_pos hzero] at hw
          exact absurd hw List.not_mem_nil
        · rw [if_neg hzero, List.mem_singleton] at hw
          rw [hw]
          exact hsuccx hzero
    · rw [List.mem_singleton] at hw
      rw [hw]
      by_cases hzero : pred = 0
      · rw [if_pos hzero]
        exact hfirst hzero
      · rw [if_neg hzero]
        exact hpredx hzero

/-- **The code writes these fields.** -/
theorem unlinkMinor_eq {s : State W} {base pred succ : Nat} {b : Block}
    (hprev : s.get b.addr Minor.prev = pred) (hnext : s.get b.addr Minor.next = succ)
    (hbase : base + 40 ≤ b.addr) (hpred : pred ≠ 0 → base + 40 ≤ pred ∧ pred + 40 ≤ b.addr)
    (hsucc : succ ≠ 0 → b.addr + 40 ≤ succ) :
    ((s.set base Major.usage (sub64 (s.get base Major.usage) (b.size + 40))).set b.addr
        Minor.magic dead).unlinkMinor base b.addr
      = { s with mem := storeAll s.mem (takeStores s.mem base pred succ b) } := by
  -- the links of the block are read over and over, and none of the stores changes them
  obtain ⟨s₂, hs₂⟩ : ∃ s₂, s₂ = (s.set base Major.usage
    (sub64 (s.get base Major.usage) (b.size + 40))).set b.addr Minor.magic dead := ⟨_, rfl⟩
  have hkept : ∀ f : Field, f.offset + f.width ≤ 16 → s₂.get b.addr f = s.get b.addr f := by
    intro f hf
    rw [hs₂]
    show FlatMemory.get (FlatMemory.set (FlatMemory.set _ _ _ _) _ _ _) _ _ = _
    rw [get_set_of_disjoint (show b.addr + 24 + 4 ≤ b.addr + f.offset
        ∨ b.addr + f.offset + f.width ≤ b.addr + 24 by omega),
      get_set_of_disjoint (show base + 24 + 4 ≤ b.addr + f.offset
        ∨ b.addr + f.offset + f.width ≤ base + 24 by omega)]
    rfl
  have hprev₂ : s₂.get b.addr Minor.prev = pred := (hkept Minor.prev (by decide)).trans hprev
  have hnext₂ : s₂.get b.addr Minor.next = succ := (hkept Minor.next (by decide)).trans hnext
  have hmem₂ : s₂ = { s with mem := storeAll s.mem [Store.field base Major.usage
      (sub64 (s.mem.get base Major.usage) (b.size + 40)), Store.field b.addr Minor.magic dead] } := by
    rw [hs₂]
    rfl
  -- the header behind, if there is one
  obtain ⟨s₃, hs₃⟩ : ∃ s₃, s₃ = if succ ≠ 0 then s₂.set succ Minor.prev pred else s₂ := ⟨_, rfl⟩
  have hmem₃ : s₃ = { s₂ with
      mem := storeAll s₂.mem (if succ = 0 then [] else [Store.field succ Minor.prev pred]) } := by
    rw [hs₃]
    by_cases hzero : succ = 0
    · rw [if_neg (not_not.mpr hzero), if_pos hzero]
      rfl
    · rw [if_pos hzero, if_neg hzero]
      rfl
  have hkept₃ : ∀ f : Field, f.offset + f.width ≤ 16 → s₃.get b.addr f = s₂.get b.addr f := by
    intro f hf
    rw [hs₃]
    by_cases hzero : succ = 0
    · rw [if_neg (not_not.mpr hzero)]
    · have hsucc := hsucc hzero
      rw [if_pos hzero]
      exact get_set_of_disjoint (show succ + 0 + 8 ≤ b.addr + f.offset
        ∨ b.addr + f.offset + f.width ≤ succ + 0 by omega)
  have hprev₃ : s₃.get b.addr Minor.prev = pred := (hkept₃ Minor.prev (by decide)).trans hprev₂
  have hnext₃ : s₃.get b.addr Minor.next = succ := (hkept₃ Minor.next (by decide)).trans hnext₂
  rw [← hs₂]
  unfold State.unlinkMinor takeStores
  simp only [hprev₂, hnext₂, ← hs₃, hprev₃, hnext₃]
  rw [storeAll_append, storeAll_append]
  by_cases hzero : pred = 0
  · -- the block was the first one
    rw [if_neg (not_not.mpr hzero), hprev₃, hnext₃, if_pos hzero, if_pos hzero, hmem₃, hmem₂]
    rfl
  · have hpred := hpred hzero
    have hprev₄ : (s₃.set pred Minor.next succ).get b.addr Minor.prev = pred := by
      rw [← hprev₃]
      exact get_set_of_disjoint (show s₃.get b.addr Minor.prev + 8 + 8 ≤ b.addr + 0
        ∨ b.addr + 0 + 8 ≤ s₃.get b.addr Minor.prev + 8 by omega)
    rw [if_pos hzero, hprev₄, if_neg hzero, if_neg hzero, hmem₃, hmem₂]
    rfl

/-! ## §2. A chunk goes. -/

section Drop

variable {P : Plugs W} {s : State W} {h₁ h₂ : List Chunk} {d : Chunk}

/-- The chunk in front of a place in the list, 0 at the start. -/
def prevBase (h₁ : List Chunk) : Nat := (h₁.map Chunk.base).getLastD 0

/-- The chunk behind a place in the list, 0 at the end. -/
def nextBase (h₂ : List Chunk) : Nat := (h₂.map Chunk.base).headD 0

/-- The memory with the links around a chunk closed. -/
def closeLinks (m : FlatMemory) (prev next : Nat) : FlatMemory :=
  let m := if prev ≠ 0 then m.set prev Major.next next else m
  if next ≠ 0 then m.set next Major.prev prev else m

/-- The places of the two links are headers of other chunks. -/
theorem Represents.around (hr : Represents s (h₁ ++ d :: h₂)) :
    (prevBase h₁ ≠ 0 → ∃ c ∈ h₁, c.base = prevBase h₁)
      ∧ (nextBase h₂ ≠ 0 → ∃ c ∈ h₂, c.base = nextBase h₂) := by
  constructor
  · intro hne
    rcases List.eq_nil_or_concat h₁ with rfl | ⟨l, p, rfl⟩
    · exact absurd rfl hne
    · refine ⟨p, by simp, ?_⟩
      unfold prevBase
      rw [List.concat_eq_append, List.map_append, List.map_singleton, List.getLastD_concat]
  · intro hne
    cases h₂ with
    | nil => exact absurd rfl hne
    | cons e h₂ => exact ⟨e, List.mem_cons_self, rfl⟩

theorem unlinkMajor_eq {maj prev next : Nat} (hprev : s.get maj Major.prev = prev)
    (hnext : s.get maj Major.next = next)
    (hfar : prev ≠ 0 → prev + 40 ≤ maj ∨ maj + 40 ≤ prev) :
    s.unlinkMajor maj = { s with mem := closeLinks s.mem prev next } := by
  obtain ⟨t, ht⟩ : ∃ t, t = if prev ≠ 0 then s.set prev Major.next next else s := ⟨_, rfl⟩
  have hmem : t = { s with mem := if prev ≠ 0 then s.mem.set prev Major.next next else s.mem } := by
    rw [ht]
    split <;> rfl
  -- the header of the major reads as before
  have hkept : ∀ f : Field, f.offset + f.width ≤ 40 → t.get maj f = s.get maj f := by
    intro f hf
    rw [ht]
    split
    · next hne =>
      have hfar := hfar hne
      exact get_set_of_disjoint (show prev + 8 + 8 ≤ maj + f.offset
        ∨ maj + f.offset + f.width ≤ prev + 8 by omega)
    · rfl
  have hprev' : t.get maj Major.prev = prev := (hkept Major.prev (by decide)).trans hprev
  have hnext' : t.get maj Major.next = next := (hkept Major.next (by decide)).trans hnext
  unfold State.unlinkMajor closeLinks
  simp only [hprev, hnext, ← ht, hprev', hnext']
  rw [hmem]
  by_cases hzero : next = 0
  · rw [if_neg (not_not.mpr hzero), if_neg (not_not.mpr hzero)]
  · rw [if_pos hzero, if_pos hzero]
    rfl

/-- What the edit of the links leaves alone. -/
theorem closeLinks_out {m : FlatMemory} {prev next x : Nat}
    (hprev : prev ≠ 0 → x < prev + 8 ∨ prev + 16 ≤ x) (hnext : next ≠ 0 → x < next ∨ next + 8 ≤ x) :
    closeLinks m prev next x = m x := by
  have hfirst : (if prev ≠ 0 then m.set prev Major.next next else m) x = m x := by
    split
    · next hne => exact set_out (hprev hne)
    · rfl
  unfold closeLinks
  split
  · next hne => exact (set_out (hnext hne)).trans hfirst
  · exact hfirst

theorem closeLinks_next {m : FlatMemory} {prev next : Nat} (hprev : prev ≠ 0)
    (hlt : next < 0x10000000000000000) (hfar : next ≠ 0 → prev + 40 ≤ next ∨ next + 40 ≤ prev) :
    (closeLinks m prev next).get prev Major.next = next := by
  have hset : (m.set prev Major.next next).get prev Major.next = next :=
    get_set_same.trans (Nat.mod_eq_of_lt hlt)
  unfold closeLinks
  dsimp only
  rw [if_pos hprev]
  split
  · next hne =>
    have hfar := hfar hne
    rw [get_set_of_disjoint (show next + 0 + 8 ≤ prev + 8 ∨ prev + 8 + 8 ≤ next + 0 by omega), hset]
  · exact hset

theorem closeLinks_prev {m : FlatMemory} {prev next : Nat} (hnext : next ≠ 0)
    (hlt : prev < 0x10000000000000000) :
    (closeLinks m prev next).get next Major.prev = prev := by
  unfold closeLinks
  dsimp only
  rw [if_pos hnext]
  exact get_set_same.trans (Nat.mod_eq_of_lt hlt)

/-- The headers around are off the chunk's own, and off each other. -/
theorem Represents.around_far (hr : Represents s (h₁ ++ d :: h₂)) :
    (prevBase h₁ ≠ 0 → prevBase h₁ + 40 ≤ d.base ∨ d.base + 40 ≤ prevBase h₁)
      ∧ (nextBase h₂ ≠ 0 → nextBase h₂ + 40 ≤ d.base ∨ d.base + 40 ≤ nextBase h₂)
      ∧ (prevBase h₁ ≠ 0 → nextBase h₂ ≠ 0 →
        prevBase h₁ + 40 ≤ nextBase h₂ ∨ nextBase h₂ + 40 ≤ prevBase h₁)
      ∧ prevBase h₁ < 0x10000000000000000 ∧ nextBase h₂ < 0x10000000000000000 := by
  obtain ⟨haround, haround'⟩ := hr.around
  have hd := hr.ok d (List.mem_append_right h₁ List.mem_cons_self)
  have hdstart := hd.start_le
  have hother : ∀ c ∈ h₁ ++ h₂, (c.base + 40 ≤ d.base ∨ d.base + 40 ≤ c.base)
      ∧ c.base < 0x10000000000000000 := by
    intro c hc
    have hc' := hr.ok c (Represents.mem_mid hc)
    have hcstart := hc'.start_le
    have hcstop := hc'.stop_le
    refine ⟨?_, by omega⟩
    rcases hr.apart_mid hc with hapart | hapart <;> omega
  refine ⟨fun hne => ?_, fun hne => ?_, fun hne hne' => ?_, ?_, ?_⟩
  · obtain ⟨c, hc, hbase⟩ := haround hne
    exact hbase ▸ (hother c (List.mem_append_left _ hc)).1
  · obtain ⟨c, hc, hbase⟩ := haround' hne
    exact hbase ▸ (hother c (List.mem_append_right _ hc)).1
  · obtain ⟨c, hc, hbase⟩ := haround hne
    obtain ⟨e, he, hbase'⟩ := haround' hne'
    have hapart := (List.pairwise_append.mp hr.apart).2.2 c hc e (List.mem_cons_of_mem d he)
    have hcstart := (hr.ok c (List.mem_append_left _ hc)).start_le
    have hestart := (hr.ok e (List.mem_append_right _ (List.mem_cons_of_mem d he))).start_le
    rw [← hbase, ← hbase']
    rcases hapart with hapart | hapart <;> omega
  · by_cases hzero : prevBase h₁ = 0
    · omega
    · obtain ⟨c, hc, hbase⟩ := haround hzero
      exact hbase ▸ (hother c (List.mem_append_left _ hc)).2
  · by_cases hzero : nextBase h₂ = 0
    · omega
    · obtain ⟨c, hc, hbase⟩ := haround' hzero
      exact hbase ▸ (hother c (List.mem_append_right _ hc)).2

/-- What `dropMajor` makes of the state. -/
theorem dropMajor_eq (hr : Represents s (h₁ ++ d :: h₂)) :
    s.dropMajor P d.base = { s with
      mem := closeLinks s.mem (prevBase h₁) (nextBase h₂)
      memRoot := if s.memRoot = d.base then nextBase h₂ else s.memRoot
      bestBet := if s.bestBet = d.base then 0 else s.bestBet
      allocated := sub64 s.allocated (d.pages * pageSize)
      world := P.free s.world d.base d.pages } := by
  have hd := List.mem_append_right h₁ (List.mem_cons_self (a := d) (l := h₂))
  obtain ⟨hprev, hnext⟩ : s.get d.base Major.prev = prevBase h₁
      ∧ s.get d.base Major.next = nextBase h₂ := by
    have hlinked := hr.linked
    rw [List.map_append, List.map_cons] at hlinked
    exact hlinked.links
  obtain ⟨hfar, hfar', -⟩ := hr.around_far
  have hunlink : ∀ t : State W, t.mem = s.mem →
      t.unlinkMajor d.base = { t with mem := closeLinks s.mem (prevBase h₁) (nextBase h₂) } := by
    intro t ht
    rw [← ht]
    refine unlinkMajor_eq ?_ ?_ hfar
    · rw [← hprev]
      exact congrArg (fun m : FlatMemory => m.get d.base Major.prev) ht
    · rw [← hnext]
      exact congrArg (fun m : FlatMemory => m.get d.base Major.next) ht
  have hkept : ∀ f : Field, f.offset + f.width ≤ 40 →
      (closeLinks s.mem (prevBase h₁) (nextBase h₂)).get d.base f = s.mem.get d.base f := by
    intro f hf
    refine get_congr fun x hlo hhi => closeLinks_out (fun hne => ?_) (fun hne => ?_)
    · have hfar := hfar hne
      omega
    · have hfar' := hfar' hne
      omega
  have hsize := (hkept Major.size (by decide)).trans (hr.chunks d hd).size
  have hpages := (hkept Major.pages (by decide)).trans (hr.chunks d hd).pages
  unfold State.dropMajor
  by_cases hroot : s.memRoot = d.base <;> by_cases hbet : s.bestBet = d.base
  · simp only [if_pos hroot, if_pos hbet, hnext]
    rw [hunlink { s with memRoot := nextBase h₂, bestBet := 0 } rfl]
    simp only [State.get, hsize, hpages]
  · simp only [if_pos hroot, if_neg hbet, hnext]
    rw [hunlink { s with memRoot := nextBase h₂ } rfl]
    simp only [State.get, hsize, hpages]
  · simp only [if_neg hroot, if_pos hbet]
    rw [hunlink { s with bestBet := 0 } rfl]
    simp only [State.get, hsize, hpages]
  · simp only [if_neg hroot, if_neg hbet]
    rw [hunlink s rfl]
    simp only [State.get, hsize, hpages]

/-- A link that is written lies in the header of a chunk. -/
theorem closeLinks_header (hr : Represents s (h₁ ++ d :: h₂)) {x : Nat}
    (hx : ∀ c ∈ h₁ ++ h₂, x < c.base ∨ c.base + 16 ≤ x) :
    closeLinks s.mem (prevBase h₁) (nextBase h₂) x = s.mem x := by
  obtain ⟨haround, haround'⟩ := hr.around
  refine closeLinks_out (fun hne => ?_) (fun hne => ?_)
  · obtain ⟨c, hc, hbase⟩ := haround hne
    have hc := hx c (List.mem_append_left _ hc)
    omega
  · obtain ⟨c, hc, hbase⟩ := haround' hne
    have hc := hx c (List.mem_append_right _ hc)
    omega

/-- The links of a chunk stay, but for the one that pointed at the chunk that goes. -/
theorem closeLinks_link (hr : Represents s (h₁ ++ d :: h₂)) {c : Chunk} (hc : c ∈ h₁ ++ h₂)
    {x : Nat} (hlo : c.base ≤ x) (hhi : x < c.base + 16)
    (hcprev : c.base = prevBase h₁ → x < c.base + 8)
    (hcnext : c.base = nextBase h₂ → c.base + 8 ≤ x) :
    closeLinks s.mem (prevBase h₁) (nextBase h₂) x = s.mem x := by
  obtain ⟨haround, haround'⟩ := hr.around
  have hcstart := (hr.ok c (Represents.mem_mid hc)).start_le
  have hpair : ∀ e ∈ h₁ ++ h₂, e.base ≠ c.base → x < e.base ∨ e.base + 16 ≤ x := by
    intro e he hne
    have hapart := hr.apart_of_ne (Represents.mem_mid he) (Represents.mem_mid hc)
      (fun heq => hne (congrArg Chunk.base heq))
    have hestart := (hr.ok e (Represents.mem_mid he)).start_le
    rcases hapart with hapart | hapart <;> omega
  refine closeLinks_out (fun hne => ?_) (fun hne => ?_)
  · obtain ⟨e, he, hbase⟩ := haround hne
    by_cases hec : e.base = c.base
    · have hx := hcprev (hec.symm.trans hbase)
      omega
    · have hx := hpair e (List.mem_append_left _ he) hec
      omega
  · obtain ⟨e, he, hbase⟩ := haround' hne
    by_cases hec : e.base = c.base
    · have hx := hcnext (hec.symm.trans hbase)
      omega
    · have hx := hpair e (List.mem_append_right _ he) hec
      omega

/-- **The list of the chunks that stay.** -/
theorem closeLinks_linked (hr : Represents s (h₁ ++ d :: h₂)) :
    DSeg (fun a => (closeLinks s.mem (prevBase h₁) (nextBase h₂)).get a Major.prev)
      (fun a => (closeLinks s.mem (prevBase h₁) (nextBase h₂)).get a Major.next) 0
      ((h₁ ++ h₂).map Chunk.base) 0 := by
  obtain ⟨-, -, hfar, hprevlt, hnextlt⟩ := hr.around_far
  have hnodup := hr.bases_nodup
  have hlinked := hr.linked
  rw [List.map_append, List.map_cons] at hnodup hlinked
  have hlinks : s.mem.get d.base Major.prev = prevBase h₁
      ∧ s.mem.get d.base Major.next = nextBase h₂ := hlinked.links
  rw [List.map_append]
  refine hlinked.unlink hnodup (fun y hy => ?_) (fun y hy => ?_)
  · rw [← List.map_append] at hy
    obtain ⟨c, hc, rfl⟩ := List.mem_map.mp hy
    have hcpos := (hr.ok c (Represents.mem_mid hc)).pos
    by_cases hhead : (h₂.map Chunk.base).head? = some c.base
    · have hnext : nextBase h₂ = c.base := by
        unfold nextBase
        rw [List.headD_eq_head?_getD, hhead]
        rfl
      rw [if_pos hhead, hlinks.1, ← hnext]
      exact closeLinks_prev (by omega) hprevlt
    · rw [if_neg hhead]
      refine get_congr fun x hlo hhi => closeLinks_link hr hc hlo ?_ (fun _ => hhi) (fun heq => ?_)
      · exact Nat.lt_of_lt_of_le hhi (Nat.add_le_add_left (by decide) _)
      · -- the chunk behind is the first of the rest
        refine absurd ?_ hhead
        cases h₂ with
        | nil => exact absurd heq (Nat.ne_of_gt hcpos)
        | cons e h₂ => exact congrArg some heq.symm
  · rw [← List.map_append] at hy
    obtain ⟨c, hc, rfl⟩ := List.mem_map.mp hy
    have hcpos := (hr.ok c (Represents.mem_mid hc)).pos
    by_cases hlast : (h₁.map Chunk.base).getLast? = some c.base
    · have hprev : prevBase h₁ = c.base := by
        unfold prevBase
        rw [List.getLastD_eq_getLast?, hlast]
        rfl
      rw [if_pos hlast, hlinks.2, ← hprev]
      exact closeLinks_next (by omega) hnextlt (hfar (by omega))
    · rw [if_neg hlast]
      refine get_congr fun x hlo hhi => closeLinks_link hr hc ?_ hhi (fun heq => ?_) (fun _ => hlo)
      · exact Nat.le_trans (Nat.le_add_right _ _) hlo
      · refine absurd ?_ hlast
        rcases List.eq_nil_or_concat h₁ with rfl | ⟨l, p, rfl⟩
        · exact absurd heq (Nat.ne_of_gt hcpos)
        · rw [List.concat_eq_append] at heq ⊢
          unfold prevBase at heq
          rw [List.map_append, List.map_singleton, List.getLastD_concat] at heq
          rw [List.map_append, List.map_singleton, List.getLast?_concat, heq]

theorem sub64_mod_add (a b : Nat) :
    sub64 ((a + b) % 0x10000000000000000) b = a % 0x10000000000000000 := by
  unfold sub64
  omega

/-- **A chunk without blocks goes back.** -/
theorem Represents.drop (hr : Represents s (h₁ ++ d :: h₂)) (hempty : d.blocks = []) :
    Represents (s.dropMajor P d.base) (h₁ ++ h₂)
      ∧ (s.dropMajor P d.base).world = P.free s.world d.base d.pages
      ∧ ∀ x, Outside (h₁ ++ h₂) x → (s.dropMajor P d.base).mem x = s.mem x := by
  have hnodup := hr.bases_nodup
  rw [List.map_append, List.map_cons] at hnodup
  rw [dropMajor_eq hr]
  refine ⟨⟨?_, ?_, ?_, closeLinks_linked hr, ?_, ?_, ?_, ?_⟩, rfl, ?_⟩
  · exact fun c hc => hr.ok c (Represents.mem_mid hc)
  · exact hr.apart.sublist (List.Sublist.append_left (List.sublist_cons_self d h₂) h₁)
  · intro c hc
    refine (hr.chunks c (Represents.mem_mid hc)).congr_links (hr.ok c (Represents.mem_mid hc))
      fun x hlo hhi => closeLinks_header hr fun e he => ?_
    by_cases hce : c = e
    · subst hce
      exact Or.inr hlo
    · have hapart := hr.apart_of_ne (Represents.mem_mid hc) (Represents.mem_mid he) hce
      have hestart := (hr.ok e (Represents.mem_mid he)).start_le
      rcases hapart with hapart | hapart <;> omega
  · show (if s.memRoot = d.base then nextBase h₂ else s.memRoot) = _
    have hold := hr.root
    cases h₁ with
    | nil => exact if_pos hold
    | cons e h₁ =>
        have hold : s.memRoot = e.base := hold
        rw [hold, if_neg]
        · rfl
        · exact fun heq => (List.nodup_cons.mp hnodup).1 (heq ▸ by simp)
  · show (if s.bestBet = d.base then 0 else s.bestBet) = 0 ∨ _
    by_cases heq : s.bestBet = d.base
    · exact Or.inl (if_pos heq)
    · show _ ∨ (if s.bestBet = d.base then 0 else s.bestBet) ∈ _
      rw [if_neg heq]
      refine hr.bestBet.imp id fun hmem => ?_
      rw [List.map_append, List.map_cons, List.mem_append, List.mem_cons] at hmem
      rw [List.map_append, List.mem_append]
      exact hmem.imp id fun hmem => hmem.resolve_left heq
  · show sub64 s.allocated (d.pages * pageSize) = _
    have hsum : ((h₁ ++ d :: h₂).map fun c => c.pages * pageSize).sum
        = ((h₁ ++ h₂).map fun c => c.pages * pageSize).sum + d.pages * pageSize := by
      rw [List.map_append, List.map_append, List.map_cons, List.sum_append, List.sum_append,
        List.sum_cons]
      omega
    rw [hr.allocated, hsum, sub64_mod_add]
  · show s.inuse = _
    have hsizes : d.sizes = 0 := by
      unfold Chunk.sizes
      rw [hempty]
      rfl
    rw [hr.inuse]
    simp only [List.map_append, List.map_cons, List.sum_append, List.sum_cons, hsizes, Nat.zero_add]
  · intro x hx
    refine closeLinks_header hr fun c hc => ?_
    have hoff := (hr.ok c (Represents.mem_mid hc)).off_major (hx c hc)
    omega

end Drop

/-! ## §3. `free`. -/

/-- **What `free` of a block does to the heap**: its chunk keeps the other blocks, or goes
back with the number of pages it came with. -/
inductive Frees (P : Plugs W) (w : W) (h : List Chunk) (b : Block) : W → List Chunk → Prop
  | kept {h₁ h₂ : List Chunk} {d : Chunk} {l₁ l₂ : List Block} : h = h₁ ++ d :: h₂ →
      d.blocks = l₁ ++ b :: l₂ → l₁ ++ l₂ ≠ [] →
      Frees P w h b w (h₁ ++ ⟨d.base, d.pages, l₁ ++ l₂⟩ :: h₂)
  | emptied {h₁ h₂ : List Chunk} {d : Chunk} : h = h₁ ++ d :: h₂ → d.blocks = [b] →
      Frees P w h b (P.free w d.base d.pages) (h₁ ++ h₂)

section Free

variable {P : Plugs W} {s : State W} {h h₁ h₂ : List Chunk} {d : Chunk} {l₁ l₂ : List Block}
  {b : Block}

/-- The header of a block from the pointer of its caller. -/
theorem header_of_ptr (hr : Represents s h) (hd : d ∈ h) (hb : b ∈ d.blocks) :
    b.ptr ≠ 0 ∧ sub64 (unalign s.mem b.ptr) minorSize = b.addr := by
  have hfacts := (hr.ok d hd).block hb
  have hstop := (hr.ok d hd).stop_le
  have haligned := ((hr.chunks d hd).minors b hb).aligned
  have hroom : b.addr + 40 + 31 < 0x10000000000000000 := by omega
  have hunalign : unalign s.mem b.ptr = b.addr + 40 := unalign_eq hroom haligned
  have hback : sub64 (b.addr + 40) 40 = b.addr := by
    unfold sub64
    omega
  rw [hunalign]
  exact ⟨by omega, hback⟩

/-- The links of a block, as numbers. -/
theorem links_bounds (hok : d.Ok) (hblocks : d.blocks = l₁ ++ b :: l₂) :
    d.base + 40 ≤ b.addr
      ∧ (predOf l₁ ≠ 0 → d.base + 40 ≤ predOf l₁ ∧ predOf l₁ + 40 ≤ b.addr)
      ∧ (succOf l₂ ≠ 0 → b.addr + 40 ≤ succOf l₂)
      ∧ predOf l₁ < 0x10000000000000000 ∧ succOf l₂ < 0x10000000000000000 := by
  have hstop := hok.stop_le
  have hb := hok.block (b := b) (by rw [hblocks]; simp)
  have hpacked := hok.packed
  rw [hblocks] at hpacked
  obtain ⟨hbefore, hbehind⟩ := hpacked.beside
  have hpred : predOf l₁ ≠ 0 → d.base + 40 ≤ predOf l₁ ∧ predOf l₁ + 40 ≤ b.addr := by
    intro hne
    rcases List.eq_nil_or_concat l₁ with rfl | ⟨l, p, rfl⟩
    · exact absurd rfl hne
    · rw [List.concat_eq_append] at *
      rw [predOf_concat]
      have hp := hok.block (b := p) (by rw [hblocks]; simp)
      have hle := hbefore p (by simp)
      omega
  have hsucc : succOf l₂ ≠ 0 → b.addr + 40 ≤ succOf l₂ ∧ succOf l₂ < 0x10000000000000000 := by
    intro hne
    cases l₂ with
    | nil => exact absurd rfl hne
    | cons q l₂ =>
        have hq := hok.block (b := q) (by rw [hblocks]; simp)
        have hle := hbehind q List.mem_cons_self
        rw [succOf_cons]
        omega
  refine ⟨hb.1, hpred, fun hne => (hsucc hne).1, ?_, ?_⟩
  · by_cases hzero : predOf l₁ = 0
    · omega
    · have hpred := hpred hzero
      omega
  · by_cases hzero : succOf l₂ = 0
    · omega
    · exact (hsucc hzero).2

/-- **The block is taken out**, and the chunk is still there. -/
theorem Represents.take (hr : Represents s (h₁ ++ d :: h₂)) (hblocks : d.blocks = l₁ ++ b :: l₂) :
    Represents { s with
        inuse := sub64 s.inuse b.size
        mem := storeAll s.mem (takeStores s.mem d.base (predOf l₁) (succOf l₂) b) }
      (h₁ ++ ⟨d.base, d.pages, l₁ ++ l₂⟩ :: h₂)
      ∧ ∀ x, Outside (h₁ ++ d :: h₂) x →
        storeAll s.mem (takeStores s.mem d.base (predOf l₁) (succOf l₂) b) x = s.mem x := by
  obtain ⟨base, pages, blocks⟩ := d
  obtain rfl : blocks = l₁ ++ b :: l₂ := hblocks
  have hd := List.mem_append_right h₁ (List.mem_cons_self (a := (⟨base, pages, l₁ ++ b :: l₂⟩ : Chunk))
    (l := h₂))
  have hok := hr.ok _ hd
  obtain ⟨haddr, hpred, hsucc, hpredlt, hsucclt⟩ := links_bounds hok rfl
  have htaken := Taken.of_stores (m := s.mem) haddr hpred hsucc hpredlt hsucclt
  constructor
  · refine hr.edit rfl rfl hok.erase
      (htaken.chunkAt hok (hr.chunks _ hd)) ?_ rfl hr.bestBet rfl ?_
    · intro x hx
      refine htaken.frame.outside hok ?_
      rcases hx with hx | hx
      · exact Or.inl (Nat.lt_of_lt_of_le hx (Nat.add_le_add_left (by decide) _))
      · exact Or.inr hx
    · show sub64 s.inuse b.size = _
      have hsum : ((h₁ ++ ⟨base, pages, l₁ ++ b :: l₂⟩ :: h₂).map Chunk.sizes).sum
          = ((h₁ ++ ⟨base, pages, l₁ ++ l₂⟩ :: h₂).map Chunk.sizes).sum + b.size := by
        simp only [List.map_append, List.map_cons, List.sum_append, List.sum_cons, Chunk.sizes]
        omega
      rw [hr.inuse, hsum, sub64_mod_add]
  · intro x hx
    have hout := hx _ hd
    have hmajor : x < base ∨ base + 40 ≤ x := hok.off_major hout
    have hminor : ∀ c ∈ l₁ ++ b :: l₂, x < c.addr ∨ c.addr + 56 ≤ x := by
      intro c hc
      have hoff := hok.off_minor hc hout
      have hcfacts := hok.block hc
      omega
    have hbmem : b ∈ l₁ ++ b :: l₂ := by simp
    have hboff := hok.off_minor hbmem hout
    have hbfacts := hok.block hbmem
    apply htaken.frame x
    · omega
    · omega
    · show x < base + 24 ∨ base + 28 ≤ x
      omega
    · intro _
      show x < base + 32 ∨ base + 40 ≤ x
      omega
    · intro hne
      rcases List.eq_nil_or_concat l₁ with rfl | ⟨l, p, rfl⟩
      · exact absurd rfl hne
      · rw [List.concat_eq_append] at *
        have hp := hminor p (by simp)
        rw [predOf_concat]
        omega
    · intro hne
      cases l₂ with
      | nil => exact absurd rfl hne
      | cons q l₂ =>
          have hq := hminor q (by simp)
          rw [succOf_cons]
          omega

/-- A field is read from the memory alone. -/
theorem get_mem {s t : State W} {addr : Nat} {f : Field} (hmem : s.mem = t.mem) :
    s.get addr f = t.get addr f := congrArg (fun m : FlatMemory => m.get addr f) hmem

/-- `free` of a pointer whose header has the magic number. -/
theorem free_magic {ptr min maj size : Nat} {s₁ : State W} (hptr : ptr ≠ 0)
    (hmin : sub64 (unalign s.mem ptr) minorSize = min) (hmagic : s.get min Minor.magic = magic)
    (hmaj : s.get min Minor.block = maj) (hsize : s.get min Minor.size = size)
    (hs₁ : s₁ = { s with inuse := sub64 s.inuse size }) :
    s.free P ptr = State.settle P
      (((s₁.set maj Major.usage (sub64 (s₁.get maj Major.usage) (size + minorSize))).set min
        Minor.magic dead).unlinkMinor maj min) maj := by
  have hmem : s₁.mem = s.mem := by rw [hs₁]
  have hsize₁ : s₁.get min Minor.size = size := (get_mem hmem).trans hsize
  unfold State.free
  rw [if_neg hptr]
  simp only [hmin, hmagic, hmaj, hsize, ← hs₁, hsize₁, ne_eq, not_true_eq_false, if_false]

/-- **The block is out of the list** when the end of `free` is reached. -/
theorem free_take (hr : Represents s (h₁ ++ d :: h₂)) (hblocks : d.blocks = l₁ ++ b :: l₂) :
    s.free P b.ptr = State.settle P { s with
        inuse := sub64 s.inuse b.size
        mem := storeAll s.mem (takeStores s.mem d.base (predOf l₁) (succOf l₂) b) } d.base := by
  have hd : d ∈ h₁ ++ d :: h₂ := List.mem_append_right h₁ List.mem_cons_self
  have hb : b ∈ d.blocks := by
    rw [hblocks]
    exact List.mem_append_right l₁ List.mem_cons_self
  obtain ⟨hptr, hmin⟩ := header_of_ptr hr hd hb
  have hminor := (hr.chunks d hd).minors b hb
  obtain ⟨haddr, hpred, hsucc, -, -⟩ := links_bounds (hr.ok d hd) hblocks
  obtain ⟨hprev, hnext⟩ : s.get b.addr Minor.prev = predOf l₁
      ∧ s.get b.addr Minor.next = succOf l₂ := by
    have hchunk := hr.chunks d hd
    obtain ⟨base, pages, blocks⟩ := d
    obtain rfl : blocks = l₁ ++ b :: l₂ := hblocks
    exact hchunk.links
  obtain ⟨s₁, hs₁⟩ : ∃ s₁ : State W, s₁ = { s with inuse := sub64 s.inuse b.size } := ⟨_, rfl⟩
  have hmem : s₁.mem = s.mem := by rw [hs₁]
  have hunlink := unlinkMinor_eq ((get_mem hmem).trans hprev) ((get_mem hmem).trans hnext) haddr
    hpred hsucc
  rw [free_magic hptr hmin hminor.magic hminor.block hminor.size hs₁]
  refine (congrArg (State.settle P · d.base) hunlink).trans ?_
  rw [hmem, hs₁]

/-- With blocks left the chunk stays, and may become the best bet. -/
theorem settle_kept (hr : Represents s h) (hd : d ∈ h) (hblocks : d.blocks ≠ []) :
    ∃ bet, (bet = 0 ∨ bet ∈ h.map Chunk.base) ∧ s.settle P d.base = { s with bestBet := bet } := by
  have hfirst : s.get d.base Major.first ≠ 0 := by
    have hfirst : s.get d.base Major.first = d.addrs.headD 0 := (hr.chunks d hd).first
    obtain ⟨b, l, hbl⟩ := List.exists_cons_of_ne_nil hblocks
    have hb := (hr.ok d hd).block (b := b) (hbl ▸ List.mem_cons_self)
    rw [hfirst]
    unfold Chunk.addrs
    rw [hbl]
    show b.addr ≠ 0
    omega
  unfold State.settle
  rw [if_neg hfirst]
  by_cases hbet : s.bestBet ≠ 0
  · rw [if_pos hbet]
    dsimp only
    split
    · exact ⟨d.base, Or.inr (List.mem_map_of_mem hd), rfl⟩
    · exact ⟨s.bestBet, hr.bestBet, rfl⟩
  · rw [if_neg hbet]
    exact ⟨s.bestBet, hr.bestBet, rfl⟩

theorem settle_emptied (hr : Represents s h) (hd : d ∈ h) (hblocks : d.blocks = []) :
    s.settle P d.base = s.dropMajor P d.base := by
  have hfirst : s.get d.base Major.first = d.addrs.headD 0 := (hr.chunks d hd).first
  unfold Chunk.addrs at hfirst
  rw [hblocks] at hfirst
  unfold State.settle
  exact if_pos hfirst

/-- **`free` on the whole.** -/
theorem free_spec (hr : Represents s h) (hd : d ∈ h) (hb : b ∈ d.blocks) :
    ∃ h', Frees P s.world h b (s.free P b.ptr).world h' ∧ Represents (s.free P b.ptr) h'
      ∧ ∀ x, Outside h x → Outside h' x → (s.free P b.ptr).mem x = s.mem x := by
  obtain ⟨h₁, h₂, rfl⟩ := List.append_of_mem hd
  obtain ⟨l₁, l₂, hblocks⟩ := List.append_of_mem hb
  obtain ⟨hr', hframe⟩ := hr.take hblocks
  rw [free_take hr hblocks]
  -- the state and the chunk once the block is out
  generalize ht : ({ s with
      inuse := sub64 s.inuse b.size
      mem := storeAll s.mem (takeStores s.mem d.base (predOf l₁) (succOf l₂) b) } : State W) = t
    at hr'
  have hmem : ∀ x, Outside (h₁ ++ d :: h₂) x → t.mem x = s.mem x := by
    rw [← ht]
    exact hframe
  have hworld : t.world = s.world := by rw [← ht]
  obtain ⟨d', hd', hbase, hpages⟩ : ∃ d' : Chunk, d' = ⟨d.base, d.pages, l₁ ++ l₂⟩
      ∧ d'.base = d.base ∧ d'.pages = d.pages := ⟨_, rfl, rfl, rfl⟩
  have hblocks' : d'.blocks = l₁ ++ l₂ := by rw [hd']
  rw [← hd'] at hr'
  have hmid : d' ∈ h₁ ++ d' :: h₂ := List.mem_append_right h₁ List.mem_cons_self
  by_cases hnil : l₁ ++ l₂ = []
  · -- it was the last block of its chunk
    have hsettle := settle_emptied (P := P) hr' hmid (hblocks'.trans hnil)
    obtain ⟨hdrop, hgiven, hout⟩ := hr'.drop (P := P) (hblocks'.trans hnil)
    rw [hbase, hpages, hworld] at hgiven
    rw [hbase] at hsettle hdrop hout
    obtain ⟨rfl, rfl⟩ := List.append_eq_nil_iff.mp hnil
    rw [hsettle]
    refine ⟨h₁ ++ h₂, ?_, hdrop, fun x hx hx' => (hout x hx').trans (hmem x hx)⟩
    rw [hgiven]
    exact .emptied rfl hblocks
  · have hne : d'.blocks ≠ [] := fun hempty => hnil (hblocks'.symm.trans hempty)
    obtain ⟨bet, hbet, hsettle⟩ := settle_kept (P := P) hr' hmid hne
    rw [hbase] at hsettle
    rw [hsettle]
    refine ⟨h₁ ++ d' :: h₂, ?_, hr'.withBest hbet, fun x hx _ => hmem x hx⟩
    show Frees P s.world (h₁ ++ d :: h₂) b t.world (h₁ ++ d' :: h₂)
    rw [hworld, hd']
    exact .kept rfl hblocks hnil

end Free

end MierOS.Memory.Liballoc
