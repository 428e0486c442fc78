/-
  MierOS.Lib.HeapCalls
  **WHAT THE CALLERS OF AN ALLOCATOR KNOW.**

  The calls, with the pointers they were answered, determine a ledger: which
  pointers are held, for how many bytes, and which of the bytes are known.  An
  allocator is right when the memory agrees with the ledger after any calls.

  Main results: `Call`, `ledger`, `Allowed`, `Agrees.put`, `Agrees.drop`.
-/
import MierOS.Lib.FlatMemory

namespace MierOS.Lib.HeapCalls

/-- Bytes, as far as they are known. -/
abbrev Contents := List (Option (BitVec 8))

/-- The pointers that are held. -/
abbrev Ledger := Nat → Option Contents

/-- A call and its answer, or a write to an allocation. -/
inductive Call
  | malloc (size answer : Nat)
  | calloc (nobj size answer : Nat)
  | realloc (ptr size answer : Nat)
  | free (ptr : Nat)
  | write (ptr i : Nat) (value : BitVec 8)
  deriving Repr, DecidableEq

namespace Ledger

def empty : Ledger := fun _ => none

def put (l : Ledger) (p : Nat) (bs : Contents) : Ledger := fun q => if q = p then some bs else l q

def drop (l : Ledger) (p : Nat) : Ledger := fun q => if q = p then none else l q

/-- An answer, null when the call failed. -/
def answered (l : Ledger) (p : Nat) (bs : Contents) : Ledger := if p = 0 then l else l.put p bs

end Ledger

/-- The contents of an allocation of another size: a prefix, or bytes behind it. -/
def resize (size : Nat) (bs : Contents) : Contents :=
  bs.take size ++ List.replicate (size - bs.length) none

/-- **What a call comes to.** -/
def apply (l : Ledger) : Call → Ledger
  | .malloc size p => l.answered p (List.replicate size none)
  | .calloc nobj size p => l.answered p (List.replicate (nobj * size) (some 0))
  | .realloc ptr size q => (l.drop ptr).answered q (resize size ((l ptr).getD []))
  | .free p => l.drop p
  | .write p i v => l.put p (((l p).getD []).set i (some v))

/-- The ledger after some calls, most recent first. -/
def ledger : List Call → Ledger
  | [] => Ledger.empty
  | c :: hist => apply (ledger hist) c

/-- What a caller may ask for: sizes within the limits, pointers that are held or null, and
writes inside an allocation. -/
def Allowed (limit zeroLimit : Nat) (l : Ledger) : Call → Prop
  | .malloc size _ => size ≤ limit
  | .calloc nobj size _ => nobj * size ≤ zeroLimit
  | .realloc ptr size _ => size ≤ limit ∧ (ptr = 0 ∨ (l ptr).isSome = true)
  | .free p => p = 0 ∨ (l p).isSome = true
  | .write p i _ => ∃ bs, l p = some bs ∧ i < bs.length

/-- What is answered is held by no one else. -/
def Fresh (l : Ledger) : Call → Prop
  | .malloc _ p => p ≠ 0 → l p = none
  | .calloc _ _ p => p ≠ 0 → l p = none
  | .realloc ptr _ q => q ≠ 0 → q = ptr ∨ l q = none
  | _ => True

/-- **The memory agrees with the ledger** on the bytes that are known. -/
def Agrees (m : FlatMemory) (l : Ledger) : Prop :=
  ∀ p bs i v, l p = some bs → bs[i]? = some (some v) → m (p + i) = v

section

variable {l : Ledger} {m m' : FlatMemory} {p q i n : Nat} {v : BitVec 8} {bs : Contents}

@[simp] theorem put_same : l.put p bs p = some bs := if_pos rfl

theorem put_other (hne : q ≠ p) : l.put p bs q = l q := if_neg hne

@[simp] theorem drop_same : l.drop p p = none := if_pos rfl

theorem drop_other (hne : q ≠ p) : l.drop p q = l q := if_neg hne

@[simp] theorem put_put {cs : Contents} : (l.put p cs).put p bs = l.put p bs := by
  funext q
  unfold Ledger.put
  split <;> rfl

theorem drop_put : (l.drop p).put p bs = l.put p bs := by
  funext q
  unfold Ledger.put Ledger.drop
  split <;> rfl

theorem put_drop (hne : p ≠ q) : (l.put p bs).drop q = (l.drop q).put p bs := by
  funext r
  unfold Ledger.put Ledger.drop
  by_cases hq : r = q
  · subst hq
    rw [if_pos rfl, if_neg (fun heq => hne heq.symm), if_pos rfl]
  · rw [if_neg hq, if_neg hq]

/-- What is not held is dropped already. -/
theorem drop_eq_self (h : l p = none) : l.drop p = l := by
  funext q
  unfold Ledger.drop
  split
  · next heq => rw [heq, h]
  · rfl

@[simp] theorem resize_length : (resize n bs).length = n := by
  unfold resize
  rw [List.length_append, List.length_take, List.length_replicate]
  omega

theorem resize_nil : resize n [] = List.replicate n none := by
  unfold resize
  simp

/-- A byte that is known in the new allocation was known in the old one. -/
theorem resize_known (h : (resize n bs)[i]? = some (some v)) : i < n ∧ bs[i]? = some (some v) := by
  have hi : i < (resize n bs).length := (List.getElem?_eq_some_iff.mp h).1
  rw [resize_length] at hi
  unfold resize at h
  by_cases htaken : i < (bs.take n).length
  · rw [List.getElem?_append_left htaken, List.getElem?_take_of_lt hi] at h
    exact ⟨hi, h⟩
  · -- the bytes behind are not known
    rw [List.getElem?_append_right (by omega), List.getElem?_replicate] at h
    split at h
    · exact absurd h (by simp)
    · exact absurd h (by simp)

/-- **One entry changes.** -/
theorem Agrees.put (h : Agrees m l)
    (hframe : ∀ q cs i, q ≠ p → l q = some cs → i < cs.length → m' (q + i) = m (q + i))
    (hbytes : ∀ i v, bs[i]? = some (some v) → m' (p + i) = v) : Agrees m' (l.put p bs) := by
  intro q cs i v hq hv
  by_cases hqp : q = p
  · subst hqp
    rw [put_same] at hq
    exact hbytes i v (Option.some.inj hq ▸ hv)
  · rw [put_other hqp] at hq
    rw [hframe q cs i hqp hq (List.getElem?_eq_some_iff.mp hv).1]
    exact h q cs i v hq hv

/-- **One entry goes.** -/
theorem Agrees.drop (h : Agrees m l)
    (hframe : ∀ q cs i, q ≠ p → l q = some cs → i < cs.length → m' (q + i) = m (q + i)) :
    Agrees m' (l.drop p) := by
  intro q cs i v hq hv
  by_cases hqp : q = p
  · subst hqp
    rw [drop_same] at hq
    exact absurd hq (by simp)
  · rw [drop_other hqp] at hq
    rw [hframe q cs i hqp hq (List.getElem?_eq_some_iff.mp hv).1]
    exact h q cs i v hq hv

/-- Nothing is known of the bytes of a new allocation. -/
theorem replicate_unknown : (List.replicate n (none : Option (BitVec 8)))[i]? ≠ some (some v) := by
  rw [List.getElem?_replicate]
  split <;> simp

/-- The byte that was written is the only one that is known anew. -/
theorem set_known {w : BitVec 8} (h : (bs.set i (some w))[n]? = some (some v)) :
    (n = i ∧ v = w) ∨ (n ≠ i ∧ bs[n]? = some (some v)) := by
  by_cases hn : i = n
  · subst hn
    have hlt := (List.getElem?_eq_some_iff.mp h).1
    rw [List.length_set] at hlt
    rw [List.getElem?_set_self hlt] at h
    simp only [Option.some.injEq] at h
    exact Or.inl ⟨rfl, h.symm⟩
  · rw [List.getElem?_set_ne hn] at h
    exact Or.inr ⟨fun heq => hn heq.symm, h⟩

end

end MierOS.Lib.HeapCalls
