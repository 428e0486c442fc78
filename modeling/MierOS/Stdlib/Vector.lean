/-
  MierOS.Stdlib.Vector
  **`std::Vector`** of `kernel/std/include/vector.hpp`, over trivially copyable
  elements of `sizeofT` bytes.

  Sizes and capacities count elements, `new T[n]` and `f_elements[i]` too, but
  `memcpy` counts bytes: `reserve` multiplies by `sizeof(T)`, the copies do not.

  Buffers are bytes here, and what `new T[n]` answers with holds what the memory
  happened to hold (`fresh`).  An access outside of a buffer has no result, so
  "every access is below the capacity" is "every call returns".

  A vector is one of several that live at the same time, named by their place in
  a list: copies are new ones, and a vector may be assigned to itself.  Values
  that are passed by reference lie outside of the vectors.
-/
import MierOS.Lib.Run

namespace MierOS.Stdlib

open Lib

/-! ## §1. Buffers of bytes. -/

/-- An element, as its bytes. -/
abbrev Elem (sizeofT : Nat) := { bytes : List UInt8 // bytes.length = sizeofT }

/-- `n` bytes from the allocator, as `fresh` says they are. -/
def allocBytes (fresh : Nat → UInt8) (n : Nat) : List UInt8 := (List.range n).map fresh

/-- `memcpy`, within both buffers. -/
def memcpy (dst src : List UInt8) (n : Nat) : Option (List UInt8) :=
  if n ≤ dst.length ∧ n ≤ src.length then some (src.take n ++ dst.drop n) else none

/-- The bytes of elements one after another. -/
def bytesOf {sizeofT : Nat} (l : List (Elem sizeofT)) : List UInt8 :=
  l.flatMap Subtype.val

/-- `Vector<T>`; `elements` is the array that `f_elements` points to, if any. -/
structure StdVector (sizeofT : Nat) where
  elements : Option (List UInt8)
  size : Nat
  capacity : Nat
  deriving Repr, DecidableEq

namespace StdVector

variable {sizeofT : Nat}

/-! ## §2. The operations. -/

/-- `INITIAL_SIZE`. -/
def initialSize : Nat := 16

/-- `Vector()`. -/
def empty (fresh : Nat → UInt8) : StdVector sizeofT where
  elements := some (allocBytes fresh (initialSize * sizeofT))
  size := 0
  capacity := initialSize

/-- The vector with these bytes in its array. -/
def withBuffer (v : StdVector sizeofT) (buffer : List UInt8) : StdVector sizeofT :=
  { v with elements := some buffer }

/-- `f_elements[index] = value`. -/
def store (v : StdVector sizeofT) (index : Nat) (value : Elem sizeofT) :
    Option (StdVector sizeofT) := do
  let buffer ← v.elements
  if (index + 1) * sizeofT ≤ buffer.length then
    let before := buffer.take (index * sizeofT)
    let behind := buffer.drop ((index + 1) * sizeofT)
    some (v.withBuffer (before ++ (value.val ++ behind)))
  else none

/-- `f_elements[index]`. -/
def load (v : StdVector sizeofT) (index : Nat) : Option (Elem sizeofT) := do
  let buffer ← v.elements
  if h : (index + 1) * sizeofT ≤ buffer.length then
    some ⟨(buffer.drop (index * sizeofT)).take sizeofT, by
      rw [Nat.succ_mul] at h
      rw [List.length_take, List.length_drop]
      omega⟩
  else none

/-- `reserve(capacity)`. -/
def reserve (v : StdVector sizeofT) (capacity : Nat) (fresh : Nat → UInt8) :
    Option (StdVector sizeofT) := do
  let newBuffer := allocBytes fresh (capacity * sizeofT)
  let newSize := if capacity < v.size then capacity else v.size
  let newBuffer ← match v.elements with
    | some elements => memcpy newBuffer elements (newSize * sizeofT)
    | none => some newBuffer
  some { elements := some newBuffer, size := newSize, capacity := capacity }

/-- `resize(size, initial_value)`. -/
def resize (v : StdVector sizeofT) (size : Nat) (value : Elem sizeofT) (fresh : Nat → UInt8) :
    Option (StdVector sizeofT) := do
  let oldSize := v.size
  let v ← v.reserve size fresh
  (List.range (size - oldSize)).foldlM (fun v i => v.store (oldSize + i) value) v

/-- `clear()`. -/
def clear (_ : StdVector sizeofT) : StdVector sizeofT where
  elements := none
  size := 0
  capacity := 0

/-- The first line of `push_back`. -/
def grow (v : StdVector sizeofT) (fresh : Nat → UInt8) : Option (StdVector sizeofT) :=
  if v.size = v.capacity then v.reserve (v.capacity + initialSize) fresh else some v

/-- `push_back(value)`. -/
def pushBack (v : StdVector sizeofT) (value : Elem sizeofT) (fresh : Nat → UInt8) :
    Option (StdVector sizeofT) := do
  let v ← v.grow fresh
  let v' ← v.store v.size value
  some { v' with size := v.size + 1 }

/-- `pop_back()`. -/
def popBack (v : StdVector sizeofT) : StdVector sizeofT := { v with size := v.size - 1 }

/-- `Vector(const Vector&)`: the number of BYTES copied is `f_size`. -/
def copy (vector : StdVector sizeofT) (fresh : Nat → UInt8) : Option (StdVector sizeofT) := do
  let elements ← vector.elements
  let buffer ← memcpy (allocBytes fresh (vector.capacity * sizeofT)) elements vector.size
  some { elements := some buffer, size := vector.size, capacity := vector.capacity }

/-- `operator=(const Vector&)` of the vector `this`, which may be `vector`: what it reads
of `vector` it reads after `clear()`. -/
def assign (s : List (StdVector sizeofT)) (this vector : Nat) (fresh : Nat → UInt8) :
    Option (List (StdVector sizeofT)) := do
  let self ← s[this]?
  let s := s.set this self.clear
  let source ← s[vector]?
  let buffer := allocBytes fresh (source.capacity * sizeofT)
  let s := s.set this { elements := some buffer, size := source.size, capacity := source.capacity }
  let source ← s[vector]?
  let elements ← source.elements
  let buffer ← memcpy buffer elements source.size
  some (s.set this { elements := some buffer, size := source.size, capacity := source.capacity })

/-! ## §3. What the bytes say. -/

/-- The buffer has the capacity's length and the size fits. -/
structure Valid (v : StdVector sizeofT) (buffer : List UInt8) : Prop where
  elements : v.elements = some buffer
  length : buffer.length = v.capacity * sizeofT
  size_le : v.size ≤ v.capacity

/-- **The vector reads as `l`**: `size()` and the elements below it. -/
def Shows (v : StdVector sizeofT) (l : List (Elem sizeofT)) : Prop :=
  v.size = l.length ∧ ∀ i (h : i < l.length), v.load i = some l[i]

variable {v v' : StdVector sizeofT} {buffer : List UInt8} {l l' : List (Elem sizeofT)}
  {x : Elem sizeofT} {fresh : Nat → UInt8}

theorem bytesOf_length (l : List (Elem sizeofT)) : (bytesOf l).length = l.length * sizeofT := by
  induction l with
  | nil => simp [bytesOf]
  | cons x l ih =>
      show (x.val ++ bytesOf l).length = _
      rw [List.length_append, ih, x.property, List.length_cons, Nat.succ_mul]
      omega

theorem bytesOf_append (l l' : List (Elem sizeofT)) : bytesOf (l ++ l') = bytesOf l ++ bytesOf l' :=
  List.flatMap_append

theorem bytesOf_take (l : List (Elem sizeofT)) (n : Nat) :
    bytesOf (l.take n) = (bytesOf l).take (n * sizeofT) := by
  have hsplit : bytesOf l = bytesOf (l.take n) ++ bytesOf (l.drop n) := by
    rw [← bytesOf_append, List.take_append_drop]
  have hlength := bytesOf_length (l.take n)
  rcases Nat.le_total n l.length with hle | hle
  · rw [List.length_take, Nat.min_eq_left hle] at hlength
    rw [hsplit, ← hlength, List.take_left]
  · rw [List.take_of_length_le hle, List.take_of_length_le]
    rw [bytesOf_length]
    exact Nat.mul_le_mul_right _ hle

/-- **A buffer that starts with the bytes of `l`** has the elements of `l` at their places. -/
theorem take_eq_bytesOf_iff (l : List (Elem sizeofT)) : ∀ buffer : List UInt8,
    l.length * sizeofT ≤ buffer.length →
    (buffer.take (l.length * sizeofT) = bytesOf l
      ↔ ∀ i (h : i < l.length), (buffer.drop (i * sizeofT)).take sizeofT = l[i].val) := by
  induction l with
  | nil => intro buffer _; simp [bytesOf]
  | cons x l ih =>
      intro buffer hle
      rw [List.length_cons, Nat.succ_mul] at hle
      have hrest := ih (buffer.drop sizeofT) (by
        rw [List.length_drop]
        omega)
      have hsplit : buffer.take ((l.length + 1) * sizeofT)
          = buffer.take sizeofT ++ (buffer.drop sizeofT).take (l.length * sizeofT) := by
        rw [Nat.succ_mul, Nat.add_comm, List.take_add]
      have hx : (buffer.take sizeofT).length = x.val.length := by
        rw [List.length_take, x.property]
        omega
      show buffer.take ((l.length + 1) * sizeofT) = x.val ++ bytesOf l ↔ _
      rw [hsplit]
      constructor
      · intro h i hi
        obtain ⟨hfirst, hlast⟩ := List.append_inj h hx
        cases i with
        | zero => simpa using hfirst
        | succ i =>
            have hi' := hrest.mp hlast i (Nat.lt_of_succ_lt_succ hi)
            rw [List.drop_drop] at hi'
            rw [Nat.succ_mul, Nat.add_comm]
            exact hi'
      · intro h
        have hfirst := h 0 (Nat.zero_lt_succ _)
        rw [Nat.zero_mul, List.drop_zero] at hfirst
        rw [hfirst, hrest.mpr fun i hi => ?_]
        · rfl
        · have hi' := h (i + 1) (Nat.succ_lt_succ hi)
          rw [Nat.succ_mul, Nat.add_comm] at hi'
          rw [List.drop_drop]
          exact hi'

theorem Valid.bytes_le (hv : Valid v buffer) : v.size * sizeofT ≤ buffer.length := by
  rw [hv.length]
  exact Nat.mul_le_mul_right _ hv.size_le

/-- **What a vector reads as** is what its buffer starts with. -/
theorem Valid.shows_iff (hv : Valid v buffer) :
    v.Shows l ↔ v.size = l.length ∧ buffer.take (v.size * sizeofT) = bytesOf l := by
  refine and_congr_right fun hsize => ?_
  have hle := hv.bytes_le
  rw [hsize] at hle ⊢
  rw [take_eq_bytesOf_iff l buffer hle]
  refine forall_congr' fun i => forall_congr' fun hi => ?_
  have hin : (i + 1) * sizeofT ≤ buffer.length :=
    Nat.le_trans (Nat.mul_le_mul_right _ hi) hle
  unfold load
  rw [hv.elements]
  show (if h : (i + 1) * sizeofT ≤ buffer.length then _ else none) = some l[i] ↔ _
  rw [dif_pos hin, Option.some_inj, Subtype.ext_iff]

/-! ## §4. One vector. -/

theorem allocBytes_length (fresh : Nat → UInt8) (n : Nat) : (allocBytes fresh n).length = n := by
  simp [allocBytes]

/-- **`memcpy` within both buffers** replaces the first `n` bytes. -/
theorem memcpy_spec {dst src : List UInt8} {n : Nat} (hdst : n ≤ dst.length) (hsrc : n ≤ src.length) :
    ∃ out, memcpy dst src n = some out ∧ out.length = dst.length ∧ out.take n = src.take n
      ∧ out.drop n = dst.drop n := by
  have hlength : (src.take n).length = n := by rw [List.length_take, Nat.min_eq_left hsrc]
  refine ⟨src.take n ++ dst.drop n, if_pos ⟨hdst, hsrc⟩, ?_, ?_, ?_⟩
  · rw [List.length_append, hlength, List.length_drop]
    omega
  · exact (congrArg (List.take · _) hlength.symm).trans List.take_left
  · exact (congrArg (List.drop · _) hlength.symm).trans List.drop_left

theorem valid_empty (fresh : Nat → UInt8) :
    Valid (empty fresh : StdVector sizeofT) (allocBytes fresh (initialSize * sizeofT)) :=
  ⟨rfl, allocBytes_length _ _, Nat.zero_le _⟩

/-- **A write below the capacity** replaces the bytes of one element. -/
theorem Valid.store (hv : Valid v buffer) {i : Nat} (hi : i < v.capacity) (x : Elem sizeofT) :
    ∃ buffer', v.store i x = some (v.withBuffer buffer') ∧ Valid (v.withBuffer buffer') buffer'
      ∧ buffer'.take (i * sizeofT) = buffer.take (i * sizeofT)
      ∧ buffer'.take ((i + 1) * sizeofT) = buffer.take (i * sizeofT) ++ x.val := by
  have hin : (i + 1) * sizeofT ≤ buffer.length := by
    rw [hv.length]
    exact Nat.mul_le_mul_right _ hi
  have hbefore : (buffer.take (i * sizeofT)).length = i * sizeofT := by
    rw [List.length_take, Nat.min_eq_left]
    rw [Nat.succ_mul] at hin
    omega
  refine ⟨buffer.take (i * sizeofT) ++ (x.val ++ buffer.drop ((i + 1) * sizeofT)), ?_,
    ⟨rfl, ?_, hv.size_le⟩, ?_, ?_⟩
  · unfold StdVector.store
    rw [hv.elements]
    exact if_pos hin
  · show List.length _ = v.capacity * sizeofT
    rw [← hv.length, List.length_append, List.length_append, hbefore, x.property, List.length_drop]
    rw [Nat.succ_mul] at hin ⊢
    omega
  · exact (congrArg (List.take · _) hbefore.symm).trans List.take_left
  · rw [← List.append_assoc]
    have hlength : (buffer.take (i * sizeofT) ++ x.val).length = (i + 1) * sizeofT := by
      rw [List.length_append, hbefore, x.property, Nat.succ_mul]
    rw [← hlength, List.take_left]

/-- **`reserve`** keeps the elements that fit. -/
theorem Valid.reserve (hv : Valid v buffer) (capacity : Nat) (fresh : Nat → UInt8) :
    ∃ v' buffer', v.reserve capacity fresh = some v' ∧ Valid v' buffer'
      ∧ v'.capacity = capacity ∧ v'.size = min capacity v.size
      ∧ buffer'.take (v'.size * sizeofT) = buffer.take (v'.size * sizeofT) := by
  have hsize : (if capacity < v.size then capacity else v.size) = min capacity v.size := by
    split
    · rw [Nat.min_eq_left (Nat.le_of_lt ‹_›)]
    · rw [Nat.min_eq_right (Nat.le_of_not_lt ‹_›)]
  have hdst : min capacity v.size * sizeofT
      ≤ (allocBytes fresh (capacity * sizeofT)).length := by
    rw [allocBytes_length]
    exact Nat.mul_le_mul_right _ (Nat.min_le_left _ _)
  have hsrc : min capacity v.size * sizeofT ≤ buffer.length :=
    Nat.le_trans (Nat.mul_le_mul_right _ (Nat.min_le_right _ _)) hv.bytes_le
  obtain ⟨out, hcopy, hlength, htake, -⟩ := memcpy_spec hdst hsrc
  refine ⟨⟨some out, min capacity v.size, capacity⟩, out, ?_, ⟨rfl, ?_, Nat.min_le_left _ _⟩, rfl,
    rfl, htake⟩
  · unfold StdVector.reserve
    simp only [hv.elements, hsize]
    show (memcpy _ buffer _).bind _ = _
    rw [hcopy]
    rfl
  · rw [hlength, allocBytes_length]

/-- **`push_back`** appends. -/
theorem Valid.pushBack (hv : Valid v buffer) (x : Elem sizeofT) (fresh : Nat → UInt8) :
    ∃ v' buffer', v.pushBack x fresh = some v' ∧ Valid v' buffer'
      ∧ ∀ l, v.Shows l → v'.Shows (l ++ [x]) := by
  -- after growing, if need be, there is room for one more
  obtain ⟨w, wbuffer, hgrow, hw, hroom, hsize, hbytes⟩ : ∃ w wbuffer, v.grow fresh = some w
        ∧ Valid w wbuffer ∧ w.size < w.capacity ∧ w.size = v.size
        ∧ wbuffer.take (v.size * sizeofT) = buffer.take (v.size * sizeofT) := by
    by_cases hfull : v.size = v.capacity
    · obtain ⟨w, wbuffer, hreserve, hw, hcap, hsize, hbytes⟩ :=
        hv.reserve (v.capacity + initialSize) fresh
      rw [Nat.min_eq_right (by omega)] at hsize
      rw [hsize] at hbytes
      refine ⟨w, wbuffer, by rw [grow, if_pos hfull, hreserve], hw, ?_, hsize, hbytes⟩
      rw [hsize, hcap, initialSize]
      omega
    · have hle := hv.size_le
      exact ⟨v, buffer, by rw [grow, if_neg hfull], hv, by omega, rfl, rfl⟩
  obtain ⟨buffer', hstore, hv', -, hbytes'⟩ := hw.store hroom x
  have hvalid : Valid (⟨some buffer', w.size + 1, w.capacity⟩ : StdVector sizeofT) buffer' :=
    ⟨rfl, hv'.length, hroom⟩
  refine ⟨_, buffer', ?_, hvalid, fun l hshows => ?_⟩
  · unfold StdVector.pushBack
    rw [hgrow]
    show (w.store w.size x).bind _ = _
    rw [hstore]
    rfl
  · obtain ⟨hlen, hl⟩ := hv.shows_iff.mp hshows
    refine hvalid.shows_iff.mpr ⟨?_, ?_⟩
    · show w.size + 1 = _
      rw [hsize, hlen, List.length_append, List.length_singleton]
    · show buffer'.take ((w.size + 1) * sizeofT) = _
      rw [hbytes', hsize, hbytes, hl, bytesOf_append]
      simp [bytesOf]

/-- **`pop_back`** drops the last. -/
theorem Valid.popBack (hv : Valid v buffer) :
    Valid v.popBack buffer ∧ ∀ l, v.Shows l → v.popBack.Shows l.dropLast := by
  have hvalid : Valid v.popBack buffer :=
    ⟨hv.elements, hv.length, Nat.le_trans (Nat.sub_le _ _) hv.size_le⟩
  refine ⟨hvalid, fun l hshows => ?_⟩
  obtain ⟨hlen, hl⟩ := hv.shows_iff.mp hshows
  refine hvalid.shows_iff.mpr ⟨?_, ?_⟩
  · show v.size - 1 = _
    rw [hlen, List.length_dropLast]
  · show buffer.take ((v.size - 1) * sizeofT) = _
    rw [List.dropLast_eq_take, bytesOf_take, ← hlen, ← hl, List.take_take,
      Nat.min_eq_left (Nat.mul_le_mul_right _ (Nat.sub_le _ _))]

/-- **`reserve`** of enough changes nothing that shows. -/
theorem Valid.reserve_shows (hv : Valid v buffer) {capacity : Nat} (hle : v.size ≤ capacity)
    (fresh : Nat → UInt8) :
    ∃ v' buffer', v.reserve capacity fresh = some v' ∧ Valid v' buffer'
      ∧ ∀ l, v.Shows l → v'.Shows l := by
  obtain ⟨v', buffer', hreserve, hv', -, hsize, hbytes⟩ := hv.reserve capacity fresh
  rw [Nat.min_eq_right hle] at hsize
  refine ⟨v', buffer', hreserve, hv', fun l hshows => ?_⟩
  obtain ⟨hlen, hl⟩ := hv.shows_iff.mp hshows
  exact hv'.shows_iff.mpr ⟨hsize.trans hlen, by rw [hbytes, hsize, hl]⟩

/-- **`resize`** returns, truncates, and never grows. -/
theorem Valid.resize (hv : Valid v buffer) (size : Nat) (x : Elem sizeofT) (fresh : Nat → UInt8) :
    ∃ v' buffer', v.resize size x fresh = some v' ∧ Valid v' buffer'
      ∧ ∀ l, v.Shows l →
          (v'.Shows (l.take size ++ List.replicate (size - l.length) x) ↔ size ≤ v.size) := by
  obtain ⟨w, wbuffer, hreserve, hw, hcap, hsize, hbytes⟩ := hv.reserve size fresh
  obtain ⟨v', hrun, buffer', hv', -, hsize', hsame⟩ : ∃ v',
      (List.range (size - v.size)).foldlM (fun u i => u.store (v.size + i) x) w = some v'
        ∧ ∃ buffer', Valid v' buffer' ∧ v'.capacity = size ∧ v'.size = w.size
          ∧ (size ≤ v.size → v' = w) := by
    refine loop_returns (I := fun _ u => ∃ ubuffer, Valid u ubuffer ∧ u.capacity = size
      ∧ u.size = w.size ∧ (size ≤ v.size → u = w)) ⟨wbuffer, hw, hcap, rfl, fun _ => rfl⟩ ?_
    intro m u hm _ ⟨ubuffer, hu, hucap, husize, _⟩
    obtain ⟨ubuffer', hstore, hu', -, -⟩ := hu.store (i := v.size + m) (by omega) x
    exact ⟨_, hstore, ubuffer', hu', hucap, husize, fun hle => by omega⟩
  refine ⟨v', buffer', ?_, hv', fun l hshows => ?_⟩
  · unfold StdVector.resize
    rw [hreserve]
    exact hrun
  · obtain ⟨hlen, hl⟩ := hv.shows_iff.mp hshows
    constructor
    · intro hshows'
      -- `f_size` is what `reserve` made of it
      have hsize'' := hshows'.1
      rw [hsize', hsize, List.length_append, List.length_take, List.length_replicate] at hsize''
      omega
    · intro hle
      have hv'w := hsame hle
      subst hv'w
      rw [Nat.min_eq_left hle] at hsize
      refine hw.shows_iff.mpr ⟨?_, ?_⟩
      · rw [hsize, List.length_append, List.length_take, List.length_replicate]
        omega
      · rw [hbytes, Nat.sub_eq_zero_of_le (by omega), List.replicate_zero, List.append_nil,
          bytesOf_take, ← hl, List.take_take, hsize,
          Nat.min_eq_left (Nat.mul_le_mul_right _ hle)]

/-- The bytes that a copy leaves as they are, from byte `f_size` on, are already those of
the source. -/
def FreshAgrees (v : StdVector sizeofT) (fresh : Nat → UInt8) : Prop :=
  ∀ k, v.size ≤ k → k < v.size * sizeofT → v.elements.bind (·[k]?) = some (fresh k)

/-- **Copying `f_size` bytes** copies the elements exactly when the other bytes agree. -/
theorem Valid.copyBytes (hv : Valid v buffer) (hpos : 0 < sizeofT) (fresh : Nat → UInt8) :
    ∃ buffer', memcpy (allocBytes fresh (v.capacity * sizeofT)) buffer v.size = some buffer'
      ∧ Valid (v.withBuffer buffer') buffer'
      ∧ ∀ l, v.Shows l → ((v.withBuffer buffer').Shows l ↔ v.FreshAgrees fresh) := by
  have hbytes := hv.bytes_le
  have hle : v.size ≤ v.size * sizeofT := Nat.le_mul_of_pos_right _ hpos
  have hdst : v.size ≤ (allocBytes fresh (v.capacity * sizeofT)).length := by
    rw [allocBytes_length, ← hv.length]
    omega
  obtain ⟨out, hcopy, hlength, htake, hdrop⟩ := memcpy_spec hdst (Nat.le_trans hle hbytes)
  have hvalid : Valid (v.withBuffer out) out :=
    ⟨rfl, by rw [hlength, allocBytes_length]; rfl, hv.size_le⟩
  refine ⟨out, hcopy, hvalid, fun l hshows => ?_⟩
  obtain ⟨hlen, hl⟩ := hv.shows_iff.mp hshows
  rw [hvalid.shows_iff, and_iff_right (show (v.withBuffer out).size = l.length from hlen), ← hl]
  show out.take (v.size * sizeofT) = buffer.take (v.size * sizeofT) ↔ _
  -- byte by byte: below `f_size` both are the source's, from there on one is `fresh`
  have hbelow : ∀ k, k < v.size → out[k]? = buffer[k]? := fun k hk => by
    have hk' := congrArg (·[k]?) htake
    simpa only [List.getElem?_take_of_lt hk] using hk'
  have habove : ∀ k, v.size ≤ k → k < v.capacity * sizeofT → out[k]? = some (fresh k) := by
    intro k hk hlt
    have hk' := congrArg (·[k - v.size]?) hdrop
    simp only [List.getElem?_drop, Nat.add_sub_cancel' hk] at hk'
    rw [hk', allocBytes, List.getElem?_map, List.getElem?_range hlt]
    rfl
  rw [hv.length] at hbytes
  constructor
  · intro h k hk hlt
    have hk' := congrArg (·[k]?) h
    simp only [List.getElem?_take_of_lt hlt] at hk'
    rw [hv.elements, ← habove k hk (by omega), hk']
    rfl
  · intro h
    refine List.ext_getElem? fun k => ?_
    by_cases hlt : k < v.size * sizeofT
    · rw [List.getElem?_take_of_lt hlt, List.getElem?_take_of_lt hlt]
      rcases Nat.lt_or_ge k v.size with hk | hk
      · exact hbelow k hk
      · have hk' := h k hk hlt
        rw [hv.elements] at hk'
        exact (habove k hk (by omega)).trans hk'.symm
    · rw [List.getElem?_take_eq_none (by omega), List.getElem?_take_eq_none (by omega)]

/-! ## §5. Vectors that live at the same time. -/

/-- One call; `i`, `this` and `vector` are the places of vectors. -/
inductive Call (sizeofT : Nat) where
  | pushBack (i : Nat) (value : Elem sizeofT)
  | popBack (i : Nat)
  | reserve (i capacity : Nat)
  | resize (i size : Nat) (value : Elem sizeofT)
  | copy (i : Nat)
  | assign (this vector : Nat)

/-- `fresh` is what the memory holds that the call allocates. -/
def exec (fresh : Nat → UInt8) (s : List (StdVector sizeofT)) :
    Call sizeofT → Option (List (StdVector sizeofT))
  | .pushBack i value => do
      let v ← s[i]?
      let v ← v.pushBack value fresh
      some (s.set i v)
  | .popBack i => do
      let v ← s[i]?
      some (s.set i v.popBack)
  | .reserve i capacity => do
      let v ← s[i]?
      let v ← v.reserve capacity fresh
      some (s.set i v)
  | .resize i size value => do
      let v ← s[i]?
      let v ← v.resize size value fresh
      some (s.set i v)
  | .copy i => do
      let v ← s[i]?
      let v ← v.copy fresh
      some (s ++ [v])
  | .assign this vector => assign s this vector fresh

/-- What callers see to: the vectors exist, `pop_back` finds an element and `reserve` does
not drop any. -/
def Call.Proper (s : List (StdVector sizeofT)) : Call sizeofT → Prop
  | .pushBack i _ => i < s.length
  | .popBack i => ∃ v, s[i]? = some v ∧ v.size ≠ 0
  | .reserve i capacity => ∃ v, s[i]? = some v ∧ v.size ≤ capacity
  | .resize i _ _ => i < s.length
  | .copy i => i < s.length
  | .assign this vector => this < s.length ∧ vector < s.length

/-- `resize` does not grow, a copied vector's bytes behind the first `f_size` are where
they should be already, and only an empty vector is assigned to itself. -/
def Call.Safe (s : List (StdVector sizeofT)) (fresh : Nat → UInt8) : Call sizeofT → Prop
  | .pushBack _ _ => True
  | .popBack _ => True
  | .reserve _ _ => True
  | .resize i size _ => ∀ v, s[i]? = some v → size ≤ v.size
  | .copy i => ∀ v, s[i]? = some v → v.FreshAgrees fresh
  | .assign this vector => ∀ v, s[vector]? = some v →
      if this = vector then v.size = 0 else v.FreshAgrees fresh

/-- One list changed. -/
def update (ls : List (List (Elem sizeofT))) (i : Nat)
    (f : List (Elem sizeofT) → List (Elem sizeofT)) : List (List (Elem sizeofT)) :=
  match ls[i]? with
  | some l => ls.set i (f l)
  | none => ls

/-- **The abstract lists.** -/
def Call.apply (ls : List (List (Elem sizeofT))) : Call sizeofT → List (List (Elem sizeofT))
  | .pushBack i value => update ls i (· ++ [value])
  | .popBack i => update ls i List.dropLast
  | .reserve _ _ => ls
  | .resize i size value => update ls i fun l => l.take size ++ List.replicate (size - l.length) value
  | .copy i => ls ++ ls[i]?.toList
  | .assign this vector => update ls this fun l => ls[vector]?.getD l

/-- Every vector reads as its list. -/
def ShowsAll (s : List (StdVector sizeofT)) (ls : List (List (Elem sizeofT))) : Prop :=
  s.length = ls.length ∧ ∀ (i : Nat) v l, s[i]? = some v → ls[i]? = some l → v.Shows l

/-- Every vector has a buffer of its capacity and a size that fits. -/
def AllValid (s : List (StdVector sizeofT)) : Prop := ∀ v ∈ s, ∃ buffer, Valid v buffer

variable {s s' : List (StdVector sizeofT)} {ls : List (List (Elem sizeofT))} {i : Nat}
  {c : Call sizeofT}

theorem AllValid.set (h : AllValid s) (hv : Valid v buffer) : AllValid (s.set i v) := by
  intro w hw
  rcases List.mem_or_eq_of_mem_set hw with hw | rfl
  · exact h w hw
  · exact ⟨buffer, hv⟩

theorem ShowsAll.get (h : ShowsAll s ls) (hv : s[i]? = some v) : ∃ l, ls[i]? = some l ∧ v.Shows l := by
  obtain ⟨hlt, -⟩ := List.getElem?_eq_some_iff.mp hv
  rw [h.1] at hlt
  exact ⟨ls[i], List.getElem?_eq_getElem hlt, h.2 i v _ hv (List.getElem?_eq_getElem hlt)⟩

/-- **Frame**: one vector changed, and one list. -/
theorem ShowsAll.set_iff (h : ShowsAll s ls) (hv : s[i]? = some v) (hl : ls[i]? = some l) :
    ShowsAll (s.set i v') (ls.set i l') ↔ v'.Shows l' := by
  obtain ⟨hi, -⟩ := List.getElem?_eq_some_iff.mp hv
  obtain ⟨hi', -⟩ := List.getElem?_eq_some_iff.mp hl
  constructor
  · intro h'
    exact h'.2 i v' l' (List.getElem?_set_self hi) (List.getElem?_set_self hi')
  · intro hshows
    refine ⟨by rw [List.length_set, List.length_set, h.1], fun k w m hw hm => ?_⟩
    by_cases hk : i = k
    · subst hk
      rw [List.getElem?_set_self hi] at hw
      rw [List.getElem?_set_self hi'] at hm
      rw [← Option.some.inj hw, ← Option.some.inj hm]
      exact hshows
    · rw [List.getElem?_set_ne hk] at hw hm
      exact h.2 k w m hw hm

/-- The same for `update`. -/
theorem ShowsAll.update_iff (h : ShowsAll s ls) (hv : s[i]? = some v)
    {f : List (Elem sizeofT) → List (Elem sizeofT)} {P : Prop}
    (hf : ∀ l, v.Shows l → (v'.Shows (f l) ↔ P)) :
    ShowsAll (s.set i v') (update ls i f) ↔ P := by
  obtain ⟨l, hl, hshows⟩ := h.get hv
  unfold update
  rw [hl]
  exact (h.set_iff hv hl).trans (hf l hshows)

theorem ShowsAll.append_iff (h : ShowsAll s ls) : ShowsAll (s ++ [v]) (ls ++ [l]) ↔ v.Shows l := by
  constructor
  · intro h'
    refine h'.2 s.length v l List.getElem?_concat_length ?_
    rw [h.1]
    exact List.getElem?_concat_length
  · intro hshows
    refine ⟨by rw [List.length_append, List.length_append, h.1]; rfl, fun k w m hw hm => ?_⟩
    rcases Nat.lt_trichotomy k s.length with hk | hk | hk
    · rw [List.getElem?_append_left hk] at hw
      rw [List.getElem?_append_left (h.1 ▸ hk)] at hm
      exact h.2 k w m hw hm
    · rw [hk, List.getElem?_concat_length] at hw
      rw [hk, h.1, List.getElem?_concat_length] at hm
      rw [← Option.some.inj hw, ← Option.some.inj hm]
      exact hshows
    · rw [List.getElem?_eq_none (by rw [List.length_append, List.length_singleton]; omega)] at hw
      cases hw

/-- **Assigning another vector** copies its bytes like the copy constructor. -/
theorem assign_other {this vector : Nat} {w : StdVector sizeofT} (hv : s[this]? = some v)
    (hw : s[vector]? = some w) (hne : this ≠ vector) {elements out : List UInt8}
    (helements : w.elements = some elements)
    (hcopy : memcpy (allocBytes fresh (w.capacity * sizeofT)) elements w.size = some out) :
    assign s this vector fresh = some (s.set this (w.withBuffer out)) := by
  unfold assign
  simp only [hv, Option.bind_eq_bind, Option.bind_some, List.getElem?_set_ne hne, hw, helements,
    hcopy, List.set_set]
  rfl

/-- **Assigning a vector to itself** finds it cleared. -/
theorem assign_self {this : Nat} (hv : s[this]? = some v) :
    assign s this this fresh = some (s.set this ⟨some [], 0, 0⟩) := by
  obtain ⟨hlt, -⟩ := List.getElem?_eq_some_iff.mp hv
  unfold assign
  simp only [hv, Option.bind_eq_bind, Option.bind_some, List.getElem?_set_self hlt, clear,
    List.set_set, Nat.zero_mul]
  rfl

/-- A vector that is there, with its buffer. -/
theorem AllValid.get (h : AllValid s) {k : Nat} (hk : k < s.length) :
    ∃ v buffer, s[k]? = some v ∧ Valid v buffer := by
  obtain ⟨buffer, hv⟩ := h _ (List.getElem_mem hk)
  exact ⟨_, buffer, List.getElem?_eq_getElem hk, hv⟩

/-- What is asked of the vector at an index is asked of the one that is there. -/
theorem forall_vector_iff (P : StdVector sizeofT → Prop) {k : Nat} (hv : s[k]? = some v) :
    (∀ w, s[k]? = some w → P w) ↔ P v :=
  ⟨fun h => h v hv, fun h _ hw => Option.some.inj (hv.symm.trans hw) ▸ h⟩

/-- **`operator=`** between two vectors, and of a vector to itself, which is empty in the
end. -/
theorem exec_assign (hpos : 0 < sizeofT) (fresh : Nat → UInt8) (hvalid : AllValid s)
    {this vector : Nat} (hproper : (Call.assign this vector).Proper s) :
    ∃ s', exec fresh s (.assign this vector) = some s' ∧ AllValid s'
      ∧ ∀ ls, ShowsAll s ls →
        (ShowsAll s' ((Call.assign this vector).apply ls)
          ↔ (Call.assign this vector).Safe s fresh) := by
  obtain ⟨v, buffer, hi, hv⟩ := hvalid.get hproper.1
  obtain ⟨w, wbuffer, hj, hw⟩ := hvalid.get hproper.2
  by_cases hsame : this = vector
  · subst hsame
    have hempty : Valid (⟨some [], 0, 0⟩ : StdVector sizeofT) [] :=
      ⟨rfl, (Nat.zero_mul _).symm, Nat.le_refl _⟩
    refine ⟨_, assign_self hi, hvalid.set hempty, fun ls hls => ?_⟩
    have hiff : ∀ l, v.Shows l → (Shows (⟨some [], 0, 0⟩ : StdVector sizeofT) (ls[this]?.getD l)
        ↔ v.size = 0) := by
      intro l hl
      obtain ⟨l', hl', hshows'⟩ := hls.get hi
      rw [hl', Option.getD_some, hempty.shows_iff, hshows'.1]
      exact ⟨fun h => h.1.symm, fun h => ⟨h.symm, by
        rw [List.eq_nil_of_length_eq_zero h]
        exact List.take_nil⟩⟩
    refine (hls.update_iff hi hiff).trans ((forall_vector_iff _ hi).trans ?_).symm
    rw [if_pos rfl]
  · obtain ⟨out, hcopy, hw', hshows⟩ := hw.copyBytes hpos fresh
    refine ⟨_, assign_other hi hj hsame hw.elements hcopy, hvalid.set hw', fun ls hls => ?_⟩
    have hiff : ∀ l, v.Shows l → ((w.withBuffer out).Shows (ls[vector]?.getD l)
        ↔ w.FreshAgrees fresh) := by
      intro l _
      obtain ⟨l', hl', hshows'⟩ := hls.get hj
      rw [hl', Option.getD_some]
      exact hshows l' hshows'
    refine (hls.update_iff hi hiff).trans ((forall_vector_iff _ hj).trans ?_).symm
    rw [if_neg hsame]

/-- **Every proper call returns**: no access is outside of a buffer, and the buffers keep
their capacities.  It does to the lists what it should exactly when it is safe. -/
theorem exec_spec (hpos : 0 < sizeofT) (fresh : Nat → UInt8) (hvalid : AllValid s) (hproper : c.Proper s) :
    ∃ s', exec fresh s c = some s' ∧ AllValid s'
      ∧ ∀ ls, ShowsAll s ls → (ShowsAll s' (c.apply ls) ↔ c.Safe s fresh) := by
  have hof : ∀ {k : Nat} {v : StdVector sizeofT}, s[k]? = some v → ∃ buffer, Valid v buffer :=
    fun hk => hvalid _ (List.mem_of_getElem? hk)
  cases c with
  | pushBack i x =>
      obtain ⟨v, buffer, hi, hv⟩ := hvalid.get hproper
      obtain ⟨v', buffer', hpush, hv', hshows⟩ := hv.pushBack x fresh
      refine ⟨s.set i v', ?_, hvalid.set hv', fun ls hls =>
        hls.update_iff hi fun l hl => iff_of_true (hshows l hl) trivial⟩
      simp only [exec, hi, Option.bind_eq_bind, Option.bind_some, hpush]
  | popBack i =>
      obtain ⟨v, hi, -⟩ := hproper
      obtain ⟨buffer, hv⟩ := hof hi
      obtain ⟨hv', hshows⟩ := hv.popBack
      refine ⟨s.set i v.popBack, ?_, hvalid.set hv', fun ls hls =>
        hls.update_iff hi fun l hl => iff_of_true (hshows l hl) trivial⟩
      simp only [exec, hi, Option.bind_eq_bind, Option.bind_some]
  | reserve i capacity =>
      obtain ⟨v, hi, hle⟩ := hproper
      obtain ⟨buffer, hv⟩ := hof hi
      obtain ⟨v', buffer', hreserve, hv', hkeep⟩ := hv.reserve_shows hle fresh
      refine ⟨s.set i v', ?_, hvalid.set hv', fun ls hls => ?_⟩
      · simp only [exec, hi, Option.bind_eq_bind, Option.bind_some, hreserve]
      · obtain ⟨l, hl, hshows⟩ := hls.get hi
        have hiff : ShowsAll (s.set i v') (ls.set i l) ↔ v'.Shows l := hls.set_iff hi hl
        have hsame : ls.set i l = ls := by
          obtain ⟨hlt, rfl⟩ := List.getElem?_eq_some_iff.mp hl
          exact List.set_getElem_self hlt
        rw [hsame] at hiff
        exact iff_of_true (hiff.mpr (hkeep l hshows)) trivial
  | resize i size x =>
      obtain ⟨v, buffer, hi, hv⟩ := hvalid.get hproper
      obtain ⟨v', buffer', hresize, hv', hshows⟩ := hv.resize size x fresh
      refine ⟨s.set i v', ?_, hvalid.set hv', fun ls hls => ?_⟩
      · simp only [exec, hi, Option.bind_eq_bind, Option.bind_some, hresize]
      · exact (hls.update_iff hi hshows).trans (forall_vector_iff (size ≤ ·.size) hi).symm
  | copy i =>
      obtain ⟨v, buffer, hi, hv⟩ := hvalid.get hproper
      obtain ⟨out, hcopy, hv', hshows⟩ := hv.copyBytes hpos fresh
      refine ⟨s ++ [v.withBuffer out], ?_, ?_, fun ls hls => ?_⟩
      · simp only [exec, hi, Option.bind_eq_bind, Option.bind_some, copy, hv.elements, hcopy]
        rfl
      · intro w hw
        rcases List.mem_append.mp hw with hw | hw
        · exact hvalid w hw
        · rw [List.mem_singleton.mp hw]
          exact ⟨out, hv'⟩
      · obtain ⟨l, hl, hshowsl⟩ := hls.get hi
        have hiff := hls.append_iff (v := v.withBuffer out) (l := l)
        simp only [Call.apply, hl, Option.toList_some]
        exact (hiff.trans (hshows l hshowsl)).trans (forall_vector_iff (·.FreshAgrees fresh) hi).symm
  | assign this vector => exact exec_assign hpos fresh hvalid hproper

/-! ## §6. Runs. -/

/-- A call and what the memory holds that it allocates. -/
structure Event (sizeofT : Nat) where
  call : Call sizeofT
  fresh : Nat → UInt8

def Step (s : List (StdVector sizeofT)) (e : Event sizeofT) (s' : List (StdVector sizeofT)) : Prop :=
  exec e.fresh s e.call = some s'

/-- **The lists** of a history, most recent call first. -/
def listsAfter : List (Event sizeofT) → List (List (Elem sizeofT))
  | [] => [[]]
  | e :: hist => e.call.apply (listsAfter hist)

def ProperCall (_ : List (Event sizeofT)) (s : List (StdVector sizeofT)) (e : Event sizeofT) : Prop :=
  e.call.Proper s

def SafeCall (_ : List (Event sizeofT)) (s : List (StdVector sizeofT)) (e : Event sizeofT) : Prop :=
  e.call.Proper s ∧ e.call.Safe s e.fresh

variable {fresh₀ : Nat → UInt8} {hist : List (Event sizeofT)}

theorem allValid_empty (fresh : Nat → UInt8) : AllValid [(empty fresh : StdVector sizeofT)] := by
  intro v hv
  rw [List.mem_singleton.mp hv]
  exact ⟨_, valid_empty fresh⟩

theorem allValid_run (hpos : 0 < sizeofT)
    (hrun : GuardedRun Step ProperCall [(empty fresh₀ : StdVector sizeofT)] hist s) : AllValid s := by
  refine hrun.historyInvariant (fun _ s => AllValid s) (allValid_empty fresh₀) ?_
  intro hist s e s' hvalid hproper hst
  obtain ⟨s'', hexec, hvalid', -⟩ := exec_spec hpos e.fresh hvalid hproper
  rwa [Option.some.inj (hst.symm.trans hexec)]

theorem showsAll_run (hpos : 0 < sizeofT)
    (hrun : GuardedRun Step SafeCall [(empty fresh₀ : StdVector sizeofT)] hist s) :
    AllValid s ∧ ShowsAll s (listsAfter hist) := by
  refine hrun.historyInvariant (fun hist s => AllValid s ∧ ShowsAll s (listsAfter hist))
    ⟨allValid_empty fresh₀, rfl, ?_⟩ ?_
  · intro i v l hv hl
    cases i with
    | zero =>
        rw [← Option.some.inj hv, ← Option.some.inj hl]
        exact ⟨rfl, fun i h => absurd h (Nat.not_lt_zero i)⟩
    | succ i => cases hv
  · intro hist s e s' ⟨hvalid, hshows⟩ ⟨hproper, hsafe⟩ hst
    obtain ⟨s'', hexec, hvalid', hiff⟩ := exec_spec hpos e.fresh hvalid hproper
    rw [Option.some.inj (hst.symm.trans hexec)]
    exact ⟨hvalid', (hiff _ hshows).mpr hsafe⟩

/-- **`Vector` REFINES A LIST**, in every run of proper calls in which no `resize` grows,
no vector but an empty one is assigned to itself, and copies find the bytes they leave out
in place:

  * in every run the sizes are within the capacities and every proper call returns,
  * in a safe run every vector reads as its list, and after the next proper call they
    still do EXACTLY WHEN it is safe. -/
theorem vector_refines_list (hpos : 0 < sizeofT) :
    (GuardedRun Step ProperCall [(empty fresh₀ : StdVector sizeofT)] hist s →
        AllValid s ∧ ∀ e, ProperCall hist s e → ∃ s', Step s e s')
      ∧ (GuardedRun Step SafeCall [(empty fresh₀ : StdVector sizeofT)] hist s →
          ShowsAll s (listsAfter hist)
            ∧ ∀ e s', ProperCall hist s e → Step s e s' →
                (ShowsAll s' (listsAfter (e :: hist)) ↔ SafeCall hist s e)) := by
  refine ⟨fun hrun => ?_, fun hrun => ?_⟩
  · have hvalid := allValid_run hpos hrun
    refine ⟨hvalid, fun e hproper => ?_⟩
    obtain ⟨s', hexec, -⟩ := exec_spec hpos e.fresh hvalid hproper
    exact ⟨s', hexec⟩
  · obtain ⟨hvalid, hshows⟩ := showsAll_run hpos hrun
    refine ⟨hshows, fun e s' hproper hst => ?_⟩
    obtain ⟨s'', hexec, -, hiff⟩ := exec_spec hpos e.fresh hvalid hproper
    rw [Option.some.inj (hst.symm.trans hexec)]
    exact (hiff _ hshows).trans (and_iff_right hproper).symm

/-- One element of two bytes, in a new vector. -/
def pushed : List (StdVector 2) :=
  [⟨some ([1, 2] ++ (allocBytes (fun _ => 0) 32).drop 2), 1, 16⟩]

/-- The call that put it there. -/
def firstPush : Event 2 := ⟨.pushBack 0 ⟨[1, 2], rfl⟩, fun _ => 0⟩

theorem firstPush_step : Step [(empty fun _ => 0 : StdVector 2)] firstPush pushed := by
  show exec _ _ _ = some pushed
  decide

theorem firstPush_run : GuardedRun Step SafeCall [(empty fun _ => 0 : StdVector 2)] [firstPush] pushed :=
  GuardedRun.init.step ⟨Nat.zero_lt_one, trivial⟩ firstPush_step

theorem firstPush_proper :
    GuardedRun Step ProperCall [(empty fun _ => 0 : StdVector 2)] [firstPush] pushed :=
  GuardedRun.init.step Nat.zero_lt_one firstPush_step

/-- A copy into memory whose byte 1 is right by chance. -/
theorem vector_refines_list_lucky :
    AllValid pushed ∧ ShowsAll pushed (listsAfter [firstPush])
      ∧ ∃ s', Step pushed ⟨.copy 0, fun _ => 2⟩ s'
        ∧ ShowsAll s' (listsAfter [⟨.copy 0, fun _ => 2⟩, firstPush]) := by
  have hproper : ProperCall [firstPush] pushed ⟨.copy 0, fun _ => 2⟩ := Nat.zero_lt_one
  obtain ⟨hvalid, hreturns⟩ := (vector_refines_list (by decide)).1 firstPush_proper
  obtain ⟨hshows, hiff⟩ := (vector_refines_list (by decide)).2 firstPush_run
  obtain ⟨s', hst⟩ := hreturns _ hproper
  refine ⟨hvalid, hshows, s', hst, (hiff _ s' hproper hst).mpr ⟨hproper, ?_⟩⟩
  intro v hv k hk hlt
  have hv' := Option.some.inj hv
  subst hv'
  have hk' : k = 1 := Nat.le_antisymm (Nat.le_of_lt_succ hlt) hk
  subst hk'
  rfl

/-- **A copied vector of one 2-byte element** has only its first byte. -/
theorem copy_loses_bytes :
    ¬ ∀ (hist : List (Event 2)) (s : List (StdVector 2)),
      GuardedRun Step ProperCall [empty fun _ => 0] hist s → ShowsAll s (listsAfter hist) := by
  intro hclaim
  have hproper : ProperCall [firstPush] pushed ⟨.copy 0, fun _ => 0⟩ := Nat.zero_lt_one
  obtain ⟨s', hst, -, hiff⟩ := exec_spec (by decide) (fun _ => 0)
    (allValid_run (by decide) firstPush_proper) hproper
  have hshows := hclaim _ s' (firstPush_proper.step hproper hst)
  have hsafe := (hiff _ (hclaim _ _ firstPush_proper)).mp hshows
  have hbyte := hsafe _ rfl 1 (Nat.le_refl _) (by decide)
  exact absurd hbyte (by decide)

end StdVector

end MierOS.Stdlib
