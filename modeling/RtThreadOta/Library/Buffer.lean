import Mathlib.Data.List.GetD
import Mathlib.Tactic.Common

/-!
# Byte buffers of a fixed size

A `Buffer n` holds `n` bytes. `store` overwrites a stretch of it and `slice` reads one; both are
total, and what they say about each other holds within the buffer.
-/

/-- A buffer of `n` bytes. -/
structure Buffer (n : ℕ) where
  get : Fin n → UInt8

namespace Buffer

variable {n : ℕ} {b : Buffer n} {off len : ℕ} {data : List UInt8}

/-- The buffer full of one byte. -/
def fill (n : ℕ) (x : UInt8) : Buffer n := ⟨fun _ => x⟩

/-- The byte at an offset; zero outside the buffer. -/
def byte (b : Buffer n) (i : ℕ) : UInt8 := if h : i < n then b.get ⟨i, h⟩ else 0

/-- Overwrite the bytes from `off` on. -/
def store (b : Buffer n) (off : ℕ) (data : List UInt8) : Buffer n :=
  ⟨fun i => if off ≤ i.val ∧ i.val < off + data.length then data.getD (i.val - off) 0 else b.get i⟩

/-- The `len` bytes from `off` on. -/
def slice (b : Buffer n) (off len : ℕ) : List UInt8 := (List.range len).map fun i => b.byte (off + i)

/-- All bytes. -/
def bytes (b : Buffer n) : List UInt8 := b.slice 0 n

@[simp] theorem slice_length (b : Buffer n) (off len : ℕ) : (b.slice off len).length = len := by
  rw [slice, List.length_map, List.length_range]

@[simp] theorem bytes_length (b : Buffer n) : b.bytes.length = n := slice_length ..

@[simp] theorem slice_zero_len (b : Buffer n) (off : ℕ) : b.slice off 0 = [] := rfl

theorem slice_getElem {i : ℕ} (h : i < (b.slice off len).length) :
    (b.slice off len)[i] = b.byte (off + i) := by
  simp only [slice, List.getElem_map, List.getElem_range]

/-- Two adjacent slices make one. -/
theorem slice_add (b : Buffer n) (off j k : ℕ) :
    b.slice off (j + k) = b.slice off j ++ b.slice (off + j) k := by
  simp only [slice, List.range_add, List.map_append, List.map_map, Function.comp_def, Nat.add_assoc]

theorem byte_store {i : ℕ} (h : i < n) :
    (b.store off data).byte i =
      if off ≤ i ∧ i < off + data.length then data.getD (i - off) 0 else b.byte i := by
  rw [byte, dif_pos h, byte, dif_pos h, store]

/-- What was stored is read back. -/
theorem slice_store_self (h : off + data.length ≤ n) :
    (b.store off data).slice off data.length = data := by
  refine List.ext_getElem (slice_length ..) fun i _ hi => ?_
  rw [slice_getElem, byte_store (by omega), if_pos ⟨by omega, by omega⟩, Nat.add_sub_cancel_left,
    List.getD_eq_getElem _ _ hi]

/-- Bytes before the stored ones stay. -/
theorem slice_store_before {off' : ℕ} (h : off' + len ≤ off) :
    (b.store off data).slice off' len = b.slice off' len := by
  refine List.map_congr_left fun i hi => ?_
  have hi := List.mem_range.1 hi
  rw [byte, byte]
  split
  · exact if_neg (by rintro ⟨h₁, -⟩; simp only at h₁; omega)
  · rfl

/-- So do bytes behind them. -/
theorem slice_store_after {off' : ℕ} (h : off + data.length ≤ off') :
    (b.store off data).slice off' len = b.slice off' len := by
  apply List.map_congr_left
  intro i _
  rw [byte, byte]
  split
  · apply if_neg
    rintro ⟨-, h₂⟩
    simp only at h₂
    omega
  · rfl

/-- Bytes stored behind `off` bytes follow them. -/
theorem slice_store_append (h : off + data.length ≤ n) :
    (b.store off data).slice 0 (off + data.length) = b.slice 0 off ++ data := by
  rw [slice_add, slice_store_before (by omega), Nat.zero_add, slice_store_self h]

theorem take_slice {k : ℕ} (h : k ≤ len) : (b.slice off len).take k = b.slice off k := by
  obtain ⟨j, rfl⟩ := Nat.exists_eq_add_of_le h
  rw [slice_add, List.take_left' (slice_length ..)]

theorem drop_slice {k : ℕ} (h : k ≤ len) :
    (b.slice off len).drop k = b.slice (off + k) (len - k) := by
  obtain ⟨j, rfl⟩ := Nat.exists_eq_add_of_le h
  rw [slice_add, List.drop_left' (slice_length ..), Nat.add_sub_cancel_left]

/-- Buffers that begin alike have alike slices there. -/
theorem slice_congr {b' : Buffer n} {k : ℕ} (h : b'.slice 0 k = b.slice 0 k) (hk : off + len ≤ k) :
    b'.slice off len = b.slice off len := by
  have hcut := congrArg (fun bs => (bs.drop off).take len) h
  simp only [drop_slice (Nat.le_of_add_right_le hk), take_slice (Nat.le_sub_of_add_le' hk),
    Nat.zero_add] at hcut
  exact hcut

theorem bytes_store_full (b : Buffer n) (h : data.length = n) : (b.store 0 data).bytes = data := by
  subst h
  exact slice_store_self (by omega)

/-- A buffer is its bytes. -/
theorem ext_bytes {b b' : Buffer n} (h : b.bytes = b'.bytes) : b = b' := by
  obtain ⟨f⟩ := b
  obtain ⟨g⟩ := b'
  refine congrArg mk (funext fun i => ?_)
  have := congrArg (fun l => l.getD i.val 0) h
  simpa [bytes, slice, byte, List.getD_eq_getElem, i.isLt] using this

end Buffer
