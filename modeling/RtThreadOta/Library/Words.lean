import Mathlib.Data.Int.Notation
import Mathlib.Data.List.GetD
import Mathlib.Tactic.Basic

/-!
# 32-bit words and their bytes

A C `u32` or `size_t` is a natural number kept below `2 ^ 32` by an explicit remainder. `toInt32`
and `ofInt32` are the conversions to `int` and back, which keep the 32 bits. The readers `le16`,
`le32` and `be32` take a word from a byte list at an offset, and the writers put one there.
-/

namespace Words

/-- The `u32` with the low 32 bits of `n`. -/
@[irreducible] def u32 (n : ℕ) : ℕ := n % 4294967296

/-- `u32` subtraction. -/
def subU32 (a b : ℕ) : ℕ := u32 (a + 4294967296 - b)

theorem u32_lt (n : ℕ) : u32 n < 4294967296 := by
  rw [u32]
  exact Nat.mod_lt _ (by omega)

theorem u32_le (n : ℕ) : u32 n ≤ n := by
  rw [u32]
  exact Nat.mod_le _ _

@[simp] theorem u32_of_lt {n : ℕ} (h : n < 4294967296) : u32 n = n := by
  rw [u32, Nat.mod_eq_of_lt h]

theorem subU32_of_le {a b : ℕ} (h : b ≤ a) (ha : a < 4294967296) : subU32 a b = a - b := by
  rw [subU32, u32]
  omega

/-- The largest `int`. -/
def intMax : ℤ := 2147483647

/-- The `int` with the 32 bits of `n`. -/
@[irreducible] def toInt32 (n : ℕ) : ℤ := if n % 4294967296 < 2147483648 then (n % 4294967296 : ℕ)
  else (n % 4294967296 : ℕ) - 4294967296

/-- The `u32` with the 32 bits of `i`. -/
def ofInt32 (i : ℤ) : ℕ := (i % 4294967296).toNat

theorem toInt32_of_lt {n : ℕ} (h : n < 2147483648) : toInt32 n = n := by
  have hn : n % 4294967296 = n := Nat.mod_eq_of_lt (by omega)
  rw [toInt32, hn, if_pos h]

theorem toInt32_of_le {n : ℕ} (h : 2147483648 ≤ n) (hn : n < 4294967296) :
    toInt32 n = n - 4294967296 := by
  rw [toInt32, Nat.mod_eq_of_lt hn, if_neg (by omega)]

theorem toInt32_lt (n : ℕ) : toInt32 n < 2147483648 := by
  rw [toInt32]
  split <;> omega

@[simp] theorem ofInt32_natCast {n : ℕ} (h : n < 4294967296) : ofInt32 (n : ℤ) = n := by
  rw [ofInt32]
  omega

/-- A `u32` survives the trip through `int`. -/
theorem ofInt32_toInt32 {n : ℕ} (h : n < 4294967296) : ofInt32 (toInt32 n) = n := by
  rw [ofInt32, toInt32]
  split <;> omega

theorem ofInt32_lt (i : ℤ) : ofInt32 i < 4294967296 := by
  rw [ofInt32]
  omega

/-! ## Bytes of a word -/

/-- The byte at offset `i`, as a number; zero past the end. -/
def byteAt (bs : List UInt8) (i : ℕ) : ℕ := (bs.getD i 0).toNat

theorem byteAt_lt (bs : List UInt8) (i : ℕ) : byteAt bs i < 256 := UInt8.toNat_lt _

/-- Little-endian 16-bit word at offset `i`. -/
def le16 (bs : List UInt8) (i : ℕ) : ℕ := byteAt bs i + 256 * byteAt bs (i + 1)

/-- Little-endian 32-bit word at offset `i`. -/
def le32 (bs : List UInt8) (i : ℕ) : ℕ :=
  byteAt bs i + 256 * byteAt bs (i + 1) + 65536 * byteAt bs (i + 2) + 16777216 * byteAt bs (i + 3)

/-- A word is zero when its bytes are. -/
theorem le32_eq_zero {bs : List UInt8} (h : bs.length = 4) :
    le32 bs 0 = 0 ↔ bs = List.replicate 4 0 := by
  constructor
  · intro hzero
    have hbyte : ∀ i < 4, byteAt bs i = 0 := by
      intro i hi
      simp only [le32, Nat.zero_add] at hzero
      obtain rfl | rfl | rfl | rfl : i = 0 ∨ i = 1 ∨ i = 2 ∨ i = 3 := by omega
      all_goals omega
    refine List.ext_getElem (by rw [h, List.length_replicate]) fun i hi _ => ?_
    rw [List.getElem_replicate, ← UInt8.toNat_inj, ← List.getD_eq_getElem bs 0 hi]
    exact hbyte i (by omega)
  · rintro rfl
    rfl

/-- Big-endian 32-bit word at offset `i`. -/
def be32 (bs : List UInt8) (i : ℕ) : ℕ :=
  16777216 * byteAt bs i + 65536 * byteAt bs (i + 1) + 256 * byteAt bs (i + 2) + byteAt bs (i + 3)

theorem le16_lt (bs : List UInt8) (i : ℕ) : le16 bs i < 65536 := by
  have h0 := byteAt_lt bs i
  have h1 := byteAt_lt bs (i + 1)
  rw [le16]
  omega

theorem le32_lt (bs : List UInt8) (i : ℕ) : le32 bs i < 4294967296 := by
  have h0 := byteAt_lt bs i
  have h1 := byteAt_lt bs (i + 1)
  have h2 := byteAt_lt bs (i + 2)
  have h3 := byteAt_lt bs (i + 3)
  rw [le32]
  omega

theorem be32_lt (bs : List UInt8) (i : ℕ) : be32 bs i < 4294967296 := by
  have h0 := byteAt_lt bs i
  have h1 := byteAt_lt bs (i + 1)
  have h2 := byteAt_lt bs (i + 2)
  have h3 := byteAt_lt bs (i + 3)
  rw [be32]
  omega

/-- The two bytes of a word, low byte first. -/
def encodeLe16 (n : ℕ) : List UInt8 := [UInt8.ofNat n, UInt8.ofNat (n / 256)]

/-- The four bytes of a word, low byte first. -/
def encodeLe32 (n : ℕ) : List UInt8 :=
  [UInt8.ofNat n, UInt8.ofNat (n / 256), UInt8.ofNat (n / 65536), UInt8.ofNat (n / 16777216)]

/-- The four bytes of a word, high byte first. -/
def encodeBe32 (n : ℕ) : List UInt8 :=
  [UInt8.ofNat (n / 16777216), UInt8.ofNat (n / 65536), UInt8.ofNat (n / 256), UInt8.ofNat n]

@[simp] theorem encodeLe16_length (n : ℕ) : (encodeLe16 n).length = 2 := rfl

@[simp] theorem encodeLe32_length (n : ℕ) : (encodeLe32 n).length = 4 := rfl

@[simp] theorem encodeBe32_length (n : ℕ) : (encodeBe32 n).length = 4 := rfl

/-- A byte read past a known beginning. -/
theorem byteAt_append_right (as bs : List UInt8) (i : ℕ) :
    byteAt (as ++ bs) (as.length + i) = byteAt bs i := by
  rw [byteAt, byteAt, List.getD_append_right _ _ _ _ (by omega), Nat.add_sub_cancel_left]

theorem byteAt_append_left (as bs : List UInt8) {i : ℕ} (h : i < as.length) :
    byteAt (as ++ bs) i = byteAt as i := by
  rw [byteAt, byteAt, List.getD_append _ _ _ _ h]

theorem byteAt_take (bs : List UInt8) {i n : ℕ} (h : i < n) : byteAt (bs.take n) i = byteAt bs i := by
  rw [byteAt, byteAt, List.getD_eq_getElem?_getD, List.getD_eq_getElem?_getD,
    List.getElem?_take_of_lt h]

/-- A word of a beginning that covers it. -/
theorem be32_take (bs : List UInt8) {i n : ℕ} (h : i + 4 ≤ n) : be32 (bs.take n) i = be32 bs i := by
  rw [be32, be32, byteAt_take bs (by omega), byteAt_take bs (by omega), byteAt_take bs (by omega),
    byteAt_take bs (by omega)]

theorem le32_append_right (as bs : List UInt8) (i : ℕ) :
    le32 (as ++ bs) (as.length + i) = le32 bs i := by
  simp only [le32, Nat.add_assoc, byteAt_append_right]

/-- A word of a known beginning. -/
theorem le32_append_left (as bs : List UInt8) {i : ℕ} (h : i + 4 ≤ as.length) :
    le32 (as ++ bs) i = le32 as i := by
  rw [le32, le32, byteAt_append_left as bs (by omega), byteAt_append_left as bs (by omega),
    byteAt_append_left as bs (by omega), byteAt_append_left as bs (by omega)]

theorem le16_append_right (as bs : List UInt8) (i : ℕ) :
    le16 (as ++ bs) (as.length + i) = le16 bs i := by
  simp only [le16, Nat.add_assoc, byteAt_append_right]

theorem le16_encodeLe16 {n : ℕ} (h : n < 65536) (rest : List UInt8) :
    le16 (encodeLe16 n ++ rest) 0 = n := by
  simp only [le16, encodeLe16, byteAt, List.cons_append, List.getD_cons_zero, List.getD_cons_succ,
    Nat.zero_add, UInt8.toNat_ofNat']
  omega

theorem le32_encodeLe32 {n : ℕ} (h : n < 4294967296) (rest : List UInt8) :
    le32 (encodeLe32 n ++ rest) 0 = n := by
  simp only [le32, encodeLe32, byteAt, List.cons_append, List.getD_cons_zero, List.getD_cons_succ,
    Nat.zero_add, UInt8.toNat_ofNat']
  omega

theorem be32_encodeBe32 {n : ℕ} (h : n < 4294967296) (rest : List UInt8) :
    be32 (encodeBe32 n ++ rest) 0 = n := by
  simp only [be32, encodeBe32, byteAt, List.cons_append, List.getD_cons_zero, List.getD_cons_succ,
    Nat.zero_add, UInt8.toNat_ofNat']
  omega

end Words
