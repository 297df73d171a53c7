import RtThreadOta.Aes.TinyAes

/-!
# Words and their mixing

A word is its four bytes (`word_byteOf`, `byteOf_word`). The reverse tables unmix what the forward tables
mix (`unmixWord_mixWord`): both are additive, which is checked on the bits of a byte, and each of the
four tables is the one before rotated, so that only bytes in the lowest place have to be looked at.
-/

namespace RtThreadOta

namespace TinyAes

/-! ## Bytes of a word -/

/-- The word with these bytes, the lowest first. -/
def word (a b c d : UInt8) : UInt32 :=
  a.toUInt32 ^^^ b.toUInt32 <<< 8 ^^^ c.toUInt32 <<< 16 ^^^ d.toUInt32 <<< 24

theorem byteOf_xor (u v s : UInt32) : byteOf (u ^^^ v) s = byteOf u s ^^^ byteOf v s := by
  unfold byteOf
  apply UInt8.eq_of_toBitVec_eq
  ext i hi
  simp

section Word

variable (a b c d : UInt8)

@[simp] theorem byteOf_word_0 : byteOf (word a b c d) 0 = a := by
  unfold word byteOf
  apply UInt8.eq_of_toBitVec_eq
  ext i hi
  simp

@[simp] theorem byteOf_word_8 : byteOf (word a b c d) 8 = b := by
  unfold word byteOf
  apply UInt8.eq_of_toBitVec_eq
  ext i hi
  simp [show i < 32 by omega, show 8 + i < 32 by omega, show 8 + i < 16 by omega,
    show 8 + i < 24 by omega, hi]

@[simp] theorem byteOf_word_16 : byteOf (word a b c d) 16 = c := by
  unfold word byteOf
  apply UInt8.eq_of_toBitVec_eq
  ext i hi
  simp [show i < 32 by omega, show 16 + i < 32 by omega, show 16 + i < 24 by omega, hi,
    BitVec.getLsbD_of_ge _ (16 + i - 8) (show 8 ≤ 16 + i - 8 by omega),
    BitVec.getLsbD_of_ge _ (16 + i) (show 8 ≤ 16 + i by omega)]

@[simp] theorem byteOf_word_24 : byteOf (word a b c d) 24 = d := by
  unfold word byteOf
  apply UInt8.eq_of_toBitVec_eq
  ext i hi
  simp [show i < 32 by omega, show 24 + i < 32 by omega, hi,
    BitVec.getLsbD_of_ge _ (24 + i - 16) (show 8 ≤ 24 + i - 16 by omega),
    BitVec.getLsbD_of_ge _ (24 + i - 8) (show 8 ≤ 24 + i - 8 by omega),
    BitVec.getLsbD_of_ge _ (24 + i) (show 8 ≤ 24 + i by omega)]

end Word

/-- A word is made of its bytes. -/
theorem word_byteOf (w : UInt32) :
    word (byteOf w 0) (byteOf w 8) (byteOf w 16) (byteOf w 24) = w := by
  unfold word byteOf
  apply UInt32.eq_of_toBitVec_eq
  simp only [UInt32.toBitVec_xor, UInt32.toBitVec_shiftLeft, UInt8.toBitVec_toUInt32,
    UInt32.toBitVec_toUInt8, UInt32.toBitVec_shiftRight]
  ext i hi
  obtain h | ⟨h, h'⟩ | ⟨h, h'⟩ | h : i < 8 ∨ (8 ≤ i ∧ i < 16) ∨ (16 ≤ i ∧ i < 24) ∨ 24 ≤ i := by
    omega
  · simp [h, show i < 16 by omega, show i < 24 by omega, BitVec.getLsbD_eq_getElem hi]
  · simp [show ¬ i < 8 by omega, h', show i < 24 by omega, show i - 8 < 8 by omega,
      show 8 + (i - 8) = i by omega, BitVec.getLsbD_eq_getElem hi]
  · simp [show ¬ i < 8 by omega, show ¬ i < 16 by omega, h', show ¬ i - 8 < 8 by omega,
      show i - 16 < 8 by omega, show 16 + (i - 16) = i by omega, BitVec.getLsbD_eq_getElem hi]
  · simp [show ¬ i < 8 by omega, show ¬ i < 16 by omega, show ¬ i < 24 by omega,
      show ¬ i - 8 < 8 by omega, show ¬ i - 16 < 8 by omega, show i - 24 < 8 by omega,
      show 24 + (i - 24) = i by omega, BitVec.getLsbD_eq_getElem hi]

theorem byteOf_or (u v s : UInt32) : byteOf (u ||| v) s = byteOf u s ||| byteOf v s := by
  unfold byteOf
  apply UInt8.eq_of_toBitVec_eq
  ext i hi
  simp

/-- A byte in its place is a word with zeros around it. -/
theorem toUInt32_word (x : UInt8) : x.toUInt32 = word x 0 0 0 ∧ x.toUInt32 <<< 8 = word 0 x 0 0 ∧
    x.toUInt32 <<< 16 = word 0 0 x 0 ∧ x.toUInt32 <<< 24 = word 0 0 0 x := by
  have hzero : (0 : UInt8).toUInt32 = 0 := rfl
  simp only [word, hzero, UInt32.zero_shiftLeft, UInt32.xor_zero, UInt32.zero_xor, and_self]

/-- Bytes may be put together by "or" as well. -/
theorem or_word (a b c d : UInt8) :
    a.toUInt32 ||| b.toUInt32 <<< 8 ||| c.toUInt32 <<< 16 ||| d.toUInt32 <<< 24 = word a b c d := by
  rw [(toUInt32_word a).1, (toUInt32_word b).2.1, (toUInt32_word c).2.2.1, (toUInt32_word d).2.2.2]
  rw [← word_byteOf (word a 0 0 0 ||| _ ||| _ ||| _)]
  simp only [byteOf_or, byteOf_word_0, byteOf_word_8, byteOf_word_16, byteOf_word_24, UInt8.or_zero,
    UInt8.zero_or]

/-- Words are equal when their bytes are. -/
theorem word_ext {u v : UInt32} (h₀ : byteOf u 0 = byteOf v 0) (h₁ : byteOf u 8 = byteOf v 8)
    (h₂ : byteOf u 16 = byteOf v 16) (h₃ : byteOf u 24 = byteOf v 24) : u = v := by
  rw [← word_byteOf u, ← word_byteOf v, h₀, h₁, h₂, h₃]

/-! ## Rotation -/

section Rotation

variable (w : UInt32)

@[simp] theorem byteOf_rotl8_0 : byteOf (rotl8 w) 0 = byteOf w 24 := by
  unfold rotl8 byteOf
  apply UInt8.eq_of_toBitVec_eq
  ext i hi
  simp

@[simp] theorem byteOf_rotl8_8 : byteOf (rotl8 w) 8 = byteOf w 0 := by
  unfold rotl8 byteOf
  apply UInt8.eq_of_toBitVec_eq
  ext i hi
  simp [show 8 + i < 32 by omega, show ¬ 8 + i < 8 by omega,
    BitVec.getLsbD_eq_getElem (show i < 32 by omega),
    BitVec.getLsbD_of_ge w.toBitVec (24 + (8 + i)) (show 32 ≤ 24 + (8 + i) by omega)]

@[simp] theorem byteOf_rotl8_16 : byteOf (rotl8 w) 16 = byteOf w 8 := by
  unfold rotl8 byteOf
  apply UInt8.eq_of_toBitVec_eq
  ext i hi
  simp [show 16 + i < 32 by omega, show ¬ 16 + i < 8 by omega, show 16 + i - 8 = 8 + i by omega,
    BitVec.getLsbD_eq_getElem (show 8 + i < 32 by omega),
    BitVec.getLsbD_of_ge w.toBitVec (24 + (16 + i)) (show 32 ≤ 24 + (16 + i) by omega)]

@[simp] theorem byteOf_rotl8_24 : byteOf (rotl8 w) 24 = byteOf w 16 := by
  unfold rotl8 byteOf
  apply UInt8.eq_of_toBitVec_eq
  ext i hi
  simp [show 24 + i < 32 by omega, show ¬ 24 + i < 8 by omega, show 24 + i - 8 = 16 + i by omega,
    BitVec.getLsbD_eq_getElem (show 16 + i < 32 by omega),
    BitVec.getLsbD_of_ge w.toBitVec (24 + (24 + i)) (show 32 ≤ 24 + (24 + i) by omega)]

end Rotation

theorem rotl8_xor (u v : UInt32) : rotl8 (u ^^^ v) = rotl8 u ^^^ rotl8 v := by
  apply word_ext <;> simp only [byteOf_xor, byteOf_rotl8_0, byteOf_rotl8_8, byteOf_rotl8_16,
    byteOf_rotl8_24]

/-- Four rotations go all the way round. -/
theorem rotl8_rotl8 (w : UInt32) : rotl8 (rotl8 (rotl8 (rotl8 w))) = w := by
  apply word_ext <;> simp only [byteOf_rotl8_0, byteOf_rotl8_8, byteOf_rotl8_16, byteOf_rotl8_24]

/-! ## Additive functions of a byte -/

/-- The sum of the words at the bits of a byte. -/
def bitSum (c : ℕ → UInt32) (x : UInt8) : UInt32 :=
  (List.range 8).foldl (fun sum i => if x.toNat.testBit i then sum ^^^ c i else sum) 0

theorem bitSum_xor (c : ℕ → UInt32) (x y : UInt8) :
    bitSum c (x ^^^ y) = bitSum c x ^^^ bitSum c y := by
  -- the sums up to any bit, wherever they begin
  have hfold : ∀ (is : List ℕ) (u v : UInt32),
      is.foldl (fun sum i => if (x ^^^ y).toNat.testBit i then sum ^^^ c i else sum) (u ^^^ v) =
        is.foldl (fun sum i => if x.toNat.testBit i then sum ^^^ c i else sum) u ^^^
          is.foldl (fun sum i => if y.toNat.testBit i then sum ^^^ c i else sum) v := by
    intro is
    induction is with
    | nil => exact fun _ _ => rfl
    | cons i is ih =>
      intro u v
      rw [List.foldl_cons, List.foldl_cons, List.foldl_cons, ← ih, UInt8.toNat_xor,
        Nat.testBit_xor]
      congr 1
      cases x.toNat.testBit i <;> cases y.toNat.testBit i
      · rfl
      · exact UInt32.xor_assoc ..
      · show u ^^^ v ^^^ c i = u ^^^ c i ^^^ v
        rw [UInt32.xor_assoc, UInt32.xor_comm v, ← UInt32.xor_assoc]
      · show u ^^^ v = u ^^^ c i ^^^ (v ^^^ c i)
        rw [UInt32.xor_comm v (c i), UInt32.xor_assoc, ← UInt32.xor_assoc (c i), UInt32.xor_self,
          UInt32.zero_xor]
  have h := hfold (List.range 8) 0 0
  rwa [UInt32.xor_self] at h

/-- A property of all bytes is checked byte by byte. -/
private theorem forall_byte {P : UInt8 → Prop} (h : ∀ i < 256, P (UInt8.ofNat i)) (x : UInt8) :
    P x := by
  have hx := h x.toNat (UInt8.toNat_lt x)
  rwa [UInt8.ofNat_toNat] at hx

/-- A function that is given by its values at the bits is additive. -/
theorem additive_of_bits {f : UInt8 → UInt32}
    (h : ∀ i < 256, f (UInt8.ofNat i) = bitSum (fun j => f (UInt8.ofNat (2 ^ j))) (UInt8.ofNat i))
    (x y : UInt8) : f (x ^^^ y) = f x ^^^ f y := by
  have hf : ∀ x, f x = bitSum (fun j => f (UInt8.ofNat (2 ^ j))) x := forall_byte h
  rw [hf, hf x, hf y, bitSum_xor]

/-! ## Spreading bytes over a word -/

/-- The sum of the words of the four bytes, each rotated to its place. -/
def spread (f : UInt8 → UInt32) (w : UInt32) : UInt32 :=
  f (byteOf w 0) ^^^ rotl8 (f (byteOf w 8)) ^^^ rotl8 (rotl8 (f (byteOf w 16))) ^^^
    rotl8 (rotl8 (rotl8 (f (byteOf w 24))))

section Spread

variable {f g : UInt8 → UInt32}

theorem spread_xor (hf : ∀ x y, f (x ^^^ y) = f x ^^^ f y) (u v : UInt32) :
    spread f (u ^^^ v) = spread f u ^^^ spread f v := by
  simp only [spread, byteOf_xor, hf, rotl8_xor]
  ac_rfl

theorem spread_rotl8 (f : UInt8 → UInt32) (w : UInt32) :
    spread f (rotl8 w) = rotl8 (spread f w) := by
  simp only [spread, byteOf_rotl8_0, byteOf_rotl8_8, byteOf_rotl8_16, byteOf_rotl8_24, rotl8_xor,
    rotl8_rotl8]
  ac_rfl

/-- Spreading the bytes themselves changes nothing. -/
theorem spread_toUInt32 (w : UInt32) : spread UInt8.toUInt32 w = w := by
  have hbyte : ∀ x : UInt8, x.toUInt32 = word x 0 0 0 := fun x => (toUInt32_word x).1
  apply word_ext <;> simp only [spread, hbyte, byteOf_xor, byteOf_rotl8_0, byteOf_rotl8_8,
    byteOf_rotl8_16, byteOf_rotl8_24, byteOf_word_0, byteOf_word_8, byteOf_word_16, byteOf_word_24,
    UInt8.xor_zero, UInt8.zero_xor]

/-- Spreading is undone by spreading when it is on bytes in the lowest place. -/
theorem spread_spread (hg : ∀ x y, g (x ^^^ y) = g x ^^^ g y)
    (h : ∀ x, spread g (f x) = x.toUInt32) (w : UInt32) : spread g (spread f w) = w := by
  have hsum : ∀ a b c d : UInt8,
      spread g (f a ^^^ rotl8 (f b) ^^^ rotl8 (rotl8 (f c)) ^^^ rotl8 (rotl8 (rotl8 (f d)))) =
        a.toUInt32 ^^^ rotl8 b.toUInt32 ^^^ rotl8 (rotl8 c.toUInt32) ^^^
          rotl8 (rotl8 (rotl8 d.toUInt32)) := by
    intro a b c d
    simp only [spread_xor hg, spread_rotl8, h]
  exact (hsum _ _ _ _).trans (spread_toUInt32 w)

end Spread

/-! ## The tables -/

theorem rsb_fsb (x : UInt8) : rsb (fsb x) = x := by
  revert x
  exact forall_byte (by decide +kernel)

theorem fsb_rsb (x : UInt8) : fsb (rsb x) = x := by
  revert x
  exact forall_byte (by decide +kernel)

/-- The lowest byte mixed over a word. -/
def mixByte (x : UInt8) : UInt32 := ft0 (rsb x)

/-- The lowest byte unmixed. -/
def unmixByte (x : UInt8) : UInt32 := rt0 (fsb x)

theorem unmixByte_xor (x y : UInt8) : unmixByte (x ^^^ y) = unmixByte x ^^^ unmixByte y :=
  additive_of_bits (f := unmixByte) (by decide +kernel) x y

theorem spread_mixByte (x : UInt8) : spread unmixByte (mixByte x) = x.toUInt32 := by
  revert x
  exact forall_byte (by decide +kernel)

/-- The mixing that the forward tables do besides the substitution. -/
def mixWord (w : UInt32) : UInt32 := spread mixByte w

theorem unmixWord_eq (w : UInt32) : unmixWord w = spread unmixByte w := rfl

theorem unmixWord_xor (u v : UInt32) : unmixWord (u ^^^ v) = unmixWord u ^^^ unmixWord v :=
  spread_xor unmixByte_xor u v

/-- **The reverse tables undo the forward tables.** -/
theorem unmixWord_mixWord (w : UInt32) : unmixWord (mixWord w) = w :=
  spread_spread unmixByte_xor spread_mixByte w

end TinyAes

end RtThreadOta
