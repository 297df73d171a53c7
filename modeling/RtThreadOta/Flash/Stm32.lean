import RtThreadOta.Flash.Device
import RtThreadOta.Library.Words

/-!
# The on-chip flash driver (`drv_flash_f4.c`)

Sub-operation `k` of a write is its `k`-th `HAL_FLASH_Program`, and the only sub-operation of an
erase is its `HAL_FLASHEx_Erase`. Loads from the memory-mapped flash do not fail. Addresses are
`uint32_t`, so sums of them wrap.
-/

namespace RtThreadOta

open Nor Words

/-- `STM32_FLASH_END_ADDRESS`: 512 KB from `0x08000000`. -/
def stm32FlashEndAddress : ℕ := 0x08080000

/-- `RT_EINVAL` -/
def rtEinval : ℤ := 10

/-- Base address of sector `n` of the F407: four of 16 KB, one of 64 KB, seven of 128 KB. -/
def addrFlashSector (n : ℕ) : ℕ :=
  if n ≤ 4 then 0x08000000 + n * 0x4000 else 0x08020000 + (n - 5) * 0x20000

/-- `GetSector`: the sector of an address, 0 when it has none. -/
def getSector (address : ℕ) : ℕ :=
  ((List.range 12).find? fun n =>
    decide (address < addrFlashSector (n + 1) ∧ addrFlashSector n ≤ address)).getD 0

/-- `stm32_flash_read` -/
def stm32FlashRead (m : Flash) (addr size : ℕ) : ℤ × Option (List UInt8) :=
  if u32 (addr + size) > stm32FlashEndAddress then (-1, none)
  else (toInt32 size, some ((List.range size).map fun i => m .onchip (u32 (addr + i))))

/-- The unit the write loop programs next: a word, a half word or a byte, by alignment and by what
is left to write. -/
def stm32WriteSize (addr left : ℕ) : ℕ :=
  if addr % 4 = 0 ∧ 4 ≤ left then 4 else if addr % 2 = 0 ∧ 2 ≤ left then 2 else 1

/-- The loop of `stm32_flash_write`: program a unit, compare it with what the flash then holds.
`left` bounds the rounds by the bytes left; `k` counts the HAL calls. -/
def stm32FlashWriteLoop (fail : ℕ → Option (ℕ → UInt8)) :
    (left k : ℕ) → Flash → (addr : ℕ) → List UInt8 → Bool × Flash
  | 0, _, m, _, _ => (true, m)
  | _ + 1, _, m, _, [] => (true, m)
  | left + 1, k, m, addr, b :: bs =>
    let writeSize := stm32WriteSize addr (b :: bs).length
    let data := (b :: bs).take writeSize
    match fail k with
    | some g => (false, programTorn m .onchip addr data g)
    | none =>
      let m' := program m .onchip addr data
      if read m' .onchip addr data.length = data then
        stm32FlashWriteLoop fail left (k + 1) m' (u32 (addr + writeSize)) ((b :: bs).drop writeSize)
      else (false, m')

/-- `stm32_flash_write` -/
def stm32FlashWrite (fail : ℕ → Option (ℕ → UInt8)) (m : Flash) (addr : ℕ) (buf : List UInt8) :
    ℤ × Flash :=
  if u32 (addr + buf.length) > stm32FlashEndAddress then (-rtEinval, m)
  else if buf.length < 1 then (-rtEinval, m)
  else
    match stm32FlashWriteLoop fail buf.length 0 m addr buf with
    | (true, m') => (toInt32 buf.length, m')
    | (false, m') => (-1, m')

/-- The bytes `HAL_FLASHEx_Erase` erases for the sectors that `stm32_flash_erase` names: those from
`Sector` on that are below `NbSectors + Sector`. -/
def stm32EraseRange (addr size : ℕ) : ℕ × ℕ :=
  let firstSector := getSector addr
  let nbOfSectors := u32 (subU32 (getSector (subU32 (u32 (addr + size)) 1)) firstSector + 1)
  (addrFlashSector firstSector,
    addrFlashSector (u32 (nbOfSectors + firstSector)) - addrFlashSector firstSector)

/-- `stm32_flash_erase` -/
def stm32FlashErase (fail : ℕ → Option (ℕ → UInt8)) (m : Flash) (addr size : ℕ) : ℤ × Flash :=
  if u32 (addr + size) > stm32FlashEndAddress then (-rtEinval, m)
  else if size < 1 then (-rtEinval, m)
  else
    let r := stm32EraseRange addr size
    match fail 0 with
    | some g => (-1, eraseTorn m .onchip r.1 r.2 g)
    | none => (toInt32 size, erase m .onchip r.1 r.2)

/-! ## Writing -/

theorem stm32WriteSize_pos (addr left : ℕ) : 0 < stm32WriteSize addr left := by
  rw [stm32WriteSize]
  split
  · omega
  · split <;> omega

theorem stm32WriteSize_le {addr left : ℕ} (h : 0 < left) : stm32WriteSize addr left ≤ left := by
  rw [stm32WriteSize]
  split
  · omega
  · split <;> omega

/-- One round of the write loop below the end of the address space. -/
private theorem stm32FlashWriteLoop_cons (fail : ℕ → Option (ℕ → UInt8)) (left k : ℕ) (m : Flash)
    {addr : ℕ} {bs : List UInt8} (hbs : bs ≠ []) (hlt : addr + bs.length < 4294967296) :
    ∃ n, 0 < n ∧ n ≤ bs.length ∧
      stm32FlashWriteLoop fail (left + 1) k m addr bs =
        match fail k with
        | some g => (false, programTorn m .onchip addr (bs.take n) g)
        | none =>
          if read (program m .onchip addr (bs.take n)) .onchip addr (bs.take n).length =
              bs.take n then
            stm32FlashWriteLoop fail left (k + 1) (program m .onchip addr (bs.take n)) (addr + n)
              (bs.drop n)
          else (false, program m .onchip addr (bs.take n)) := by
  obtain ⟨b, bs, rfl⟩ := List.exists_cons_of_ne_nil hbs
  have hle : stm32WriteSize addr (b :: bs).length ≤ (b :: bs).length :=
    stm32WriteSize_le (by simp)
  refine ⟨stm32WriteSize addr (b :: bs).length, stm32WriteSize_pos .., hle, ?_⟩
  rw [stm32FlashWriteLoop]
  dsimp only
  rw [u32_of_lt (by omega)]

/-- A write that ends well has programmed all of the data, and no bit of it had to be raised. -/
private theorem stm32FlashWriteLoop_true {fail : ℕ → Option (ℕ → UInt8)} {left k : ℕ}
    {m m' : Flash} {addr : ℕ} {bs : List UInt8} (hleft : bs.length ≤ left)
    (hlt : addr + bs.length < 4294967296)
    (h : stm32FlashWriteLoop fail left k m addr bs = (true, m')) :
    m' = program m .onchip addr bs ∧
      ∀ (i : ℕ) (hi : i < bs.length), Below bs[i] (m .onchip (addr + i)) := by
  induction left generalizing k m addr bs with
  | zero =>
    obtain rfl := List.eq_nil_of_length_eq_zero (Nat.le_zero.1 hleft)
    simp only [stm32FlashWriteLoop, Prod.mk.injEq, true_and] at h
    exact ⟨by rw [program_nil, h], fun i hi => absurd hi (Nat.not_lt_zero i)⟩
  | succ left ih =>
    by_cases hbs : bs = []
    · subst hbs
      simp only [stm32FlashWriteLoop, Prod.mk.injEq, true_and] at h
      exact ⟨by rw [program_nil, h], fun i hi => absurd hi (Nat.not_lt_zero i)⟩
    obtain ⟨n, hn, hnle, heq⟩ := stm32FlashWriteLoop_cons fail left k m hbs hlt
    rw [heq] at h
    split at h
    · simp at h
    split at h
    · rename_i hread
      rw [read_program_eq_iff] at hread
      obtain ⟨rfl, hbelow⟩ := ih (by rw [List.length_drop]; omega)
        (by rw [List.length_drop]; omega) h
      have htake : (bs.take n).length = n := by rw [List.length_take]; omega
      refine ⟨?_, fun i hi => ?_⟩
      · have happ := program_append m .onchip addr (bs.take n) (bs.drop n)
        rw [List.take_append_drop, htake] at happ
        exact happ.symm
      · rcases Nat.lt_or_ge i n with hlt | hge
        · have := hread i (by omega)
          rwa [List.getElem_take] at this
        · have := hbelow (i - n) (by rw [List.length_drop]; omega)
          rw [List.getElem_drop, program_of_not_inRange (by rintro ⟨_, _, h⟩; omega)] at this
          have hadd : addr + n + (i - n) = addr + i := by omega
          have hidx : n + (i - n) = i := by omega
          simpa only [hadd, hidx] using this
    · simp at h

/-- Without reported failures a write ends well when no bit has to be raised. -/
private theorem stm32FlashWriteLoop_of_below {fail : ℕ → Option (ℕ → UInt8)}
    (hquiet : ∀ k, fail k = none) (left k : ℕ) {m : Flash} {addr : ℕ} {bs : List UInt8}
    (hlt : addr + bs.length < 4294967296)
    (h : ∀ (i : ℕ) (hi : i < bs.length), Below bs[i] (m .onchip (addr + i))) :
    (stm32FlashWriteLoop fail left k m addr bs).1 = true := by
  induction left generalizing k m addr bs with
  | zero => rfl
  | succ left ih =>
    by_cases hbs : bs = []
    · subst hbs
      rfl
    obtain ⟨n, hn, hnle, heq⟩ := stm32FlashWriteLoop_cons fail left k m hbs hlt
    have htake : (bs.take n).length = n := by rw [List.length_take]; omega
    rw [heq, hquiet k]
    dsimp only
    rw [if_pos (read_program_eq_iff.2 fun i hi => by
      rw [List.getElem_take]; exact h i (by omega))]
    refine ih _ (by rw [List.length_drop]; omega) fun i hi => ?_
    rw [List.length_drop] at hi
    rw [List.getElem_drop, program_of_not_inRange (by rintro ⟨_, _, h⟩; omega), Nat.add_assoc]
    exact h (n + i) (by omega)

/-- A write touches no byte outside its range. -/
private theorem stm32FlashWriteLoop_frame (fail : ℕ → Option (ℕ → UInt8)) (left k : ℕ) (m : Flash)
    {addr : ℕ} {bs : List UInt8} (hlt : addr + bs.length < 4294967296) {e : Dev} {j : ℕ}
    (hj : ¬ InRange .onchip addr bs.length e j) :
    (stm32FlashWriteLoop fail left k m addr bs).2 e j = m e j := by
  induction left generalizing k m addr bs with
  | zero => rfl
  | succ left ih =>
    by_cases hbs : bs = []
    · subst hbs
      rfl
    obtain ⟨n, hn, hnle, heq⟩ := stm32FlashWriteLoop_cons fail left k m hbs hlt
    have hhead : ¬ InRange .onchip addr (bs.take n).length e j := by
      rintro ⟨h, h', h''⟩
      rw [List.length_take] at h''
      exact hj ⟨h, h', by omega⟩
    have htail : ¬ InRange .onchip (addr + n) (bs.drop n).length e j := by
      rintro ⟨h, h', h''⟩
      rw [List.length_drop] at h''
      exact hj ⟨h, by omega, by omega⟩
    rw [heq]
    split
    · exact programTorn_of_not_inRange hhead
    split
    · rw [ih _ _ (by rw [List.length_drop]; omega) htail, program_of_not_inRange hhead]
    · exact program_of_not_inRange hhead

/-- Without reported failures every byte of the range is either as it was or programmed. -/
private theorem stm32FlashWriteLoop_apply {fail : ℕ → Option (ℕ → UInt8)}
    (hquiet : ∀ k, fail k = none) (left k : ℕ) (m : Flash) {addr : ℕ} {bs : List UInt8}
    (hlt : addr + bs.length < 4294967296) {i : ℕ} (hi : i < bs.length) :
    (stm32FlashWriteLoop fail left k m addr bs).2 .onchip (addr + i) = m .onchip (addr + i) ∨
      (stm32FlashWriteLoop fail left k m addr bs).2 .onchip (addr + i) =
        m .onchip (addr + i) &&& bs[i] := by
  induction left generalizing k m addr bs i with
  | zero => exact Or.inl rfl
  | succ left ih =>
    have hbs : bs ≠ [] := List.ne_nil_of_length_pos (by omega)
    obtain ⟨n, hn, hnle, heq⟩ := stm32FlashWriteLoop_cons fail left k m hbs hlt
    have htake : (bs.take n).length = n := by rw [List.length_take]; omega
    rw [heq, hquiet k]
    dsimp only
    have hdlt : addr + n + (bs.drop n).length < 4294967296 := by rw [List.length_drop]; omega
    rcases Nat.lt_or_ge i n with hin | hge
    · have hp := program_apply m .onchip addr (bs.take n) (i := i) (by omega)
      rw [List.getElem_take] at hp
      split
      · rw [stm32FlashWriteLoop_frame _ _ _ _ hdlt (by rintro ⟨_, h, _⟩; omega)]
        exact Or.inr hp
      · exact Or.inr hp
    · have hp : program m .onchip addr (bs.take n) .onchip (addr + i) = m .onchip (addr + i) :=
        program_of_not_inRange (by rintro ⟨_, _, h⟩; omega)
      split
      · have hdrop : i - n < (bs.drop n).length := by rw [List.length_drop]; omega
        have := ih (k + 1) (program m .onchip addr (bs.take n)) hdlt hdrop
        have hadd : addr + n + (i - n) = addr + i := by omega
        have hidx : n + (i - n) = i := by omega
        simpa only [List.getElem_drop, hadd, hidx, hp] using this
      · exact Or.inl hp

/-- A write raises no bit. -/
private theorem stm32FlashWriteLoop_below (fail : ℕ → Option (ℕ → UInt8)) (left k : ℕ) (m : Flash)
    (addr : ℕ) (bs : List UInt8) (e : Dev) (j : ℕ) :
    Below ((stm32FlashWriteLoop fail left k m addr bs).2 e j) (m e j) := by
  induction left generalizing k m addr bs with
  | zero => exact Below.refl _
  | succ left ih =>
    cases bs with
    | nil => exact Below.refl _
    | cons b bs =>
      rw [stm32FlashWriteLoop]
      split
      · exact program_below ..
      dsimp only
      split
      · exact (ih ..).trans (program_below ..)
      · exact program_below ..

/-- Without reported failures a write of zeros always ends well, also past the end of the address
space, and leaves zeros wherever it went. -/
private theorem stm32FlashWriteLoop_zeros {fail : ℕ → Option (ℕ → UInt8)}
    (hquiet : ∀ k, fail k = none) {left k : ℕ} {m : Flash} {addr : ℕ} {bs : List UInt8}
    (hleft : bs.length ≤ left) (haddr : addr < 4294967296) (hz : ∀ b ∈ bs, b = 0) {i : ℕ}
    (hi : i < bs.length) :
    (stm32FlashWriteLoop fail left k m addr bs).2 .onchip (u32 (addr + i)) = 0 := by
  induction left generalizing k m addr bs i with
  | zero => omega
  | succ left ih =>
    cases bs with
    | nil => exact absurd hi (Nat.not_lt_zero i)
    | cons b bs =>
      have hn := stm32WriteSize_pos addr (b :: bs).length
      have hfit : addr + stm32WriteSize addr (b :: bs).length ≤ 4294967296 := by
        rw [stm32WriteSize]
        split
        · omega
        · split <;> omega
      rw [stm32FlashWriteLoop, hquiet k]
      generalize stm32WriteSize addr (b :: bs).length = n at hn hfit ⊢
      generalize b :: bs = bs at hleft hz hi ⊢
      have hall : ∀ (j : ℕ) (hj : j < (bs.take n).length), (bs.take n)[j] = 0 := fun j hj =>
        hz _ (List.mem_of_mem_take (List.getElem_mem hj))
      dsimp only
      rw [if_pos (read_program_eq_iff.2 fun j hj => by rw [hall j hj]; exact zero_below _)]
      rcases Nat.lt_or_ge i n with hin | hge
      · -- a byte of this unit, which no later one raises
        have hj : i < (bs.take n).length := by rw [List.length_take]; omega
        have hlater := stm32FlashWriteLoop_below fail left (k + 1)
          (program m .onchip addr (bs.take n)) (u32 (addr + n)) (bs.drop n) .onchip (addr + i)
        rw [program_apply m .onchip addr (bs.take n) hj, hall i hj, UInt8.and_zero] at hlater
        have hsame : u32 (addr + i) = addr + i := u32_of_lt (by omega)
        rw [hsame]
        exact hlater.eq_zero
      · have hwrap : u32 (addr + i) = u32 (u32 (addr + n) + (i - n)) := by
          simp only [u32]
          omega
        rw [hwrap]
        exact ih (by rw [List.length_drop]; omega) (u32_lt _)
          (fun b hb => hz b (List.mem_of_mem_drop hb)) (by rw [List.length_drop]; omega)

section Write

variable {fail : ℕ → Option (ℕ → UInt8)} {m : Flash} {addr : ℕ} {bs : List UInt8}

/-- `stm32_flash_write` that reports success has programmed the data, which reads back. -/
theorem stm32FlashWrite_nonneg (haddr : addr + bs.length ≤ stm32FlashEndAddress)
    (h : 0 ≤ (stm32FlashWrite fail m addr bs).1) :
    stm32FlashWrite fail m addr bs = ((bs.length : ℤ), program m .onchip addr bs) ∧
      ∀ (i : ℕ) (hi : i < bs.length), Below bs[i] (m .onchip (addr + i)) := by
  rw [stm32FlashEndAddress] at haddr
  revert h
  rw [stm32FlashWrite]
  split
  · simp [rtEinval]
  split
  · simp [rtEinval]
  split
  · rename_i heq
    obtain ⟨rfl, hbelow⟩ := stm32FlashWriteLoop_true (Nat.le_refl _) (by omega) heq
    rw [toInt32_of_lt (by omega)]
    exact fun _ => ⟨rfl, hbelow⟩
  · simp

/-- Within the chip and without reported failures `stm32_flash_write` succeeds when no bit has to be
raised. -/
theorem stm32FlashWrite_of_below (hquiet : ∀ k, fail k = none)
    (haddr : addr + bs.length ≤ stm32FlashEndAddress) (hpos : 0 < bs.length)
    (h : ∀ (i : ℕ) (hi : i < bs.length), Below bs[i] (m .onchip (addr + i))) :
    stm32FlashWrite fail m addr bs = ((bs.length : ℤ), program m .onchip addr bs) := by
  have hlt : addr + bs.length < 4294967296 := by rw [stm32FlashEndAddress] at haddr; omega
  have hlen : bs.length < 2147483648 := by rw [stm32FlashEndAddress] at haddr; omega
  have htrue := stm32FlashWriteLoop_of_below hquiet bs.length 0 hlt h
  rw [stm32FlashWrite, u32_of_lt hlt, if_neg (by omega), if_neg (by omega), toInt32_of_lt hlen]
  split
  · rename_i heq
    rw [(stm32FlashWriteLoop_true (Nat.le_refl _) hlt heq).1]
  · rename_i heq
    rw [heq] at htrue
    exact absurd htrue Bool.false_ne_true

/-- `stm32_flash_write` touches no byte outside its range. -/
theorem stm32FlashWrite_frame (hlt : addr + bs.length < 4294967296) {e : Dev} {j : ℕ}
    (hj : ¬ InRange .onchip addr bs.length e j) :
    (stm32FlashWrite fail m addr bs).2 e j = m e j := by
  rw [stm32FlashWrite]
  split
  · rfl
  split
  · rfl
  split <;> rename_i heq <;>
    simpa only [heq] using
      stm32FlashWriteLoop_frame fail bs.length 0 m hlt hj

/-- Without reported failures `stm32_flash_write` leaves each byte of its range as it was or
programmed. -/
theorem stm32FlashWrite_apply (hquiet : ∀ k, fail k = none)
    (hlt : addr + bs.length < 4294967296) {i : ℕ} (hi : i < bs.length) :
    (stm32FlashWrite fail m addr bs).2 .onchip (addr + i) = m .onchip (addr + i) ∨
      (stm32FlashWrite fail m addr bs).2 .onchip (addr + i) = m .onchip (addr + i) &&& bs[i] := by
  rw [stm32FlashWrite]
  split
  · exact Or.inl rfl
  split
  · exact Or.inl rfl
  split <;> rename_i heq <;>
    simpa only [heq] using
      stm32FlashWriteLoop_apply hquiet bs.length 0 m hlt hi

/-- A write of zeros that passes the check of its end goes wherever its addresses wrap to. -/
theorem stm32FlashWrite_zeros (hquiet : ∀ k, fail k = none) (haddr : addr < 4294967296)
    (hend : u32 (addr + bs.length) ≤ stm32FlashEndAddress) (hz : ∀ b ∈ bs, b = 0) {i : ℕ}
    (hi : i < bs.length) : (stm32FlashWrite fail m addr bs).2 .onchip (u32 (addr + i)) = 0 := by
  rw [stm32FlashWrite, if_neg (by omega), if_neg (by omega)]
  have h := stm32FlashWriteLoop_zeros (k := 0) (m := m) hquiet (Nat.le_refl _) haddr hz hi
  split <;> rename_i heq <;> simpa only [heq] using h

end Write

/-! ## Erasing -/

/-- `GetSector` in the 128 KB sectors. -/
theorem getSector_of_inRange {n addr : ℕ} (hn : 5 ≤ n) (hn' : n < 12)
    (h : addrFlashSector n ≤ addr) (h' : addr < addrFlashSector (n + 1)) : getSector addr = n := by
  have hlo : addrFlashSector n = 0x08020000 + (n - 5) * 0x20000 := if_neg (by omega)
  have hhi : addrFlashSector (n + 1) = 0x08020000 + (n + 1 - 5) * 0x20000 := if_neg (by omega)
  rw [hlo] at h
  rw [hhi] at h'
  have hfind : (List.range 12).find? (fun k =>
      decide (addr < addrFlashSector (k + 1) ∧ addrFlashSector k ≤ addr)) = some n := by
    rw [List.find?_range_eq_some]
    refine ⟨decide_eq_true ⟨by rw [hhi]; exact h', by rw [hlo]; exact h⟩,
      List.mem_range.2 hn', fun k hk => ?_⟩
    -- every earlier sector ends before the address
    have : ¬ addr < addrFlashSector (k + 1) := by
      rw [addrFlashSector]
      split <;> omega
    simp [this]
  rw [getSector, hfind, Option.getD_some]

/-- The bytes erased for a range of the 128 KB sectors: all sectors it meets. -/
theorem stm32EraseRange_eq {off size : ℕ} (hsize : 0 < size) (h : off + size ≤ 0x60000) :
    stm32EraseRange (0x08020000 + off) size =
      (0x08020000 + off / 0x20000 * 0x20000,
        ((off + size - 1) / 0x20000 + 1) * 0x20000 - off / 0x20000 * 0x20000) := by
  have hsector : ∀ {a : ℕ}, a < 0x60000 → getSector (0x08020000 + a) = 5 + a / 0x20000 := by
    intro a ha
    have hlo : addrFlashSector (5 + a / 0x20000) = 0x08020000 + a / 0x20000 * 0x20000 := by
      rw [addrFlashSector, if_neg (by omega), Nat.add_sub_cancel_left]
    have hhi : addrFlashSector (5 + a / 0x20000 + 1) =
        0x08020000 + (a / 0x20000 + 1) * 0x20000 := by
      rw [addrFlashSector, if_neg (by omega)]
      omega
    exact getSector_of_inRange (by omega) (by omega) (by omega) (by omega)
  have hfirst := hsector (a := off) (by omega)
  have hlast := hsector (a := off + size - 1) (by omega)
  have haddr : subU32 (u32 (0x08020000 + off + size)) 1 = 0x08020000 + (off + size - 1) := by
    rw [u32_of_lt (by omega), subU32_of_le (by omega) (by omega)]
    omega
  rw [stm32EraseRange, haddr, hfirst, hlast]
  have hq : (off + size - 1) / 0x20000 ≤ 2 := by omega
  have hle : off / 0x20000 ≤ (off + size - 1) / 0x20000 := Nat.div_le_div_right (by omega)
  generalize off / 0x20000 = q₀ at *
  generalize (off + size - 1) / 0x20000 = q₁ at *
  have hnb : u32 (subU32 (5 + q₁) (5 + q₀) + 1) = q₁ - q₀ + 1 := by
    rw [subU32_of_le (by omega) (by omega), u32_of_lt (by omega)]
    omega
  rw [hnb, u32_of_lt (by omega)]
  simp only [addrFlashSector, Prod.mk.injEq]
  rw [if_neg (by omega), if_neg (by omega)]
  omega

end RtThreadOta
