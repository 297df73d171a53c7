import RtThreadOta.Fal.Partition

/-!
# What partition access does

One specification for each FAL call on a partition of the table, whatever goes wrong in it. Addresses
are relative to the partition here. A read gives the bytes, or on the NOR chip leaves the buffer as
it was and still reports success. A write or an erase that reports success did all of it, and one
that reports an error touched nothing outside the partition.
-/

namespace RtThreadOta

open Interaction Nor Words

/-- Byte `i` of a partition. -/
def FalPartition.byte (p : FalPartition) (m : Flash) (i : ℕ) : UInt8 := m p.dev (p.base + i)

/-- `n` bytes of a partition. -/
def FalPartition.bytes (p : FalPartition) (m : Flash) (a n : ℕ) : List UInt8 :=
  Nor.read m p.dev (p.base + a) n

/-- The flash after programming bytes of a partition. -/
def FalPartition.programmed (p : FalPartition) (m : Flash) (a : ℕ) (bs : List UInt8) : Flash :=
  program m p.dev (p.base + a) bs

/-- The flash after erasing the bytes `[lo, hi)` of a partition. -/
def FalPartition.erased (p : FalPartition) (m : Flash) (lo hi : ℕ) : Flash :=
  erase m p.dev (p.base + lo) (hi - lo)

/-- Nothing outside the partition differs. -/
def FalPartition.SameElsewhere (p : FalPartition) (m m' : Flash) : Prop :=
  ∀ e i, ¬ InRange p.dev p.base p.len e i → m' e i = m e i

/-- Nothing outside the `n` bytes from `a` on of the partition differs. -/
def FalPartition.SameOutside (p : FalPartition) (a n : ℕ) (m m' : Flash) : Prop :=
  ∀ e i, ¬ InRange p.dev (p.base + a) n e i → m' e i = m e i

/-- `n` rounded up to a multiple of `k`. -/
def roundUp (n k : ℕ) : ℕ := (n + k - 1) / k * k

/-- The first byte a partition erase of a range from `addr` on sets. -/
def eraseStart (L : Layout) (p : FalPartition) (addr : ℕ) : ℕ :=
  addr / L.chip.blkSize p.dev * L.chip.blkSize p.dev

/-- The end of the bytes that a partition erase of a range up to `stop` sets. -/
def eraseStop (L : Layout) (p : FalPartition) (stop : ℕ) : ℕ := roundUp stop (L.chip.blkSize p.dev)

variable {L : Layout} {p q : FalPartition} {m m' m'' : Flash}

/-- Flash that is erased except for bytes at the start of a partition. -/
def FalPartition.holding (p : FalPartition) (bs : List UInt8) : Flash := fun e i =>
  if e = p.dev ∧ p.base ≤ i then bs.getD (i - p.base) 0xFF else 0xFF

/-! ## Rounding -/

theorem le_roundUp {k : ℕ} (n : ℕ) (hk : 0 < k) : n ≤ roundUp n k := by
  have h := Nat.div_add_mod (n + k - 1) k
  have h' := Nat.mod_lt (n + k - 1) hk
  rw [Nat.mul_comm] at h
  rw [roundUp]
  omega

theorem dvd_roundUp (n k : ℕ) : k ∣ roundUp n k := Nat.dvd_mul_left k _

theorem roundUp_lt {k : ℕ} (n : ℕ) (hk : 0 < k) : roundUp n k < n + k := by
  have h := Nat.div_mul_le_self (n + k - 1) k
  rw [roundUp]
  omega

/-- A multiple of `k` from `n` on is past the rounded `n`. -/
theorem roundUp_le_of_dvd {n j k : ℕ} (hk : 0 < k) (h : n ≤ j) (hj : k ∣ j) : roundUp n k ≤ j := by
  obtain ⟨c, rfl⟩ := hj
  have hlt := roundUp_lt n hk
  obtain ⟨b, hb⟩ := dvd_roundUp n k
  rw [hb] at hlt ⊢
  have : b < c + 1 := Nat.lt_of_mul_lt_mul_left (a := k) (by rw [Nat.mul_add]; omega)
  exact Nat.mul_le_mul_left k (by omega)

theorem roundUp_of_dvd {n k : ℕ} (hk : 0 < k) (h : k ∣ n) : roundUp n k = n :=
  Nat.le_antisymm (roundUp_le_of_dvd hk (Nat.le_refl n) h) (le_roundUp n hk)

theorem roundUp_zero {k : ℕ} (hk : 0 < k) : roundUp 0 k = 0 :=
  roundUp_of_dvd hk (Nat.dvd_zero k)

theorem NorChip.blkSize_pos (chip : NorChip) (d : Dev) : 0 < chip.blkSize d := by
  cases d with
  | onchip => exact Nat.succ_pos _
  | nor => exact chip.eraseGran_pos

/-- Erase blocks are whole sectors of 4 KB. -/
theorem NorChip.blkSize_dvd (chip : NorChip) (d : Dev) : 4096 ∣ chip.blkSize d := by
  cases d with
  | onchip => exact ⟨32, rfl⟩
  | nor => exact chip.eraseGran_dvd

theorem le_eraseStop (L : Layout) (p : FalPartition) (n : ℕ) : n ≤ eraseStop L p n :=
  le_roundUp n (L.chip.blkSize_pos _)

@[simp] theorem eraseStop_zero (L : Layout) (p : FalPartition) : eraseStop L p 0 = 0 :=
  roundUp_zero (L.chip.blkSize_pos _)

theorem eraseStart_le (L : Layout) (p : FalPartition) (n : ℕ) : eraseStart L p n ≤ n :=
  Nat.div_mul_le_self _ _

theorem eraseStop_le (hp : p ∈ L.parts) {n : ℕ} (h : n ≤ p.len) : eraseStop L p n ≤ p.len :=
  roundUp_le_of_dvd (L.chip.blkSize_pos _) h (L.sound p hp).len_aligned

theorem dvd_eraseStop (L : Layout) (p : FalPartition) (n : ℕ) : 4096 ∣ eraseStop L p n :=
  Nat.dvd_trans (L.chip.blkSize_dvd p.dev) (dvd_roundUp _ _)

/-! ## Bounds -/

theorem Layout.offset_add_len_lt (hp : p ∈ L.parts) : p.offset + p.len < 2147483648 := by
  have h := (L.sound p hp).within
  have hc := L.chip.capacity_lt
  cases hd : p.dev <;> simp only [hd, NorChip.devLen] at h <;> omega

theorem Layout.base_add_len_lt (hp : p ∈ L.parts) : p.base + p.len < 4294967296 := by
  have h := L.offset_add_len_lt hp
  cases hd : p.dev <;> simp only [FalPartition.base, devAddr, hd] <;> omega

theorem Layout.len_lt (hp : p ∈ L.parts) : p.len < 2147483648 := by
  have h := L.offset_add_len_lt hp
  omega

/-! ## Bytes of a partition -/

theorem FalPartition.SameElsewhere.refl (p : FalPartition) (m : Flash) : p.SameElsewhere m m :=
  fun _ _ _ => rfl

theorem FalPartition.SameElsewhere.trans (h : p.SameElsewhere m m') (h' : p.SameElsewhere m' m'') :
    p.SameElsewhere m m'' := fun e i hi => (h' e i hi).trans (h e i hi)

theorem FalPartition.SameOutside.elsewhere {a n : ℕ} (h : p.SameOutside a n m m')
    (hfit : a + n ≤ p.len) : p.SameElsewhere m m' := fun e i hi =>
  h e i (by rintro ⟨h₁, h₂, h₃⟩; exact hi ⟨h₁, by omega, by omega⟩)

theorem FalPartition.SameOutside.byte_eq {a n i : ℕ} (h : p.SameOutside a n m m')
    (hi : ¬ (a ≤ i ∧ i < a + n)) : p.byte m' i = p.byte m i :=
  h _ _ (by rintro ⟨_, h₁, h₂⟩; omega)

/-- A change inside one partition is not seen in another. -/
theorem FalPartition.SameElsewhere.byte_eq (h : p.SameElsewhere m m') (hp : p ∈ L.parts)
    (hq : q ∈ L.parts) (hne : p ≠ q) {i : ℕ} (hi : i < q.len) : q.byte m' i = q.byte m i := by
  refine h _ _ ?_
  rintro ⟨hd, hlo, hhi⟩
  refine L.disjoint hp hq hne (i := q.base + i - p.base) (by omega) hi hd.symm ?_
  omega

theorem FalPartition.SameElsewhere.bytes_eq (h : p.SameElsewhere m m') (hp : p ∈ L.parts)
    (hq : q ∈ L.parts) (hne : p ≠ q) {a n : ℕ} (hn : a + n ≤ q.len) :
    q.bytes m' a n = q.bytes m a n :=
  read_congr fun i hi => by
    have := h.byte_eq hp hq hne (i := a + i) (by omega)
    simpa only [FalPartition.byte, Nat.add_assoc] using this

@[simp] theorem FalPartition.bytes_length (p : FalPartition) (m : Flash) (a n : ℕ) :
    (p.bytes m a n).length = n := read_length ..

theorem FalPartition.byte_programmed {a i : ℕ} {bs : List UInt8} (h : a ≤ i)
    (h' : i < a + bs.length) :
    p.byte (p.programmed m a bs) i = p.byte m i &&& bs.getD (i - a) 0 := by
  rw [byte, programmed, program, if_pos ⟨rfl, by omega, by omega⟩, byte]
  congr 2
  omega

theorem FalPartition.byte_programmed_of_not {a i : ℕ} {bs : List UInt8}
    (h : ¬ (a ≤ i ∧ i < a + bs.length)) : p.byte (p.programmed m a bs) i = p.byte m i :=
  program_of_not_inRange (by rintro ⟨_, h', h''⟩; omega)

theorem FalPartition.byte_erased {lo hi i : ℕ} (h : lo ≤ i) (h' : i < hi) :
    p.byte (p.erased m lo hi) i = 0xFF := erase_of_inRange ⟨rfl, by omega, by omega⟩

theorem FalPartition.byte_erased_of_not {lo hi i : ℕ} (h : ¬ (lo ≤ i ∧ i < hi)) :
    p.byte (p.erased m lo hi) i = p.byte m i :=
  erase_of_not_inRange (by rintro ⟨_, h', h''⟩; omega)

@[simp] theorem FalPartition.erased_self (lo : ℕ) : p.erased m lo lo = m := by
  rw [erased, Nat.sub_self, erase_zero]

theorem FalPartition.sameElsewhere_programmed {a : ℕ} {bs : List UInt8}
    (h : a + bs.length ≤ p.len) : p.SameElsewhere m (p.programmed m a bs) := fun e i hi =>
  program_of_not_inRange (by rintro ⟨h₁, h₂, h₃⟩; exact hi ⟨h₁, by omega, by omega⟩)

theorem FalPartition.sameElsewhere_erased {lo hi : ℕ} (h : hi ≤ p.len) :
    p.SameElsewhere m (p.erased m lo hi) := fun e i hn =>
  erase_of_not_inRange (by rintro ⟨h₁, h₂, h₃⟩; exact hn ⟨h₁, by omega, by omega⟩)

/-- The bytes an erase call sets lie in the partition. -/
theorem eraseRange_eq (hp : p ∈ L.parts) {addr size : ℕ} (hsize : 0 < size)
    (h : addr + size ≤ p.len) :
    eraseRange L p.dev (p.offset + addr) size =
      (p.base + eraseStart L p addr, eraseStop L p (addr + size) - eraseStart L p addr) := by
  obtain ⟨hw, ⟨c, hc⟩, -, -⟩ := L.sound p hp
  obtain ⟨name, dev, offset, len⟩ := p
  simp only at hw hc h
  cases dev with
  | onchip =>
    simp only [NorChip.devLen, NorChip.blkSize] at hw hc
    simp only [eraseRange, eraseStart, eraseStop, roundUp, FalPartition.base, devAddr,
      NorChip.blkSize]
    have hoff : u32 (0x08020000 + (offset + addr)) = 0x08020000 + (offset + addr) :=
      u32_of_lt (by omega)
    rw [hoff, stm32EraseRange_eq hsize (by omega), Prod.mk.injEq]
    omega
  | nor =>
    have hg := L.chip.eraseGran_pos
    have hcap := L.chip.capacity_lt
    simp only [NorChip.devLen] at hw
    simp only [NorChip.blkSize] at hc
    simp only [eraseRange, eraseStart, eraseStop, roundUp, FalPartition.base, devAddr,
      NorChip.blkSize, sfudEraseRange, if_neg (Nat.ne_of_gt hsize), Nat.zero_add]
    rw [u32_of_lt (by omega)]
    generalize L.chip.eraseGran = g at *
    subst hc
    have hlo : (g * c + addr) / g = c + addr / g := Nat.mul_add_div hg c addr
    have hhi : (g * c + addr + size - 1) / g + 1 = c + (addr + size + g - 1) / g := by
      have h₁ : g * c + addr + size - 1 = g * c + (addr + size - 1) := by omega
      have h₂ : addr + size + g - 1 = addr + size - 1 + g := by omega
      rw [h₁, h₂, Nat.mul_add_div hg, Nat.add_div_right _ hg, Nat.add_assoc]
    rw [hlo, hhi, Nat.add_mul, Nat.add_mul, Nat.mul_comm c g, Prod.mk.injEq]
    refine ⟨rfl, ?_⟩
    omega

/-! ## The drivers on a partition -/

variable {fail : ℕ → Option (ℕ → UInt8)} {addr size : ℕ} {bs : List UInt8}

private theorem stm32_addr_le (hp : p ∈ L.parts) (hd : p.dev = .onchip) (h : addr + size ≤ p.len) :
    p.base + addr + size ≤ stm32FlashEndAddress := by
  have hw := (L.sound p hp).within
  rw [hd] at hw
  simp only [NorChip.devLen] at hw
  simp only [FalPartition.base, hd, devAddr, stm32FlashEndAddress]
  omega

private theorem sfud_addr_le (hp : p ∈ L.parts) (hd : p.dev = .nor) (h : addr + size ≤ p.len) :
    u32 (p.base + addr + size) ≤ L.chip.capacity := by
  have hw := (L.sound p hp).within
  rw [hd] at hw
  simp only [NorChip.devLen] at hw
  refine Nat.le_trans (u32_le _) ?_
  simp only [FalPartition.base, hd, devAddr]
  omega

/-- The address a device makes of an offset in the partition. -/
private theorem base_add (hp : p ∈ L.parts) (hd : p.dev = d) (h : addr ≤ p.len) :
    u32 (devAddr d + (p.offset + addr)) = p.base + addr := by
  have hlt := L.base_add_len_lt hp
  rw [FalPartition.base, hd] at hlt ⊢
  rw [u32_of_lt (by omega), Nat.add_assoc]

variable (m fail) in
/-- A read gives the bytes; on the NOR chip it may give nothing and report success all the same. -/
theorem devRead_eq (hp : p ∈ L.parts) (h : addr + size ≤ p.len) :
    devRead L fail m (p.offset + addr) size p.dev = ((size : ℤ), some (p.bytes m addr size)) ∨
      p.dev = .nor ∧ (¬ ∀ k, fail k = none) ∧
        devRead L fail m (p.offset + addr) size p.dev = ((size : ℤ), none) := by
  have hlen := L.len_lt hp
  cases hd : p.dev with
  | onchip =>
    have hle := stm32_addr_le hp hd h
    have hlt : p.base + addr + size < 4294967296 := Nat.lt_of_le_of_lt hle (by decide)
    have hwrap : ((List.range size).map fun i => m .onchip (u32 (p.base + addr + i))) =
        p.bytes m addr size := by
      rw [FalPartition.bytes, hd]
      refine List.map_congr_left fun i hi => ?_
      have := List.mem_range.1 hi
      rw [u32_of_lt (by omega)]
    refine Or.inl ?_
    rw [devRead, stm32FlashRead, base_add hp hd (by omega), u32_of_lt hlt, if_neg (by omega),
      toInt32_of_lt (by omega), hwrap]
  | nor =>
    have hle := sfud_addr_le hp hd h
    rw [devRead, norRead, sfudRead, base_add hp hd (by omega), if_neg (by omega),
      toInt32_of_lt (by omega), FalPartition.bytes, hd]
    cases hf : fail 0 with
    | none => exact Or.inl rfl
    | some g => exact Or.inr ⟨rfl, fun hq => by simp [hq] at hf, rfl⟩

variable (m fail) in
/-- A write that reports success programmed all of the data; on the on-chip flash it read it back.
Without failures below it, only a bit to raise or an empty write on the on-chip flash makes a write
report an error. -/
theorem devWrite_eq (hp : p ∈ L.parts) (h : addr + bs.length ≤ p.len) :
    (devWrite L fail m (p.offset + addr) bs p.dev =
        ((bs.length : ℤ), p.programmed m addr bs) ∧
      (p.dev = .onchip → ∀ (i : ℕ) (hi : i < bs.length), Below bs[i] (p.byte m (addr + i)))) ∨
    ((devWrite L fail m (p.offset + addr) bs p.dev).1 < (0 : ℤ) ∧
      p.SameOutside addr bs.length m (devWrite L fail m (p.offset + addr) bs p.dev).2 ∧
      ((∀ k, fail k = none) → p.dev = .onchip ∧
        (bs = [] ∨ ¬ ∀ (i : ℕ) (hi : i < bs.length), Below bs[i] (p.byte m (addr + i))))) := by
  have hlen := L.len_lt hp
  cases hd : p.dev with
  | onchip =>
    have hle := stm32_addr_le hp hd h
    have hlt : p.base + addr + bs.length < 4294967296 := Nat.lt_of_le_of_lt hle (by decide)
    simp only [devWrite, base_add hp hd (Nat.le_of_add_right_le h)] at hle ⊢
    have hbyte : ∀ i, p.byte m (addr + i) = m .onchip (p.base + addr + i) := fun i => by
      rw [FalPartition.byte, hd, Nat.add_assoc]
    rcases Int.lt_or_le (stm32FlashWrite fail m (p.base + addr) bs).1 0 with hneg | hnn
    · refine Or.inr ⟨hneg, fun e i hi => ?_, fun hq => ⟨trivial, ?_⟩⟩
      · refine stm32FlashWrite_frame hlt ?_
        rintro ⟨rfl, h₁, h₂⟩
        exact hi ⟨hd.symm, h₁, h₂⟩
      · by_contra hcon
        rw [not_or, not_not] at hcon
        have hpos : 0 < bs.length := List.length_pos_iff.2 hcon.1
        rw [stm32FlashWrite_of_below hq hle hpos fun i hi => hbyte i ▸ hcon.2 i hi] at hneg
        simp at hneg
        omega
    · obtain ⟨heq, hbelow⟩ := stm32FlashWrite_nonneg hle hnn
      refine Or.inl ⟨?_, fun _ i hi => by rw [hbyte]; exact hbelow i hi⟩
      rw [heq, FalPartition.programmed, hd]
  | nor =>
    have hle := sfud_addr_le hp hd h
    simp only [devWrite, norWrite, sfudWrite, base_add hp hd (Nat.le_of_add_right_le h)] at hle ⊢
    rw [if_neg (by omega), toInt32_of_lt (by omega)]
    cases hf : fail 0 with
    | none =>
      refine Or.inl ⟨?_, fun hc => by simp at hc⟩
      rw [FalPartition.programmed, hd]
    | some g =>
      refine Or.inr ⟨by simp, fun e i hi => ?_, fun hq => by simp [hq] at hf⟩
      refine programTorn_of_not_inRange ?_
      rintro ⟨rfl, h₁, h₂⟩
      exact hi ⟨hd.symm, h₁, h₂⟩

variable (m fail) in
/-- An erase that reports success set the blocks its range meets. Without failures below it only an
empty erase of the on-chip flash reports an error. -/
theorem devErase_eq (hp : p ∈ L.parts) (hsize : 0 < size) (h : addr + size ≤ p.len) :
    devErase L fail m (p.offset + addr) size p.dev =
        ((size : ℤ), p.erased m (eraseStart L p addr) (eraseStop L p (addr + size))) ∨
      ((devErase L fail m (p.offset + addr) size p.dev).1 < (0 : ℤ) ∧
        p.SameElsewhere m (devErase L fail m (p.offset + addr) size p.dev).2 ∧
        ¬ ∀ k, fail k = none) := by
  have hlen := L.len_lt hp
  have hrange := eraseRange_eq hp hsize h
  have hstop := eraseStop_le hp h
  have hstart := eraseStart_le L p addr
  have hout : ∀ {e i}, ¬ InRange p.dev p.base p.len e i → ¬ InRange p.dev
      (p.base + eraseStart L p addr) (eraseStop L p (addr + size) - eraseStart L p addr) e i := by
    rintro e i hi ⟨rfl, h₁, h₂⟩
    exact hi ⟨rfl, by omega, by omega⟩
  cases hd : p.dev with
  | onchip =>
    have hle := stm32_addr_le hp hd h
    have hlt : p.base + addr + size < 4294967296 := Nat.lt_of_le_of_lt hle (by decide)
    rw [hd] at hrange hout
    simp only [eraseRange, base_add hp hd (Nat.le_of_add_right_le h)] at hrange
    simp only [devErase, stm32FlashErase, base_add hp hd (Nat.le_of_add_right_le h)]
    rw [u32_of_lt hlt, if_neg (by omega), if_neg (by omega), toInt32_of_lt (by omega), hrange]
    cases hf : fail 0 with
    | none =>
      refine Or.inl ?_
      rw [FalPartition.erased, hd]
    | some g =>
      exact Or.inr ⟨by simp, fun e i hi => eraseTorn_of_not_inRange (hout (hd ▸ hi)),
        fun hq => by simp [hq] at hf⟩
  | nor =>
    have hle := sfud_addr_le hp hd h
    rw [hd] at hrange hout
    simp only [eraseRange, base_add hp hd (Nat.le_of_add_right_le h)] at hrange
    simp only [devErase, norErase, sfudErase, base_add hp hd (Nat.le_of_add_right_le h)]
    rw [if_neg (by omega), toInt32_of_lt (by omega), hrange]
    cases hf : fail 0 with
    | none =>
      refine Or.inl ?_
      rw [FalPartition.erased, hd]
    | some g =>
      exact Or.inr ⟨by simp, fun e i hi => eraseTorn_of_not_inRange (hout (hd ▸ hi)),
        fun hq => by simp [hq] at hf⟩

/-- Erasing nothing changes nothing, whether it reports an error or not. -/
theorem devErase_zero (L : Layout) (fail : ℕ → Option (ℕ → UInt8)) (m : Flash) (offset : ℕ)
    (d : Dev) : (devErase L fail m offset 0 d).2 = m := by
  cases d with
  | onchip =>
    rw [devErase, stm32FlashErase]
    split
    · rfl
    · rfl
  | nor =>
    have hsfud : (sfudErase L.chip fail m (u32 (devAddr .nor + offset)) 0).2 = m := by
      rw [sfudErase]
      split
      · rfl
      · rcases fail 0 with _ | g
        · exact erase_zero m .nor _
        · exact eraseTorn_zero m .nor _ g
    rw [devErase, norErase]
    split <;> rename_i heq <;> rwa [heq] at hsfud

/-! ## The FAL calls

`Q` and `E` are the postconditions of `Prog.wp`: of a result, and of a halt or a power loss. -/

/-- Nothing ever goes wrong. -/
def Calm (env : Env) : Prop := ∀ t o, env t o = Fault.none

/-- The flash on which nothing goes wrong. -/
def calmEnv : Env := fun _ _ => Fault.none

theorem calmEnv_calm : Calm calmEnv := fun _ _ => rfl

/-- No operation on a range of a partition is reported to fail. -/
def ReadsQuiet (env : Env) (p : FalPartition) : Prop :=
  ∀ t addr size, addr + size ≤ p.len → (env t (.read p.dev (p.offset + addr) size)).Quiet

theorem Calm.readsQuiet {env : Env} (h : Calm env) (p : FalPartition) : ReadsQuiet env p :=
  fun t _ _ _ => by rw [h t]; exact Fault.none_quiet

section Wp

variable {env : Env} {E : Option Halt → Board → Prop} {s : Board} {room : ℕ}

/-- One operation: lost power, or the drivers' answer. -/
theorem wp_ask_world {o : Op} {Q : o.Ans → Board → Prop} (hcut : ¬ Calm env → ∀ s', E none s')
    (h : ∀ s', s'.flash = (drive L (env s.tick o).fail s.flash o).2 →
      s'.log = ⟨o, o.ret (drive L (env s.tick o).fail s.flash o).1⟩ :: s.log →
      Q (drive L (env s.tick o).fail s.flash o).1 s') :
    (Prog.ask o : Prog Op.Ans Halt o.Ans).wp (world L env) Q E s := by
  rw [Prog.wp_ask, world]
  cases hc : (env s.tick o).cut with
  | none => exact h _ rfl rfl
  | some g => exact hcut (fun hcalm => by simp [hcalm s.tick o, Fault.none] at hc) _

/-- A console line changes no flash. -/
theorem wp_kprintf {msg : Msg} {Q : Unit → Board → Prop} (hcut : ¬ Calm env → ∀ s', E none s')
    (h : ∀ s', s'.flash = s.flash → s'.log = ⟨.print msg, 0⟩ :: s.log → Q () s') :
    (kprintf msg).wp (world L env) Q E s :=
  wp_ask_world hcut fun s' hs' hlog => h s' hs' hlog

/-- A read within the partition and the buffer. -/
theorem wp_falPartitionRead {Q : ℤ × Option (List UInt8) → Board → Prop} (hp : p ∈ L.parts)
    (h : addr + size ≤ p.len) (hroom : size ≤ room) (hcut : ¬ Calm env → ∀ s', E none s')
    (hok : ∀ s', s'.flash = s.flash →
      s'.log = ⟨.read p.dev (p.offset + addr) size, size⟩ :: s.log →
      Q (size, some (p.bytes s.flash addr size)) s')
    (hstale : ¬ ReadsQuiet env p → ∀ s', s'.flash = s.flash →
      s'.log = ⟨.read p.dev (p.offset + addr) size, size⟩ :: s.log → Q (size, none) s') :
    (falPartitionRead (some p) addr size room).wp (world L env) Q E s := by
  have hlen := L.len_lt hp
  rw [falPartitionRead, u32_of_lt (by omega), if_neg (by omega), if_neg (by omega)]
  refine wp_ask_world hcut fun s' hs' hlog => ?_
  rcases devRead_eq s.flash (env s.tick (.read p.dev (p.offset + addr) size)).fail hp h with heq | ⟨-, hfail, heq⟩
  · simp only [drive, heq] at hs' hlog ⊢
    exact hok s' hs' hlog
  · simp only [drive, heq] at hs' hlog ⊢
    exact hstale (fun hq => hfail (hq _ _ _ h)) s' hs' hlog

/-- A write within the partition. -/
theorem wp_falPartitionWrite {Q : ℤ → Board → Prop} (hp : p ∈ L.parts)
    (h : addr + bs.length ≤ p.len) (hcut : ¬ Calm env → ∀ s', E none s')
    (hok : (p.dev = .onchip →
        ∀ (i : ℕ) (hi : i < bs.length), Below bs[i] (p.byte s.flash (addr + i))) →
      ∀ s', s'.flash = p.programmed s.flash addr bs →
        s'.log = ⟨.write p.dev (p.offset + addr) bs, bs.length⟩ :: s.log → Q bs.length s')
    (hbad : ((∀ t, (env t (.write p.dev (p.offset + addr) bs)).Quiet) → p.dev = .onchip ∧ (bs = [] ∨
        ¬ ∀ (i : ℕ) (hi : i < bs.length), Below bs[i] (p.byte s.flash (addr + i)))) →
      ∀ r < 0, ∀ s', p.SameOutside addr bs.length s.flash s'.flash →
        s'.log = ⟨.write p.dev (p.offset + addr) bs, r⟩ :: s.log → Q r s') :
    (falPartitionWrite (some p) addr bs).wp (world L env) Q E s := by
  have hlen := L.len_lt hp
  rw [falPartitionWrite, u32_of_lt (by omega), if_neg (by omega)]
  refine wp_ask_world hcut fun s' hs' hlog => ?_
  rcases devWrite_eq s.flash (env s.tick (.write p.dev (p.offset + addr) bs)).fail hp h with ⟨heq, hbelow⟩ | ⟨hneg, hsame, hquiet⟩
  · simp only [drive, heq] at hs' hlog ⊢
    exact hok hbelow s' hs' hlog
  · simp only [drive] at hs' hlog ⊢
    exact hbad (fun hq => hquiet (hq _)) _ hneg s' (hs' ▸ hsame) hlog

/-- An erase within the partition. -/
theorem wp_falPartitionErase {Q : ℤ → Board → Prop} (hp : p ∈ L.parts) (hsize : 0 < size)
    (h : addr + size ≤ p.len) (hcut : ¬ Calm env → ∀ s', E none s')
    (hok : ∀ s', s'.flash = p.erased s.flash (eraseStart L p addr) (eraseStop L p (addr + size)) →
      s'.log = ⟨.erase p.dev (p.offset + addr) size, size⟩ :: s.log → Q size s')
    (hbad : ¬ Calm env → ∀ r < 0, ∀ s', p.SameElsewhere s.flash s'.flash → Q r s') :
    (falPartitionErase (some p) addr size).wp (world L env) Q E s := by
  have hlen := L.len_lt hp
  rw [falPartitionErase, u32_of_lt (by omega), if_neg (by omega)]
  refine wp_ask_world hcut fun s' hs' hlog => ?_
  rcases devErase_eq s.flash (env s.tick (.erase p.dev (p.offset + addr) size)).fail hp
    hsize h with heq | ⟨hneg, hsame, hfail⟩
  · simp only [drive, heq] at hs' hlog ⊢
    exact hok s' hs' hlog
  · simp only [drive] at hs' hlog ⊢
    exact hbad (fun hcalm => hfail (by rw [hcalm]; exact Fault.none_quiet)) _ hneg s' (hs' ▸ hsame)

/-- Erasing nothing. -/
theorem wp_falPartitionErase_zero {Q : ℤ → Board → Prop} (hcut : ¬ Calm env → ∀ s', E none s')
    (h : ∀ r s', s'.flash = s.flash → Q r s') :
    (falPartitionErase (some p) addr 0).wp (world L env) Q E s := by
  rw [falPartitionErase]
  split
  · exact h _ s rfl
  · refine wp_ask_world hcut fun s' hs' _ => ?_
    exact h _ s' (hs'.trans (devErase_zero ..))

/-- Erasing nothing, by device: the on-chip driver refuses it, and sfud has nothing to do. -/
theorem wp_falPartitionErase_nothing {Q : ℤ → Board → Prop} (hp : p ∈ L.parts)
    (hcut : ¬ Calm env → ∀ s', E none s')
    (honchip : p.dev = .onchip → ∀ r < 0, ∀ s', s'.flash = s.flash → Q r s')
    (hnor : p.dev = .nor → ∀ r s', s'.flash = s.flash → (Calm env → r = 0) → Q r s') :
    (falPartitionErase (some p) 0 0).wp (world L env) Q E s := by
  have hlen := L.len_lt hp
  have hwithin := (L.sound p hp).within
  have hcap := L.chip.capacity_lt
  rw [falPartitionErase, u32_of_lt (by omega), if_neg (by omega)]
  refine wp_ask_world hcut fun s' hs' _ => ?_
  have hsame : s'.flash = s.flash := hs'.trans (devErase_zero ..)
  rw [drive]
  cases hd : p.dev with
  | onchip =>
    refine honchip hd _ ?_ s' hsame
    rw [devErase, stm32FlashErase]
    split <;> exact Int.neg_neg_of_pos (by decide)
  | nor =>
    refine hnor hd _ s' hsame fun hcalm => ?_
    rw [hd, NorChip.devLen] at hwithin
    have haddr : u32 (devAddr .nor + (p.offset + 0)) = p.offset := by
      have hzero : devAddr .nor = 0 := rfl
      rw [hzero, Nat.zero_add, Nat.add_zero]
      exact u32_of_lt (by omega)
    rw [hcalm, devErase, haddr, norErase, sfudErase, Nat.add_zero, u32_of_lt (by omega),
      if_neg (by omega)]
    exact toInt32_of_lt (by decide)

/-! Out of the partition's bounds no device is called. -/

theorem falPartitionRead_out (h : p.len < addr + size) (hlt : addr + size < 4294967296) :
    falPartitionRead (some p) addr size room = Prog.ret (-1, none) := by
  rw [falPartitionRead, u32_of_lt hlt, if_pos h]

theorem falPartitionWrite_out (h : p.len < addr + bs.length)
    (hlt : addr + bs.length < 4294967296) :
    falPartitionWrite (some p) addr bs = Prog.ret (-1) := by
  rw [falPartitionWrite, u32_of_lt hlt, if_pos h]

theorem falPartitionErase_out (h : p.len < addr + size) (hlt : addr + size < 4294967296) :
    falPartitionErase (some p) addr size = Prog.ret (-1) := by
  rw [falPartitionErase, u32_of_lt hlt, if_pos h]

end Wp

end RtThreadOta
