import RtThreadOta.Fal.PartitionSpec

/-!
# How far erases and writes reach

`fal_partition_erase` and `fal_partition_write` compare `addr + size` with the length of the partition
in 32 bits, and the driver does the same with the end of the flash. A sum that wraps passes both
checks. Here is what then becomes of the app partition and of the sectors in front of it.
-/

namespace RtThreadOta

open Interaction Nor Words

variable {addr size : ℕ}

/-- The HAL erases the sectors it is asked for. -/
def ErasesQuiet (env : Env) : Prop := ∀ t dev offset size, (env t (.erase dev offset size)).Quiet

theorem calmEnv_erasesQuiet : ErasesQuiet calmEnv := fun _ _ _ _ => Fault.none_quiet

/-- An erase call on the app partition stays where it belongs: it reports an error and changes
nothing, or it sets all of the range, and nothing but sectors of the partition that the range
meets. -/
def EraseWithin (addr size : ℕ) : Prop :=
  ∀ (env : Env) (s s' : Board) (ret : ℤ), ErasesQuiet env →
    (falPartitionErase (some appPart) addr size).run (world falPartTable env) s = .done ret s' →
    ret < 0 ∧ s'.flash = s.flash ∨
      (∀ e i, s'.flash e i ≠ s.flash e i → InRange appPart.dev appPart.base appPart.len e i ∧
        ∃ j, addr ≤ j ∧ j < addr + size ∧ (i - appPart.base) / 0x20000 = j / 0x20000) ∧
      ∀ j, addr ≤ j → j < addr + size → s'.flash appPart.dev (appPart.base + j) = 0xFF

/-- A write call on the app partition stays where it belongs: whatever goes wrong in it, it changes no
byte outside its range and none outside the partition. -/
def WriteWithin (addr size : ℕ) : Prop :=
  ∀ (env : Env) (s s' : Board) (buf : List UInt8) (ret : ℤ), buf.length = size →
    (falPartitionWrite (some appPart) addr buf).run (world falPartTable env) s = .done ret s' →
    ∀ e i, s'.flash e i ≠ s.flash e i → InRange appPart.dev appPart.base appPart.len e i ∧
      InRange appPart.dev (appPart.base + addr) size e i

/-- Both. -/
structure StaysWithin (addr size : ℕ) : Prop where
  erase : EraseWithin addr size
  write : WriteWithin addr size

theorem appPart_mem : appPart ∈ falPartTable.parts := by decide

/-! ## Without a wrap -/

/-- An erase that is refused changes nothing. -/
theorem eraseWithin_of_refused (h : appPart.len < u32 (addr + size)) : EraseWithin addr size := by
  intro env s s' ret _ hrun
  rw [falPartitionErase, if_pos h] at hrun
  cases hrun
  exact Or.inl ⟨by decide, rfl⟩

/-- A write that is refused changes nothing. -/
theorem writeWithin_of_refused (h : appPart.len < u32 (addr + size)) : WriteWithin addr size := by
  intro env s s' buf ret hlen hrun
  subst hlen
  rw [falPartitionWrite, if_pos h] at hrun
  cases hrun
  intro e i hne
  exact absurd rfl hne

/-- Erasing nothing is an error of the driver. -/
theorem stm32FlashErase_zero (fail : ℕ → Option (ℕ → UInt8)) (m : Flash) (addr : ℕ) :
    stm32FlashErase fail m addr 0 = (-rtEinval, m) := by
  rw [stm32FlashErase]
  split
  · rfl
  · rfl

theorem eraseWithin_zero (addr : ℕ) : EraseWithin addr 0 := by
  intro env s s' ret _ hrun
  have hwp : (falPartitionErase (some appPart) addr 0).wp (world falPartTable env)
      (fun ret s' => ret < 0 ∧ s'.flash = s.flash) (fun _ _ => True) s := by
    rw [falPartitionErase]
    split
    · exact ⟨by decide, rfl⟩
    refine wp_ask_world (fun _ _ => trivial) fun s' hs' _ => ?_
    simp only [drive, appPart, devErase, stm32FlashErase_zero] at hs' ⊢
    exact ⟨by decide, hs'⟩
  rw [Prog.wp_iff_run, hrun] at hwp
  exact Or.inl hwp

/-- An erase in bounds. -/
theorem eraseWithin_of_le (hsize : 0 < size) (hin : addr + size ≤ appPart.len) :
    EraseWithin addr size := by
  intro env s s' ret hquiet hrun
  have hstop := eraseStop_le appPart_mem hin
  have hsize' : falPartTable.chip.blkSize appPart.dev = 0x20000 := rfl
  have hwp : (falPartitionErase (some appPart) addr size).wp (world falPartTable env)
      (fun _ s' => s'.flash = appPart.erased s.flash (eraseStart falPartTable appPart addr)
        (eraseStop falPartTable appPart (addr + size))) (fun _ _ => True) s := by
    rw [falPartitionErase, u32_of_lt (Nat.lt_of_le_of_lt hin (by decide)), if_neg (by omega)]
    refine wp_ask_world (fun _ _ => trivial) fun s' hs' _ => ?_
    rcases devErase_eq s.flash (env s.tick (.erase appPart.dev (appPart.offset + addr) size)).fail
      appPart_mem hsize hin with heq | ⟨-, -, hfail⟩
    · simp only [drive, heq] at hs'
      exact hs'
    · exact absurd (hquiet _ _ _ _) hfail
  rw [Prog.wp_iff_run, hrun] at hwp
  refine Or.inr ⟨fun e i hne => ?_, fun j hj hj' => ?_⟩
  · have hi : InRange appPart.dev (appPart.base + eraseStart falPartTable appPart addr)
        (eraseStop falPartTable appPart (addr + size) - eraseStart falPartTable appPart addr) e i := by
      by_contra hout
      apply hne
      rw [hwp, FalPartition.erased, erase_of_not_inRange hout]
    obtain ⟨rfl, hlo, hhi⟩ := hi
    refine ⟨⟨rfl, by omega, by omega⟩, ?_⟩
    -- a byte of the range in the same sector
    simp only [eraseStart, eraseStop, roundUp, hsize'] at hlo hhi
    refine ⟨max addr ((i - appPart.base) / 0x20000 * 0x20000), by omega, by omega, by omega⟩
  · have hbyte := FalPartition.byte_erased (p := appPart) (m := s.flash) (i := j)
      (Nat.le_trans (eraseStart_le falPartTable appPart addr) hj)
      (Nat.lt_of_lt_of_le hj' (le_eraseStop falPartTable appPart (addr + size)))
    rw [hwp]
    exact hbyte

/-- A write in bounds, whatever goes wrong in it. -/
theorem writeWithin_of_le (hin : addr + size ≤ appPart.len) : WriteWithin addr size := by
  intro env s s' buf ret hlen hrun
  subst hlen
  have hwp : (falPartitionWrite (some appPart) addr buf).wp (world falPartTable env)
      (fun _ s' => appPart.SameOutside addr buf.length s.flash s'.flash) (fun _ _ => True) s := by
    refine wp_falPartitionWrite appPart_mem hin (fun _ _ => trivial) (fun _ s' hs' _ => ?_)
      fun _ _ _ s' hs' _ => hs'
    rw [hs']
    intro e i hi
    exact program_of_not_inRange hi
  rw [Prog.wp_iff_run, hrun] at hwp
  intro e i hne
  have hi : InRange appPart.dev (appPart.base + addr) buf.length e i := by
    by_contra hout
    exact hne (hwp e i hout)
  obtain ⟨rfl, hlo, hhi⟩ := hi
  exact ⟨⟨rfl, by omega, by omega⟩, rfl, hlo, hhi⟩

/-! ## With a wrap -/

/-- A write whose end wraps back into the partition programs the last byte in front of it. -/
theorem not_writeWithin_of_wrap (haddr : addr < 4294967296) (hwrap : 4294967296 ≤ addr + size)
    (hin : u32 (addr + size) ≤ appPart.len) : ¬ WriteWithin addr size := by
  intro hwithin
  let s : Board := ⟨fun _ _ => 0xFF, 0, []⟩
  let buf := List.replicate size (0 : UInt8)
  have hlen : buf.length = size := List.length_replicate ..
  -- byte `0xFFFFFFFF` of the partition lies in front of it
  have hlast : u32 (u32 (0x08020000 + addr) + (0xFFFFFFFF - addr)) = 0x0801FFFF := by
    simp only [u32]
    omega
  have hend : u32 (u32 (0x08020000 + addr) + buf.length) ≤ stm32FlashEndAddress := by
    rw [hlen, stm32FlashEndAddress]
    simp only [u32, appPart] at hin ⊢
    omega
  have hzero := stm32FlashWrite_zeros (m := s.flash) Fault.none_quiet
    (u32_lt _) hend (fun b hb => List.eq_of_mem_replicate hb) (i := 0xFFFFFFFF - addr) (by omega)
  rw [hlast] at hzero
  have hwp : (falPartitionWrite (some appPart) addr buf).wp (world falPartTable calmEnv)
      (fun _ s' => s'.flash .onchip 0x0801FFFF = 0) (fun _ _ => False) s := by
    rw [falPartitionWrite, hlen, if_neg (by omega)]
    refine wp_ask_world (fun h => absurd calmEnv_calm h) fun s' hs' _ => ?_
    rw [hs']
    simp only [drive, appPart, devWrite, devAddr, Nat.zero_add]
    exact hzero
  obtain ⟨ret, s', hrun, hbyte⟩ := Prog.run_done_of_wp hwp
  have hne : s'.flash .onchip 0x0801FFFF ≠ s.flash .onchip 0x0801FFFF := by
    rw [hbyte]
    exact (by decide : (0 : UInt8) ≠ 0xFF)
  obtain ⟨-, hlo, -⟩ := (hwithin calmEnv s s' buf ret hlen hrun _ _ hne).1
  exact absurd hlo (by decide)

/-- **When erases and writes stay within the app partition**: when the end of the range fits 32 bits, and
when it wraps to an end that the partition's bound refuses. -/
theorem staysWithin_iff (addr size : UInt32) : StaysWithin addr.toNat size.toNat ↔
    addr.toNat + size.toNat < 4294967296 ∨
      appPart.len < (addr.toNat + size.toNat) % 4294967296 := by
  have haddr : addr.toNat < 4294967296 := addr.toNat_lt
  generalize addr.toNat = addr at haddr ⊢
  generalize size.toNat = size
  rw [← u32]
  constructor
  · intro h
    by_contra hcon
    rw [not_or, Nat.not_lt, Nat.not_lt] at hcon
    exact not_writeWithin_of_wrap haddr hcon.1 hcon.2 h.write
  · intro h
    by_cases href : appPart.len < u32 (addr + size)
    · exact ⟨eraseWithin_of_refused href, writeWithin_of_refused href⟩
    have hlt : addr + size < 4294967296 := h.resolve_right href
    have hin : addr + size ≤ appPart.len := by
      rw [u32_of_lt hlt] at href
      omega
    rcases Nat.eq_zero_or_pos size with rfl | hsize
    · exact ⟨eraseWithin_zero addr, writeWithin_of_le hin⟩
    · exact ⟨eraseWithin_of_le hsize hin, writeWithin_of_le hin⟩

/-- Two bytes from the last 32-bit address on: the erase takes the sector in front of the partition,
where the bootloader ends. -/
theorem lastByte_leavesPartition : ¬ StaysWithin 0xFFFFFFFF 2 := by
  intro h
  let s : Board := ⟨fun _ _ => 0, 0, []⟩
  have hwp : (falPartitionErase (some appPart) 0xFFFFFFFF 2).wp (world falPartTable calmEnv)
      (fun _ s' => s'.flash .onchip 0x08010000 = 0xFF) (fun _ _ => False) s := by
    rw [falPartitionErase, if_neg (by decide +kernel)]
    refine wp_ask_world (fun h => absurd calmEnv_calm h) fun s' hs' _ => ?_
    rw [hs']
    decide +kernel
  obtain ⟨ret, s', hrun, hbyte⟩ := Prog.run_done_of_wp hwp
  have hne : s'.flash .onchip 0x08010000 ≠ s.flash .onchip 0x08010000 := by
    rw [hbyte]
    exact (by decide : (0xFF : UInt8) ≠ 0)
  rcases h.erase calmEnv s s' ret calmEnv_erasesQuiet hrun with ⟨-, hsame⟩ | ⟨hwithin, -⟩
  · exact hne (by rw [hsame])
  · obtain ⟨⟨-, hlo, -⟩, -⟩ := hwithin _ _ hne
    exact absurd hlo (by decide)

end RtThreadOta
