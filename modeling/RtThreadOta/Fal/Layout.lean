import Mathlib.Data.List.Pairwise
import RtThreadOta.Flash.Stm32
import RtThreadOta.Flash.Sfud

/-!
# The partition table (`fal_cfg.h`)

A `Layout` is a probed NOR chip and a partition table with the facts that the configuration keeps:
every partition lies within its chip, starts and ends on an erase block, has room for a package
header, has a name of its own and shares no byte with another one. `falPartTable` is the table of
the board.
-/

namespace RtThreadOta

/-- Size of `fw_info_t`. -/
def fwInfoSize : ℕ := 96

/-- A row of the partition table (`fal_partition`); the name is its C string. -/
structure FalPartition where
  name : List UInt8
  dev : Dev
  offset : ℕ
  len : ℕ
deriving DecidableEq, Repr

/-- The bytes of an ASCII text. -/
def ascii (cs : List Char) : List UInt8 := cs.map fun c => UInt8.ofNat c.toNat

/-- Smallest erase unit of a chip. -/
def NorChip.blkSize (chip : NorChip) : Dev → ℕ
  | .onchip => 0x20000
  | .nor => chip.eraseGran

/-- Bytes of a chip. -/
def NorChip.devLen (chip : NorChip) : Dev → ℕ
  | .onchip => 0x60000
  | .nor => chip.capacity

/-- `fal_flash_dev.addr` -/
def devAddr : Dev → ℕ
  | .onchip => 0x08020000
  | .nor => 0

/-- Address of a partition's first byte on its chip. -/
def FalPartition.base (p : FalPartition) : ℕ := devAddr p.dev + p.offset

/-- What the configuration promises of one partition. -/
structure FalPartition.Sound (chip : NorChip) (p : FalPartition) : Prop where
  within : p.offset + p.len ≤ chip.devLen p.dev
  offset_aligned : chip.blkSize p.dev ∣ p.offset
  len_aligned : chip.blkSize p.dev ∣ p.len
  header_fits : fwInfoSize ≤ p.len

instance (chip : NorChip) (p : FalPartition) : Decidable (p.Sound chip) :=
  decidable_of_iff (p.offset + p.len ≤ chip.devLen p.dev ∧ chip.blkSize p.dev ∣ p.offset ∧
      chip.blkSize p.dev ∣ p.len ∧ fwInfoSize ≤ p.len)
    ⟨fun ⟨a, b, c, d⟩ => ⟨a, b, c, d⟩, fun ⟨a, b, c, d⟩ => ⟨a, b, c, d⟩⟩

/-- Two partitions share no byte and no name. -/
def FalPartition.Apart (p q : FalPartition) : Prop :=
  p.name ≠ q.name ∧
    (p.dev = q.dev → p.offset + p.len ≤ q.offset ∨ q.offset + q.len ≤ p.offset)

instance (p q : FalPartition) : Decidable (p.Apart q) :=
  inferInstanceAs (Decidable (_ ∧ _))

/-- A NOR chip and a partition table over it and the on-chip flash. -/
structure Layout where
  chip : NorChip
  parts : List FalPartition
  sound : ∀ p ∈ parts, p.Sound chip
  apart : parts.Pairwise FalPartition.Apart

/-- `QBOOT_APP_PART_NAME` -/
def qbootAppPartName : List UInt8 := ascii ['a', 'p', 'p']

/-- `QBOOT_DOWNLOAD_PART_NAME` -/
def qbootDownloadPartName : List UInt8 := ascii ['d', 'o', 'w', 'n', 'l', 'o', 'a', 'd']

/-- `QBOOT_FACTORY_PART_NAME` -/
def qbootFactoryPartName : List UInt8 := ascii ['f', 'a', 'c', 't', 'o', 'r', 'y']

/-- `FAL_PART_TABLE` over the 8 MB chip with 4096-byte erase blocks. -/
def falPartTable : Layout where
  chip := ⟨8 * 1024 * 1024, 4096, by decide, by decide, by decide⟩
  parts :=
    [⟨qbootAppPartName, .onchip, 0, 3 * 128 * 1024⟩,
      ⟨ascii ['d', 'a', 't', 'a'], .nor, 0, 2 * 1024 * 1024⟩,
      ⟨ascii ['c', 'a', 'c', 'h', 'e'], .nor, 2 * 1024 * 1024, 1 * 1024 * 1024⟩,
      ⟨ascii ['p', 'a', 'r', 'a'], .nor, 3 * 1024 * 1024, 2 * 1024 * 1024⟩,
      ⟨ascii ['c', 'o', 'n', 'f', 'i', 'g'], .nor, 5 * 1024 * 1024, 1 * 1024 * 1024⟩,
      ⟨qbootDownloadPartName, .nor, 6 * 1024 * 1024, 1 * 1024 * 1024⟩,
      ⟨qbootFactoryPartName, .nor, 7 * 1024 * 1024, 1 * 1024 * 1024⟩]
  sound := by decide
  apart := by decide

/-- The application partition of the board. -/
def appPart : FalPartition := ⟨qbootAppPartName, .onchip, 0, 3 * 128 * 1024⟩

/-- The download partition of the board. -/
def downloadPart : FalPartition := ⟨qbootDownloadPartName, .nor, 6 * 1024 * 1024, 1 * 1024 * 1024⟩

/-- `fal_partition_find` -/
def falPartitionFind (L : Layout) (name : List UInt8) : Option FalPartition :=
  L.parts.find? fun p => decide (name = p.name)

section

variable {L : Layout} {p q : FalPartition} {name : List UInt8}

theorem mem_of_find (h : falPartitionFind L name = some p) : p ∈ L.parts :=
  List.mem_of_find?_eq_some h

theorem name_of_find (h : falPartitionFind L name = some p) : p.name = name := by
  have := List.find?_some h
  simpa using Eq.symm (of_decide_eq_true this)

instance : Std.Symm FalPartition.Apart where
  symm _ _ := fun ⟨hn, hr⟩ => ⟨hn.symm, fun hd => (hr hd.symm).symm⟩

/-- Different partitions of a table are apart. -/
theorem Layout.apart_of_ne (hp : p ∈ L.parts) (hq : q ∈ L.parts) (h : p ≠ q) : p.Apart q :=
  L.apart.forall hp hq h

/-- A partition is the one of its name. -/
theorem find_of_mem (hp : p ∈ L.parts) : falPartitionFind L p.name = some p := by
  have hsome : (falPartitionFind L p.name).isSome := by
    rw [falPartitionFind, List.find?_isSome]
    exact ⟨p, hp, decide_eq_true rfl⟩
  obtain ⟨q, hq⟩ := Option.isSome_iff_exists.1 hsome
  rw [hq]
  by_contra hne
  exact (L.apart_of_ne (mem_of_find hq) hp fun h => hne (congrArg some h)).1 (name_of_find hq)

/-- A byte of one partition is no byte of another. -/
theorem Layout.disjoint (hp : p ∈ L.parts) (hq : q ∈ L.parts) (h : p ≠ q) {i j : ℕ}
    (hi : i < p.len) (hj : j < q.len) (hd : p.dev = q.dev) : p.base + i ≠ q.base + j := by
  have := (L.apart_of_ne hp hq h).2 hd
  rw [FalPartition.base, FalPartition.base, hd]
  omega

end

end RtThreadOta
