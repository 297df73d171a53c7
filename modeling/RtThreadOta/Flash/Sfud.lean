import RtThreadOta.Flash.Device
import RtThreadOta.Library.Words

/-!
# The serial NOR flash (`fal_flash_sfud_port.c` over sfud)

`sfudRead`, `sfudWrite` and `sfudErase` are the sfud calls; each is one sub-operation, which may
report failure. The port functions `norRead`, `norWrite` and `norErase` are the `read`, `write` and
`erase` of the port file.
-/

namespace RtThreadOta

open Nor Words

/-- The probed chip: `chip.capacity` and `chip.erase_gran`, whole sectors of 4 KB. -/
structure NorChip where
  capacity : ℕ
  eraseGran : ℕ
  eraseGran_pos : 0 < eraseGran
  eraseGran_dvd : 4096 ∣ eraseGran
  capacity_lt : capacity < 2147483648

/-- `sfud_read`; `none` is an error, which leaves the buffer as it was. -/
def sfudRead (chip : NorChip) (fail : ℕ → Option (ℕ → UInt8)) (m : Flash) (addr size : ℕ) :
    Option (List UInt8) :=
  if u32 (addr + size) > chip.capacity then none
  else
    match fail 0 with
    | some _ => none
    | none => some (read m .nor addr size)

/-- `sfud_write`; whether it returned `SFUD_SUCCESS`. -/
def sfudWrite (chip : NorChip) (fail : ℕ → Option (ℕ → UInt8)) (m : Flash) (addr : ℕ)
    (data : List UInt8) : Bool × Flash :=
  if u32 (addr + data.length) > chip.capacity then (false, m)
  else
    match fail 0 with
    | some g => (false, programTorn m .nor addr data g)
    | none => (true, program m .nor addr data)

/-- The bytes `sfud_erase` erases: the erase blocks that its loop over the range visits. -/
def sfudEraseRange (chip : NorChip) (addr size : ℕ) : ℕ × ℕ :=
  if size = 0 then (addr, 0)
  else
    let start := addr / chip.eraseGran * chip.eraseGran
    (start, ((addr + size - 1) / chip.eraseGran + 1) * chip.eraseGran - start)

/-- `sfud_erase`; whether it returned `SFUD_SUCCESS`. -/
def sfudErase (chip : NorChip) (fail : ℕ → Option (ℕ → UInt8)) (m : Flash) (addr size : ℕ) :
    Bool × Flash :=
  if u32 (addr + size) > chip.capacity then (false, m)
  else
    let r := sfudEraseRange chip addr size
    match fail 0 with
    | some g => (false, eraseTorn m .nor r.1 r.2 g)
    | none => (true, erase m .nor r.1 r.2)

/-- `read` of the port: the result of `sfud_read` is dropped. -/
def norRead (chip : NorChip) (fail : ℕ → Option (ℕ → UInt8)) (m : Flash) (offset size : ℕ) :
    ℤ × Option (List UInt8) :=
  (toInt32 size, sfudRead chip fail m offset size)

/-- `write` of the port -/
def norWrite (chip : NorChip) (fail : ℕ → Option (ℕ → UInt8)) (m : Flash) (offset : ℕ)
    (buf : List UInt8) : ℤ × Flash :=
  match sfudWrite chip fail m offset buf with
  | (true, m') => (toInt32 buf.length, m')
  | (false, m') => (-1, m')

/-- `erase` of the port -/
def norErase (chip : NorChip) (fail : ℕ → Option (ℕ → UInt8)) (m : Flash) (offset size : ℕ) :
    ℤ × Flash :=
  match sfudErase chip fail m offset size with
  | (true, m') => (toInt32 size, m')
  | (false, m') => (-1, m')

end RtThreadOta
