import RtThreadOta.Fal.Layout
import RtThreadOta.Library.Interaction

/-!
# Partition access (`fal_partition.c`)

The bootloader is a program over the operations `Op`: a call of the flash device a partition lives
on, a load from memory-mapped flash, or a line on the console. A `Board` is the world that answers
it. `world L env` runs the drivers on the board's flash; `env` says what goes wrong in the call made
at each tick.
-/

namespace RtThreadOta

open Interaction Nor Words

/-- The console lines that say how far an update got. -/
inductive Msg where
  /-- `"Start erase partition %s ..."` -/
  | startErase (dst : List UInt8)
  /-- `"Qboot firmware update success."` -/
  | updateSuccess
  /-- `"Qboot resume success from %s."` -/
  | resumeSuccess (src : List UInt8)
  /-- `"Release firmware success from %s to %s."` -/
  | releaseSuccess (src dst : List UInt8)
deriving DecidableEq, Repr

/-- What the program asks of the board: `flash_dev->ops.read`, `.write` and `.erase`, a load from
memory-mapped flash, a console line. -/
inductive Op where
  | read (dev : Dev) (offset size : ℕ)
  | write (dev : Dev) (offset : ℕ) (buf : List UInt8)
  | erase (dev : Dev) (offset size : ℕ)
  | load (addr size : ℕ)
  | print (msg : Msg)
deriving DecidableEq, Repr

/-- What the board answers. A read also hands over the bytes that went into the buffer, `none` when
it left the buffer as it was. -/
def Op.Ans : Op → Type
  | .read .. => ℤ × Option (List UInt8)
  | .write .. => ℤ
  | .erase .. => ℤ
  | .load .. => List UInt8
  | .print _ => Unit

/-- Why the program stops without returning. -/
inductive Halt where
  /-- a buffer overrun or a signed overflow: C gives the rest no meaning -/
  | undefined
  /-- a loop outlived its fuel -/
  | diverged
  /-- an assertion of FAL failed -/
  | assertFailed
deriving DecidableEq, Repr

/-- A program of the bootloader. -/
abbrev Code (α : Type) := Prog Op.Ans Halt α

/-- An operation that was issued and, for a flash operation, the result code: -1 as well when the
power was lost during it. -/
structure Event where
  op : Op
  ret : ℤ
deriving DecidableEq, Repr

/-- The board: its flash, the number of operations so far and what they were, newest first. -/
structure Board where
  flash : Flash
  tick : ℕ
  log : List Event

/-- What goes wrong in the operation `o` made at tick `t`. -/
abbrev Env := ℕ → Op → Fault

/-- The result code of an answer. -/
def Op.ret : (o : Op) → o.Ans → ℤ
  | .read .., r => r.1
  | .write .., r => r
  | .erase .., r => r
  | .load .., _ => 0
  | .print _, _ => 0

/-! The operations of a device add the offset to the device's address in 32 bits. -/

/-- `ops.read` of a device. -/
def devRead (L : Layout) (fail : ℕ → Option (ℕ → UInt8)) (m : Flash) (offset size : ℕ) :
    Dev → ℤ × Option (List UInt8)
  | .onchip => stm32FlashRead m (u32 (devAddr .onchip + offset)) size
  | .nor => norRead L.chip fail m (u32 (devAddr .nor + offset)) size

/-- `ops.write` of a device. -/
def devWrite (L : Layout) (fail : ℕ → Option (ℕ → UInt8)) (m : Flash) (offset : ℕ)
    (buf : List UInt8) : Dev → ℤ × Flash
  | .onchip => stm32FlashWrite fail m (u32 (devAddr .onchip + offset)) buf
  | .nor => norWrite L.chip fail m (u32 (devAddr .nor + offset)) buf

/-- `ops.erase` of a device. -/
def devErase (L : Layout) (fail : ℕ → Option (ℕ → UInt8)) (m : Flash) (offset size : ℕ) :
    Dev → ℤ × Flash
  | .onchip => stm32FlashErase fail m (u32 (devAddr .onchip + offset)) size
  | .nor => norErase L.chip fail m (u32 (devAddr .nor + offset)) size

/-- An operation as the drivers answer it. -/
def drive (L : Layout) (fail : ℕ → Option (ℕ → UInt8)) (m : Flash) : (o : Op) → o.Ans × Flash
  | .read dev offset size => (devRead L fail m offset size dev, m)
  | .write dev offset buf => devWrite L fail m offset buf dev
  | .erase dev offset size => devErase L fail m offset size dev
  | .load addr size => (Nor.read m .onchip addr size, m)
  | .print _ => ((), m)

/-- The bytes of the chip that an erase call sets. -/
def eraseRange (L : Layout) (dev : Dev) (offset size : ℕ) : ℕ × ℕ :=
  match dev with
  | .onchip => stm32EraseRange (u32 (devAddr .onchip + offset)) size
  | .nor => sfudEraseRange L.chip (u32 (devAddr .nor + offset)) size

/-- What the flash holds when the power is lost during the call. -/
def cutFlash (L : Layout) (g : ℕ → UInt8) (m : Flash) : Op → Flash
  | .write dev offset buf => programTorn m dev (u32 (devAddr dev + offset)) buf g
  | .erase dev offset size =>
    eraseCut m dev (eraseRange L dev offset size).1 (eraseRange L dev offset size).2 g
  | _ => m

/-- The board answers an operation, or loses power during it. -/
def world (L : Layout) (env : Env) : Handler Op.Ans Board := fun o s =>
  match (env s.tick o).cut with
  | some g => (none, ⟨cutFlash L g s.flash o, s.tick + 1, ⟨o, -1⟩ :: s.log⟩)
  | none =>
    (some (drive L (env s.tick o).fail s.flash o).1,
      ⟨(drive L (env s.tick o).fail s.flash o).2, s.tick + 1,
        ⟨o, o.ret (drive L (env s.tick o).fail s.flash o).1⟩ :: s.log⟩)

/-! ## The calls of FAL -/

/-- `flash_dev->ops.read` -/
def opsRead (dev : Dev) (offset size : ℕ) : Code (ℤ × Option (List UInt8)) :=
  Prog.ask (Op.read dev offset size)

/-- `flash_dev->ops.write` -/
def opsWrite (dev : Dev) (offset : ℕ) (buf : List UInt8) : Code ℤ :=
  Prog.ask (Op.write dev offset buf)

/-- `flash_dev->ops.erase` -/
def opsErase (dev : Dev) (offset size : ℕ) : Code ℤ := Prog.ask (Op.erase dev offset size)

/-- `rt_kprintf` or `LOG_I` of a line that says how far an update got -/
def kprintf (msg : Msg) : Code Unit := Prog.ask (Op.print msg)

/-- A load from memory-mapped flash. -/
def loadFlash (addr size : ℕ) : Code (List UInt8) := Prog.ask (Op.load addr size)

/-- `fal_partition_read`; `room` is what is left of the buffer the bytes go to, and a longer read
overruns it. -/
def falPartitionRead (part : Option FalPartition) (addr size room : ℕ) :
    Code (ℤ × Option (List UInt8)) :=
  match part with
  | none => Prog.halt .assertFailed
  | some part =>
    if u32 (addr + size) > part.len then Prog.ret (-1, none)
    else if room < size then Prog.halt .undefined
    else opsRead part.dev (part.offset + addr) size

/-- `fal_partition_write` -/
def falPartitionWrite (part : Option FalPartition) (addr : ℕ) (buf : List UInt8) : Code ℤ :=
  match part with
  | none => Prog.halt .assertFailed
  | some part =>
    if u32 (addr + buf.length) > part.len then Prog.ret (-1)
    else opsWrite part.dev (part.offset + addr) buf

/-- `fal_partition_erase` -/
def falPartitionErase (part : Option FalPartition) (addr size : ℕ) : Code ℤ :=
  match part with
  | none => Prog.halt .assertFailed
  | some part =>
    if u32 (addr + size) > part.len then Prog.ret (-1)
    else opsErase part.dev (part.offset + addr) size

end RtThreadOta
