import Mathlib.Data.Int.Notation
import Mathlib.Tactic.Common
import RtThreadOta.Library.Nor

/-!
# The flash chips of the board

Two chips hold partitions: the 128 KB sectors of the on-chip flash, addressed by absolute memory
address, and the serial NOR flash. A `Fault` says what goes wrong in one driver call: the power may
be lost during it, or a sub-operation of it (one HAL call, one sfud call) may report failure.
-/

namespace RtThreadOta

open Nor

/-- The chip a partition lives on (`fal_flash_dev`). -/
inductive Dev where
  /-- `stm32_onchip_flash_128k`, addressed absolutely -/
  | onchip
  /-- `nor_flash0` -/
  | nor
deriving DecidableEq, Repr

/-- What the board's flash holds. -/
abbrev Flash := Mem Dev

/-- What goes wrong in one driver call. The pattern `g` chooses the bits left behind. -/
structure Fault where
  /-- the power is lost during the call -/
  cut : Option (ℕ → UInt8)
  /-- whether sub-operation `k` of the call reports failure -/
  fail : ℕ → Option (ℕ → UInt8)

/-- Nothing goes wrong. -/
def Fault.none : Fault := ⟨Option.none, fun _ => Option.none⟩

/-- Nothing is reported; the power may still be lost. -/
def Fault.Quiet (f : Fault) : Prop := ∀ k, f.fail k = Option.none

theorem Fault.none_quiet : Fault.none.Quiet := fun _ => rfl

end RtThreadOta
