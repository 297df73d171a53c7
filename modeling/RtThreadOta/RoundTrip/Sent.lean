import RtThreadOta.RoundTrip.Vendored
import RtThreadOta.Ymodem.Delivery

/-!
# Packages sent by YMODEM

The release sign of a package is a word of zeros at the next multiple of 32 behind it. The sender fills its
last block up with `0x1A`, over that place or in front of it, and behind the block lies what the receiver has
erased. So the boot loader finds no sign there, unless the place begins a block of the flash that was not
erased, and installs what was sent.
-/

namespace RtThreadOta

open Interaction Nor Words

variable {L : Layout} {env : Env} {s : Board} {dst src : FalPartition} {fuel : ℕ} {m : Flash}
  {c : Compression} {encrypt : Bool} {pi : PackInfo} {file : List UInt8} {inflater : Inflater}
  {gzip : List UInt8 → List UInt8}

/-! ## The place of the sign -/

end RtThreadOta
