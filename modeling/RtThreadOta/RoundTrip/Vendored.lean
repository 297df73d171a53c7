import RtThreadOta.Aes.RoundTrip
import RtThreadOta.Fastlz.RoundTrip
import RtThreadOta.Fastlz.Safety
import RtThreadOta.Qboot.CrashSafe
import RtThreadOta.Quicklz.RoundTrip

/-!
# Updates with the packages of the repository

`Codecs` and `PackCodecs` leave open what the packages compute. Here the bootloader decompresses with
`fastlz.c` and `quicklz.c` and decrypts with `tiny_aes.c`, and the package was made with the compressors and
the cipher of the same files. What is left open is zlib, and gzip on the side of the tool.
-/

namespace RtThreadOta

open Interaction Nor Words

variable {L : Layout} {env : Env} {dst src : FalPartition} {fuel : ℕ} {m m₀ : Flash}
  {c : Compression} {encrypt : Bool} {pi : PackInfo} {file : List UInt8} {inflater : Inflater}
  {gzip : List UInt8 → List UInt8}

/-! ## The packages -/

/-- What the caller of `fastlz_decompress` finds in the output. -/
def Fastlz.Result.bytes : Fastlz.Result → List UInt8
  | .returned out => out
  | _ => []

/-- What the caller of `qlz_decompress` finds in the output, up to the size that is returned. -/
def Quicklz.Result.bytes : Quicklz.Result → List UInt8
  | .returned out => out
  | _ => []

end RtThreadOta
