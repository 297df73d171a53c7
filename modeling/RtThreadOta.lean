import RtThreadOta.Library.Interaction
import RtThreadOta.Library.Words
import RtThreadOta.Library.Nor
import RtThreadOta.Library.Cbc
import RtThreadOta.Library.Buffer
import RtThreadOta.Library.Lfsr
import RtThreadOta.Library.Lz77
import RtThreadOta.Library.RoundCipher
import RtThreadOta.Crc.Crc32
import RtThreadOta.Crc.Crc32Bits
import RtThreadOta.Aes.Tables
import RtThreadOta.Aes.TinyAes
import RtThreadOta.Aes.Mixing
import RtThreadOta.Aes.RoundTrip
import RtThreadOta.Fastlz.Decompress
import RtThreadOta.Fastlz.Compress
import RtThreadOta.Fastlz.Tokens
import RtThreadOta.Fastlz.RoundTrip
import RtThreadOta.Fastlz.Safety
import RtThreadOta.Quicklz.Decompress
import RtThreadOta.Quicklz.Compress
import RtThreadOta.Quicklz.Tokens
import RtThreadOta.Quicklz.RoundTrip
import RtThreadOta.Quicklz.Safety
import RtThreadOta.Flash.Device
import RtThreadOta.Flash.Stm32
import RtThreadOta.Flash.Stm32Hal
import RtThreadOta.Flash.Sfud
import RtThreadOta.Fal.Layout
import RtThreadOta.Fal.Partition
import RtThreadOta.Fal.PartitionSpec
import RtThreadOta.Fal.Reach
import RtThreadOta.Qboot.Ram
import RtThreadOta.Qboot.Package
import RtThreadOta.Qboot.Release
import RtThreadOta.Qboot.Boot
import RtThreadOta.Qboot.Traces
import RtThreadOta.Qboot.BootFlow
import RtThreadOta.Packager.FirmwarePack
import RtThreadOta.Qboot.Decoder
import RtThreadOta.Qboot.Arms
import RtThreadOta.Qboot.PkgLoop
import RtThreadOta.Qboot.Sinks
import RtThreadOta.Qboot.CheckSpec
import RtThreadOta.Qboot.UpdateSpec
import RtThreadOta.Qboot.Programs
import RtThreadOta.RoundTrip.Packed
import RtThreadOta.RoundTrip.Uncompressed
import RtThreadOta.RoundTrip.Gzip
import RtThreadOta.RoundTrip.Framed
import RtThreadOta.Qboot.Integrity
import RtThreadOta.RoundTrip.Header
import RtThreadOta.Qboot.Frame
import RtThreadOta.Qboot.Clone
import RtThreadOta.Qboot.Survival
import RtThreadOta.Qboot.SelfRelease
import RtThreadOta.Qboot.Memory
import RtThreadOta.Qboot.Idempotence
import RtThreadOta.Qboot.Decoding
import RtThreadOta.Qboot.Termination
import RtThreadOta.Qboot.DryRun
import RtThreadOta.Qboot.Intact
import RtThreadOta.Qboot.Bounds
import RtThreadOta.Qboot.Success
import RtThreadOta.RoundTrip.Installable
import RtThreadOta.Qboot.PowerLoss
import RtThreadOta.Qboot.CrashSafe
import RtThreadOta.RoundTrip.Vendored
import RtThreadOta.Ymodem.Receiver
import RtThreadOta.Ymodem.Session
import RtThreadOta.Ymodem.Sender
import RtThreadOta.Ymodem.FileSize
import RtThreadOta.Ymodem.FirstPacket
import RtThreadOta.Ymodem.Download
import RtThreadOta.Ymodem.Exchange
import RtThreadOta.Ymodem.Delivery
import RtThreadOta.RoundTrip.Sent
import RtThreadOta.Syswatch.Kernel
import RtThreadOta.Syswatch.Watch
import RtThreadOta.Syswatch.Restart
import RtThreadOta.Syswatch.Runs
