import RtThreadOta.Qboot.Ram

/-!
# Reading packages (`qboot.c`)

The checks of a stored package (`qbt_fw_info_check`, `qbt_fw_crc_check`), its release sign, and the
reads that decrypt it on the way. Loops carry fuel, which bounds their rounds.
-/

namespace RtThreadOta

open Interaction Words

variable (L : Layout) {P : Codecs}

/-- `qbt_part_is_exist` -/
def qbtPartIsExist (partName : List UInt8) : Bool := (falPartitionFind L partName).isSome

/-- Put what a read handed over into a buffer. -/
def storeRead {n : ℕ} (buf : Buffer n) (off : ℕ) (data : Option (List UInt8)) : Buffer n :=
  match data with
  | some bs => buf.store off bs
  | none => buf

/-- `qbt_fw_info_read` into the static header. -/
def qbtFwInfoRead (partName : List UInt8) (ram : Ram P) (fromTail : Bool) : Code (Ram P × Bool) :=
  match falPartitionFind L partName with
  | none => Prog.halt (if fromTail then .undefined else .assertFailed)
  | some part => do
    let addr := if fromTail then part.len - fwInfoSize else 0
    let (ret, data) ← falPartitionRead (some part) addr fwInfoSize fwInfoSize
    if ret < 0 then Prog.ret (ram, false)
    else Prog.ret ({ ram with fwInfo := storeRead ram.fwInfo 0 data }, true)

/-- `qbt_fw_info_write` -/
def qbtFwInfoWrite (partName : List UInt8) (info : FwInfo) (toTail : Bool) : Code Bool :=
  match falPartitionFind L partName with
  | none => Prog.halt (if toTail then .undefined else .assertFailed)
  | some part => do
    let addr := if toTail then part.len - fwInfoSize else 0
    let ret ← falPartitionWrite (some part) addr info.bytes
    Prog.ret (decide (0 ≤ ret))

/-- `qbt_fw_info_check` -/
def qbtFwInfoCheck (info : FwInfo) : Bool :=
  decide (info.type = ascii ['R', 'B', 'L']) &&
    decide ((crc32Cal (info.bytes.take 92)).toNat = info.hdrCrc)

/-- `read_len` of the loops: at most `size` and at most the `u32` number of bytes that remain, the
comparison made in `int`; as the `size_t` it is passed as. -/
def readLen (size remain : ℕ) : ℕ :=
  let remainLen := toInt32 remain
  if (size : ℤ) > remainLen then ofInt32 remainLen else size

/-- The loop of `qbt_fw_crc_check`. -/
def qbtFwCrcCheckLoop (part : Option FalPartition) (addr size : ℕ) :
    (fuel : ℕ) → Ram P → (pos : ℕ) → (crc32 : UInt32) → Code (Ram P × Option UInt32)
  | 0, _, _, _ => Prog.halt .diverged
  | fuel + 1, ram, pos, crc32 =>
    if pos < size then do
      let len := readLen qbootBufSize (subU32 size pos)
      let (ret, data) ← falPartitionRead part (u32 (addr + pos)) len qbootCmprsBufSize
      if ret < 0 then Prog.ret (ram, none)
      else do
        let ram := { ram with cmprsBuf := storeRead ram.cmprsBuf 0 data }
        qbtFwCrcCheckLoop part addr size fuel ram (u32 (pos + len))
          (crc32CycCal crc32 (ram.cmprsBuf.slice 0 len))
    else Prog.ret (ram, some crc32)

/-- `qbt_fw_crc_check` -/
def qbtFwCrcCheck (fuel : ℕ) (partName : List UInt8) (addr size crc : ℕ) (ram : Ram P) :
    Code (Ram P × Bool) := do
  let part := falPartitionFind L partName
  let (ram, res) ← qbtFwCrcCheckLoop part addr size fuel ram 0 crc32InitVal
  match res with
  | none => Prog.ret (ram, false)
  | some crc32 => Prog.ret (ram, decide ((crc32 ^^^ crc32InitVal).toNat = crc))

/-- Where the release sign of a package lies: its end rounded up to 32, in `u32`. -/
def releaseSignPos (info : FwInfo) : ℕ := u32 (fwInfoSize + info.pkgSize + 0x1F) / 32 * 32

/-- `qbt_release_sign_check`; `release_sign` is 0 before the read. -/
def qbtReleaseSignCheck (partName : List UInt8) (info : FwInfo) : Code Bool := do
  let part := falPartitionFind L partName
  let (ret, data) ← falPartitionRead part (releaseSignPos info) 4 4
  if ret < 0 then Prog.ret false
  else Prog.ret (decide (le32 (storeRead (Buffer.fill 4 0) 0 data).bytes 0 = 0))

/-- `qbt_release_sign_write` -/
def qbtReleaseSignWrite (partName : List UInt8) (info : FwInfo) : Code Bool := do
  let part := falPartitionFind L partName
  let ret ← falPartitionWrite part (releaseSignPos info) (encodeLe32 0)
  Prog.ret (decide (0 ≤ ret))

/-- `qbt_fw_decrypt_init`; `none` when the encryption is not supported. -/
def qbtFwDecryptInit (cryptType : ℕ) (ram : Ram P) : Option (Ram P) :=
  if cryptType = qbootAlgoCryptNone then some ram
  else if cryptType = qbootAlgoCryptAes then some { ram with aesIv := qbootAesIv }
  else none

/-- `qbt_fw_decompress_init`; `none` when the compression is not supported. -/
def qbtFwDecompressInit (cmprsType : ℕ) (ram : Ram P) : Option (Ram P) :=
  if cmprsType = qbootAlgoCmprsNone then some ram
  else if cmprsType = qbootAlgoCmprsGzip then
    some { ram with gzipRemainLen := 0, strm := P.inflater.init, nextIn := [] }
  else if cmprsType = qbootAlgoCmprsQuicklz then some ram
  else if cmprsType = qbootAlgoCmprsFastlz then some ram
  else none

/-- Blocks of 16 bytes that `tiny_aes_crypt_cbc` steps through for a length. -/
def aesBlocks (len : ℕ) : ℕ := (len + 15) / 16

/-- `qbt_aes_decrypt` from `crypt_buf` into `cmprs_buf + off`. It works in whole blocks, also past
`len`. -/
def qbtAesDecrypt (ram : Ram P) (off len : ℕ) : Code (Ram P) :=
  let n := aesBlocks len
  if qbootBufSize < n * 16 ∨ qbootCmprsBufSize < off + n * 16 then Prog.halt .undefined
  else
    let r := Cbc.decrypt (P.aesDec qbootAesKey) 16 n ram.aesIv (ram.cryptBuf.slice 0 (n * 16))
    Prog.ret { ram with cmprsBuf := ram.cmprsBuf.store off r.1, aesIv := r.2 }

/-- `qbt_fw_pkg_read` into `cmprs_buf + off`. -/
def qbtFwPkgRead (part : Option FalPartition) (pos off len : ℕ) (ram : Ram P) (cryptType : ℕ) :
    Code (Ram P × Bool) :=
  if cryptType = qbootAlgoCryptNone then do
    let (ret, data) ← falPartitionRead part pos len (qbootCmprsBufSize - off)
    if ret < 0 then Prog.ret (ram, false)
    else Prog.ret ({ ram with cmprsBuf := storeRead ram.cmprsBuf off data }, true)
  else if cryptType = qbootAlgoCryptAes then do
    let (ret, data) ← falPartitionRead part pos len qbootBufSize
    if ret < 0 then Prog.ret (ram, false)
    else do
      let ram ← qbtAesDecrypt { ram with cryptBuf := storeRead ram.cryptBuf 0 data } off len
      Prog.ret (ram, true)
  else Prog.ret (ram, false)

end RtThreadOta
