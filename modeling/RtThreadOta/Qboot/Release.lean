import RtThreadOta.Qboot.Package

/-!
# Decoding a package (`qboot.c`)

`qbt_dest_part_write` and `qbt_app_crc_cal` decode the bytes in `cmprs_buf` by the same four arms and
differ in what becomes of the decoded bytes: one writes them to a partition, the other puts them
through a CRC. A `Sink` is that difference. The loops of `qbt_fw_release` and `qbt_app_crc_check`
around them are one loop as well.
-/

namespace RtThreadOta

open Interaction Words

variable (L : Layout) {P : Codecs} {τ : Type}

/-- What becomes of decoded bytes. A chunk of `n` bytes moves the position on by `putLen n`; the
bytes the gzip arm has left at the end of the package are flushed and move it by `flushLen n`. -/
structure Sink (τ : Type) where
  put : τ → (pos : ℕ) → List UInt8 → Code (Option τ)
  putLen : ℕ → ℕ
  flush : τ → (pos : ℕ) → List UInt8 → Code τ
  flushLen : ℕ → ℕ
  /-- `gzip_remain_len` after a flush -/
  keepLen : ℕ → ℕ

/-- `qbt_dest_part_write`: write to the partition; the flush pads with `0xFF` to 32 bytes and
ignores the result. -/
def destSink (part : Option FalPartition) : Sink Unit where
  put _ pos bs := do
    let ret ← falPartitionWrite part pos bs
    Prog.ret (if ret < 0 then none else some ())
  putLen n := n
  flush _ pos bs := do
    let _ ← falPartitionWrite part pos
      (bs ++ List.replicate (gzipRemainBufSize - bs.length) 0xFF)
    Prog.ret ()
  flushLen _ := gzipRemainBufSize
  keepLen n := n

/-- `qbt_app_crc_cal`: continue the CRC over at most `max_cal_len` bytes of a chunk. -/
def crcSink (maxCalLen : ℕ) : Sink UInt32 where
  put crc32 _ bs := Prog.ret (some (crc32CycCal crc32 (bs.take maxCalLen)))
  putLen n := min n maxCalLen
  flush crc32 _ bs := Prog.ret (crc32CycCal crc32 (bs.take maxCalLen))
  flushLen n := min n maxCalLen
  keepLen n := min n maxCalLen

/-- How a decoding call ends: the buffers, the `cmprs_len` left, and the sink with the length it took,
`none` for the result `-1`. -/
abbrev ArmEnd (P : Codecs) (τ : Type) := Ram P × ℕ × Option (τ × ℕ)

/-- The arm `QBOOT_ALGO_CMPRS_NONE`. -/
def noneArm (sink : Sink τ) (ram : Ram P) (cmprsLen : ℕ) (st : τ) (pos : ℕ) :
    Code (ArmEnd P τ) := do
  match ← sink.put st pos (ram.cmprsBuf.slice 0 cmprsLen) with
  | none => Prog.ret (ram, 0, none)
  | some st => Prog.ret (ram, 0, some (st, sink.putLen cmprsLen))

/-- Hand over a chunk unless it is empty. -/
def Sink.putSome (sink : Sink τ) (st : τ) (pos : ℕ) (bs : List UInt8) : Code (Option τ) :=
  if 0 < bs.length then sink.put st pos bs else Prog.ret (some st)

/-- The loop of the arm `QBOOT_ALGO_CMPRS_GZIP`, after `qbt_gzip_set_in`. What lies behind the
`gzip_remain_len` bytes of `gzip_remain_buf` is never read, so the padding of a flush is not kept. -/
def gzipArmLoop (sink : Sink τ) (cmprsLen : ℕ) :
    (fuel : ℕ) → Ram P → (st : τ) → (pos writeLen : ℕ) → Code (ArmEnd P τ)
  | 0, _, _, _, _ => Prog.halt .diverged
  | fuel + 1, ram, st, pos, writeLen =>
    let remain := ram.gzipRemainBuf.slice 0 ram.gzipRemainLen
    let room := qbootBufSize - ram.gzipRemainLen
    match P.inflater.inflate ram.strm ram.nextIn room with
    | (strm, used, res) =>
      let ram := { ram with strm := strm, nextIn := ram.nextIn.drop used }
      match res with
      | none => Prog.ret ({ ram with cryptBuf := ram.cryptBuf.store 0 remain }, 0, none)
      | some out =>
        let decmprs := remain ++ out
        let keep := decmprs.length % gzipRemainBufSize
        let n := decmprs.length - keep
        let ram :=
          { ram with
            cryptBuf := ram.cryptBuf.store 0 decmprs
            gzipRemainLen := keep
            gzipRemainBuf := ram.gzipRemainBuf.store 0 (decmprs.drop n) }
        do
        match ← sink.putSome st (pos + writeLen) (decmprs.take n) with
        | none => Prog.ret (ram, 0, none)
        | some st =>
          let writeLen := writeLen + sink.putLen n
          if out.length < room then
            if cmprsLen < qbootCmprsReadSize ∧ 0 < keep then do
              let st ← sink.flush st (pos + writeLen) (decmprs.drop n)
              Prog.ret ({ ram with gzipRemainLen := sink.keepLen keep }, 0,
                some (st, writeLen + sink.flushLen keep))
            else Prog.ret (ram, 0, some (st, writeLen))
          else gzipArmLoop sink cmprsLen fuel ram st pos writeLen

/-- The arm `QBOOT_ALGO_CMPRS_GZIP`. -/
def gzipArm (fuel : ℕ) (sink : Sink τ) (ram : Ram P) (cmprsLen : ℕ) (st : τ) (pos : ℕ) :
    Code (ArmEnd P τ) :=
  gzipArmLoop sink cmprsLen fuel { ram with nextIn := ram.cmprsBuf.slice 0 cmprsLen } st pos 0

/-- `QBOOT_QUICKLZ_BLOCK_HDR_SIZE` and `QBOOT_FASTLZ_BLOCK_HDR_SIZE` -/
def blockHdrSize : ℕ := 4

/-- The loop of the arms `QBOOT_ALGO_CMPRS_QUICKLZ` and `QBOOT_ALGO_CMPRS_FASTLZ`: a block is its
size, big-endian, and as many bytes. `left` bounds the rounds: each one takes bytes off
`cmprs_len`. -/
def framedArmLoop (decompress : List UInt8 → List UInt8) (sink : Sink τ) :
    (left : ℕ) → Ram P → (cmprsLen : ℕ) → (st : τ) → (pos writeLen : ℕ) → Code (ArmEnd P τ)
  | 0, _, _, _, _, _ => Prog.halt .diverged
  | left + 1, ram, cmprsLen, st, pos, writeLen =>
    if cmprsLen < blockHdrSize then Prog.ret (ram, cmprsLen, some (st, writeLen))
    else
      let blockSize := toInt32 (be32 ram.cmprsBuf.bytes 0)
      if blockSize ≤ 0 then Prog.ret (ram, cmprsLen, some (st, writeLen))
      -- `block_size + HDR_SIZE` leaves the range of int
      else if intMax < blockSize + blockHdrSize then Prog.halt .undefined
      else if (cmprsLen : ℤ) < blockSize + blockHdrSize then
        Prog.ret (ram, cmprsLen, some (st, writeLen))
      else
        let size := blockSize.toNat
        let out := decompress (ram.cmprsBuf.slice blockHdrSize size)
        if qbootBufSize < out.length then Prog.halt .undefined
        else if out.length = 0 then Prog.ret (ram, 0, none)
        else do
          let ram := { ram with cryptBuf := ram.cryptBuf.store 0 out }
          match ← sink.put st (pos + writeLen) out with
          | none => Prog.ret (ram, 0, none)
          | some st =>
            let rest := cmprsLen - (size + blockHdrSize)
            let ram :=
              { ram with
                cmprsBuf := ram.cmprsBuf.store 0 (ram.cmprsBuf.slice (size + blockHdrSize) rest) }
            framedArmLoop decompress sink left ram rest st pos (writeLen + sink.putLen out.length)

/-- The arms of the framed codecs. -/
def framedArm (decompress : List UInt8 → List UInt8) (sink : Sink τ) (ram : Ram P) (cmprsLen : ℕ)
    (st : τ) (pos : ℕ) : Code (ArmEnd P τ) :=
  framedArmLoop decompress sink (cmprsLen + 1) ram cmprsLen st pos 0

/-- The `switch(cmprs_type)` of both functions. -/
def decompressArm (fuel : ℕ) (sink : Sink τ) (cmprsType : ℕ) (ram : Ram P) (cmprsLen : ℕ) (st : τ)
    (pos : ℕ) : Code (ArmEnd P τ) :=
  if cmprsType = qbootAlgoCmprsNone then noneArm sink ram cmprsLen st pos
  else if cmprsType = qbootAlgoCmprsGzip then gzipArm fuel sink ram cmprsLen st pos
  else if cmprsType = qbootAlgoCmprsQuicklz then
    framedArm P.qlzDecompress sink ram cmprsLen st pos
  else if cmprsType = qbootAlgoCmprsFastlz then
    framedArm (fun block => P.fastlzDecompress block qbootBufSize) sink ram cmprsLen st pos
  else Prog.ret (ram, 0, none)

/-- `qbt_dest_part_write` -/
def qbtDestPartWrite (fuel : ℕ) (part : Option FalPartition) (pos : ℕ) (ram : Ram P)
    (cmprsLen cmprsType : ℕ) : Code (ArmEnd P Unit) :=
  decompressArm fuel (destSink part) cmprsType ram cmprsLen () pos

/-- `qbt_app_crc_cal` -/
def qbtAppCrcCal (fuel : ℕ) (crc32 : UInt32) (maxCalLen : ℕ) (ram : Ram P)
    (cmprsLen cmprsType : ℕ) : Code (ArmEnd P UInt32) :=
  decompressArm fuel (crcSink maxCalLen) cmprsType ram cmprsLen crc32 0

/-- The loop of `qbt_fw_release` and `qbt_app_crc_check`: read the next bytes of the package, decode
them with `call`, and go on until `raw_size` bytes are done. `none` is an error. -/
def pkgLoop (call : τ → (pos : ℕ) → Ram P → (cmprsLen : ℕ) → Code (ArmEnd P τ))
    (srcPart : Option FalPartition) (info : FwInfo) :
    (fuel : ℕ) → Ram P → τ → (pos srcReadPos cmprsLen : ℕ) → Code (Ram P × Option τ)
  | 0, _, _, _, _, _ => Prog.halt .diverged
  | fuel + 1, ram, st, pos, srcReadPos, cmprsLen =>
    if pos < info.rawSize then do
      let len := readLen qbootCmprsReadSize (subU32 (u32 (info.pkgSize + fwInfoSize)) srcReadPos)
      let (ram, ok) ← qbtFwPkgRead srcPart srcReadPos cmprsLen len ram info.cryptType
      if !ok then Prog.ret (ram, none)
      else do
        let (ram, cmprsLen, res) ← call st pos ram (u32 (cmprsLen + len))
        match res with
        | none => Prog.ret (ram, none)
        | some (st, calLen) =>
          pkgLoop call srcPart info fuel ram st (u32 (pos + calLen)) (u32 (srcReadPos + len))
            cmprsLen
    else Prog.ret (ram, some st)

/-- `qbt_app_crc_check` with the static header. -/
def qbtAppCrcCheck (fuel : ℕ) (fwPartName : List UInt8) (ram : Ram P) : Code (Ram P × Bool) :=
  let info := ram.fwInfo
  let srcPart := falPartitionFind L fwPartName
  match qbtFwDecryptInit info.cryptType ram with
  | none => Prog.ret (ram, false)
  | some ram =>
    match qbtFwDecompressInit info.cmprsType ram with
    | none => Prog.ret (ram, false)
    | some ram => do
      let (ram, res) ← pkgLoop
        (fun crc32 pos ram cmprsLen =>
          qbtAppCrcCal fuel crc32 (info.rawSize - pos) ram cmprsLen info.cmprsType)
        srcPart info fuel ram crc32InitVal 0 fwInfoSize 0
      match res with
      | none => Prog.ret (ram, false)
      | some crc32 => Prog.ret (ram, decide ((crc32 ^^^ crc32InitVal).toNat = info.rawCrc))

/-- The erases of `qbt_fw_release`: the blocks of the image and those of the header at the tail. -/
def eraseTarget (dstPart : Option FalPartition) (rawSize : ℕ) : Code Bool := do
  let ret ← falPartitionErase dstPart 0 rawSize
  if ret < 0 then Prog.ret false
  else do
    let ret ← falPartitionErase dstPart ((dstPart.elim 0 FalPartition.len) - fwInfoSize) fwInfoSize
    Prog.ret (decide (0 ≤ ret))

/-- The part of `qbt_fw_release` behind the erases: the loop, then the header. -/
def releaseTo (fuel : ℕ) (dstName : List UInt8) (dstPart srcPart : Option FalPartition)
    (info : FwInfo) (ram : Ram P) : Code (Ram P × Bool) := do
  let (ram, res) ← pkgLoop
    (fun _ pos ram cmprsLen => qbtDestPartWrite fuel dstPart pos ram cmprsLen info.cmprsType)
    srcPart info fuel ram () 0 fwInfoSize 0
  match res with
  | none => Prog.ret (ram, false)
  | some _ => do
    let ok ← qbtFwInfoWrite L dstName info true
    Prog.ret (ram, ok)

/-- `qbt_fw_release` with the static header, which nothing here changes. -/
def qbtFwRelease (fuel : ℕ) (dstPartName srcPartName : PartName) (ram : Ram P) :
    Code (Ram P × Bool) :=
  let info := ram.fwInfo
  let dstName := dstPartName.get ram
  let srcPart := falPartitionFind L (srcPartName.get ram)
  let dstPart := falPartitionFind L dstName
  match qbtFwDecryptInit info.cryptType ram with
  | none => Prog.ret (ram, false)
  | some ram =>
    match qbtFwDecompressInit info.cmprsType ram with
    | none => Prog.ret (ram, false)
    | some ram => do
      kprintf (.startErase dstName)
      let erased ← eraseTarget dstPart info.rawSize
      if !erased then Prog.ret (ram, false)
      else releaseTo L fuel dstName dstPart srcPart info ram

/-- `qbt_dest_part_verify`; it reads the tail header over the static one. -/
def qbtDestPartVerify (fuel : ℕ) (partName : PartName) (ram : Ram P) : Code (Ram P × Bool) := do
  let (ram, ok) ← qbtFwInfoRead L (partName.get ram) ram true
  if !ok then Prog.ret (ram, false)
  else if !qbtFwInfoCheck ram.fwInfo then Prog.ret (ram, false)
  else if ram.fwInfo.verifyType = qbootAlgo2VerifyCrc then
    qbtFwCrcCheck L fuel (partName.get ram) 0 ram.fwInfo.rawSize ram.fwInfo.rawCrc ram
  else Prog.ret (ram, true)

/-- `qbt_fw_check` into the static header. -/
def qbtFwCheck (fuel : ℕ) (fwPartName : List UInt8) (ram : Ram P) : Code (Ram P × Bool) :=
  if !qbtPartIsExist L fwPartName then Prog.ret (ram, false)
  else do
    let (ram, ok) ← qbtFwInfoRead L fwPartName ram false
    if !ok then Prog.ret (ram, false)
    else if !qbtFwInfoCheck ram.fwInfo then Prog.ret (ram, false)
    else do
      let (ram, ok) ← qbtFwCrcCheck L fuel fwPartName fwInfoSize ram.fwInfo.pkgSize
        ram.fwInfo.pkgCrc ram
      if !ok then Prog.ret (ram, false)
      else if ram.fwInfo.verifyType = qbootAlgo2VerifyCrc then
        qbtAppCrcCheck L fuel fwPartName ram
      else Prog.ret (ram, true)

/-- `qbt_fw_update` with the static header. -/
def qbtFwUpdate (fuel : ℕ) (dstPartName srcPartName : PartName) (ram : Ram P) :
    Code (Ram P × Bool) :=
  if !qbtPartIsExist L (dstPartName.get ram) then Prog.ret (ram, false)
  else do
    let (ram, rst) ← qbtFwRelease L fuel dstPartName srcPartName ram
    if !rst then Prog.ret (ram, false)
    else do
      let (ram, ok) ← qbtDestPartVerify L fuel dstPartName ram
      if !ok then Prog.ret (ram, false)
      else do
        kprintf .updateSuccess
        Prog.ret (ram, true)

end RtThreadOta
