import RtThreadOta.Qboot.Release

/-!
# The boot flow (`qboot.c`, `qboot_stm32.c`)

`qbt_thread_entry` and what it calls, and the shell commands that touch a partition.
-/

namespace RtThreadOta

open Interaction Words

variable (L : Layout) {P : Codecs}

/-- `qbt_app_resume_from` -/
def qbtAppResumeFrom (fuel : ℕ) (srcPartName : List UInt8) (ram : Ram P) :
    Code (Ram P × Bool) := do
  let (ram, ok) ← qbtFwCheck L fuel srcPartName ram
  if !ok then Prog.ret (ram, false)
  else if ram.fwInfo.partName ≠ qbootAppPartName then Prog.ret (ram, false)
  else do
    let (ram, ok) ← qbtFwUpdate L fuel (.lit qbootAppPartName) (.lit srcPartName) ram
    if !ok then Prog.ret (ram, false)
    else do
      kprintf (.resumeSuccess srcPartName)
      Prog.ret (ram, true)

/-- Whether the package of a partition is to be taken as released already. -/
def alreadyReleased (partName : List UInt8) (checkSign : Bool) (ram : Ram P) : Code Bool :=
  if checkSign then qbtReleaseSignCheck L partName ram.fwInfo else Prog.ret false

/-- `qbt_release_from_part` -/
def qbtReleaseFromPart (fuel : ℕ) (partName : List UInt8) (checkSign : Bool) (ram : Ram P) :
    Code (Ram P × Bool) := do
  let (ram, ok) ← qbtFwCheck L fuel partName ram
  if !ok then Prog.ret (ram, false)
  else do
    let released ← alreadyReleased L partName checkSign ram
    if released then Prog.ret (ram, true)
    else do
      let (ram, ok) ← qbtFwUpdate L fuel .ofFwInfo (.lit partName) ram
      if !ok then Prog.ret (ram, false)
      else do
        let signed ← qbtReleaseSignCheck L partName ram.fwInfo
        if signed then do
          kprintf (.releaseSuccess partName ram.fwInfo.partName)
          Prog.ret (ram, true)
        else do
          let _ ← qbtReleaseSignWrite L partName ram.fwInfo
          kprintf (.releaseSuccess partName ram.fwInfo.partName)
          Prog.ret (ram, true)

/-- `QBOOT_APP_ADDR` -/
def qbootAppAddr : ℕ := 0x08020000

/-- The vector words `qbt_jump_to_app` takes for an application: the initial stack pointer in RAM and
the reset handler in flash. -/
def legitimateApp (stkAddr appFunc : ℕ) : Bool :=
  decide (appFunc &&& 0xff000000 = 0x08000000) &&
    (decide (stkAddr &&& 0x2ff00000 = 0x20000000) || decide (stkAddr &&& 0x2ff00000 = 0x24000000))

/-- `qbt_jump_to_app`; whether control was transferred, after which nothing here runs any more. -/
def qbtJumpToApp : Code Bool := do
  let stkAddr ← loadFlash qbootAppAddr 4
  let appFunc ← loadFlash (qbootAppAddr + 4) 4
  Prog.ret (legitimateApp (le32 stkAddr 0) (le32 appFunc 0))

/-- What the boot flow takes from outside the flash. -/
structure BootInput where
  /-- `fal_init() > 0` -/
  falReady : Bool
  /-- the factory key is held down -/
  factoryKey : Bool
  /-- the results of `qbt_startup_shell`: without FAL, after the key, at the end -/
  shellNoFal : Bool
  shellKey : Bool
  shellEnd : Bool

/-- How `qbt_thread_entry` ends. -/
inductive BootEnd where
  /-- in the application -/
  | jumped
  | shell
  | reset
deriving DecidableEq, Repr

/-- `qbt_app_resume_from` and, when it succeeds, the jump after it. -/
def resumeAndJump (fuel : ℕ) (srcPartName : List UInt8) (ram : Ram P) : Code (Ram P × Bool) := do
  let (ram, ok) ← qbtAppResumeFrom L fuel srcPartName ram
  if ok then do
    let jumped ← qbtJumpToApp
    Prog.ret (ram, jumped)
  else Prog.ret (ram, false)

/-- The restore that the factory key asks for. -/
def factoryRestore (fuel : ℕ) (factoryKey : Bool) (ram : Ram P) : Code (Ram P × Bool) :=
  if factoryKey then resumeAndJump L fuel qbootFactoryPartName ram else Prog.ret (ram, false)

/-- `qbt_thread_entry` -/
def qbtThreadEntry (fuel : ℕ) (input : BootInput) (ram : Ram P) : Code BootEnd :=
  if !input.falReady then Prog.ret (if input.shellNoFal then .shell else .reset)
  else do
    let (ram, jumped) ← factoryRestore L fuel input.factoryKey ram
    if jumped then Prog.ret .jumped
    else if input.shellKey then Prog.ret .shell
    else do
      -- the result is dropped
      let (ram, _) ← qbtReleaseFromPart L fuel qbootDownloadPartName true ram
      let jumped ← qbtJumpToApp
      if jumped then Prog.ret .jumped
      else do
        let (ram, jumped) ← resumeAndJump L fuel qbootDownloadPartName ram
        if jumped then Prog.ret .jumped
        else do
          let (_, jumped) ← resumeAndJump L fuel qbootFactoryPartName ram
          Prog.ret (if jumped then .jumped else if input.shellEnd then .shell else .reset)

/-! ## Shell commands on a partition -/

/-- The loop of `qbt_fw_clone`. -/
def qbtFwCloneLoop (srcPart dstPart : Option FalPartition) (fwPkgSize : ℕ) :
    (fuel : ℕ) → Ram P → (pos : ℕ) → Code (Ram P × Bool)
  | 0, _, _ => Prog.halt .diverged
  | fuel + 1, ram, pos =>
    if pos < fwPkgSize then do
      let len := readLen qbootBufSize (subU32 fwPkgSize pos)
      let (ret, data) ← falPartitionRead srcPart pos len qbootCmprsBufSize
      if ret < 0 then Prog.ret (ram, false)
      else do
        let ram := { ram with cmprsBuf := storeRead ram.cmprsBuf 0 data }
        let ret ← falPartitionWrite dstPart pos (ram.cmprsBuf.slice 0 len)
        if ret < 0 then Prog.ret (ram, false)
        else qbtFwCloneLoop srcPart dstPart fwPkgSize fuel ram (u32 (pos + len))
    else Prog.ret (ram, true)

/-- `qbt_fw_clone` -/
def qbtFwClone (fuel : ℕ) (dstPartName srcPartName : List UInt8) (fwPkgSize : ℕ) (ram : Ram P) :
    Code (Ram P × Bool) := do
  let srcPart := falPartitionFind L srcPartName
  let dstPart := falPartitionFind L dstPartName
  let ret ← falPartitionErase dstPart 0 fwPkgSize
  if ret < 0 then Prog.ret (ram, false)
  else qbtFwCloneLoop srcPart dstPart fwPkgSize fuel ram 0

/-- `qbt_fw_delete` -/
def qbtFwDelete (partName : List UInt8) (partSize : ℕ) : Code Bool := do
  let ret ← falPartitionErase (falPartitionFind L partName) 0 partSize
  Prog.ret (decide (0 ≤ ret))

/-- `qboot clone src dst` -/
def shellClone (fuel : ℕ) (src dst : List UInt8) (ram : Ram P) : Code (Ram P × Bool) :=
  if !qbtPartIsExist L dst then Prog.ret (ram, false)
  else do
    let (ram, ok) ← qbtFwCheck L fuel src ram
    if !ok then Prog.ret (ram, false)
    else qbtFwClone L fuel dst src (u32 (fwInfoSize + ram.fwInfo.pkgSize)) ram

/-- `qboot del part` -/
def shellDel (fuel : ℕ) (partName : List UInt8) (ram : Ram P) : Code (Ram P × Bool) := do
  let (ram, ok) ← qbtFwCheck L fuel partName ram
  if !ok then Prog.ret (ram, false)
  else do
    let ok ← qbtFwDelete L partName ram.fwInfo.pkgSize
    Prog.ret (ram, ok)

end RtThreadOta
