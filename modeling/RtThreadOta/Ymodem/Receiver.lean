import Mathlib.Logic.Function.Iterate
import RtThreadOta.Fal.Partition
import RtThreadOta.Library.Buffer

/-!
# Receiving a package by YMODEM (`ymodem.c`, `ymodem_ota.c`)

`rym_recv_on_device` with the callbacks of `ymodem_ota`: the first packet names the file and its size,
for which the download partition is erased, and every data packet is written behind the one before. What
the sender does is a `Line`: the bytes in order, and the silences in which a wait runs out.
-/

namespace RtThreadOta

open Interaction Words

/-- What happens on the serial line while the receiver waits: a byte comes, or nothing does until the
wait runs out. Behind its end nothing comes any more. -/
abbrev Line := List (Option UInt8)

/-! ## Codes -/

/-- `RYM_CODE_NONE` -/
def rymCodeNone : UInt8 := 0x00

/-- `RYM_CODE_SOH` -/
def rymCodeSoh : UInt8 := 0x01

/-- `RYM_CODE_STX` -/
def rymCodeStx : UInt8 := 0x02

/-- `RYM_CODE_EOT` -/
def rymCodeEot : UInt8 := 0x04

/-- `RYM_CODE_ACK` -/
def rymCodeAck : UInt8 := 0x06

/-- `RYM_CODE_NAK` -/
def rymCodeNak : UInt8 := 0x15

/-- `RYM_CODE_CAN` -/
def rymCodeCan : UInt8 := 0x18

/-- `RYM_CODE_C` -/
def rymCodeC : UInt8 := 0x43

/-- The errors of the receiver, `RYM_ERR_TMO` and so on. -/
inductive RymErr where
  | tmo
  | code
  | seq
  | crc
  | dsz
  | can
deriving DecidableEq, Repr

/-- `enum rym_stage` -/
inductive RymStage where
  | none
  | establishing
  | established
  | transmitting
  | finishing
  | finished
deriving DecidableEq, Repr

/-- `_RYM_SOH_PKG_SZ` -/
def rymSohPkgSz : ℕ := 1 + 2 + 128 + 2

/-- `_RYM_STX_PKG_SZ` -/
def rymStxPkgSz : ℕ := 1 + 2 + 1024 + 2

/-- A round of `CRC16` -/
def crc16Shift (crc : UInt16) : UInt16 :=
  if crc &&& 0x8000 ≠ 0 then crc <<< 1 ^^^ 0x1021 else crc <<< 1

/-- `CRC16` -/
def crc16 (q : List UInt8) : UInt16 :=
  q.foldl (fun crc b => crc16Shift^[8] (crc ^^^ b.toUInt16 <<< (8 : UInt16))) 0

/-! ## The state of a session -/

/-- `struct rym_ctx` with the line and what was sent, and the static variables of `ymodem_ota.c`. -/
structure RymCtx where
  stage : RymStage
  buf : Buffer rymStxPkgSz
  line : Line
  sent : List UInt8
  updateFileTotalSize : ℕ
  updateFileCurSize : ℕ
  dlPart : Option FalPartition

/-- `_rym_putchar` -/
def rymPutchar (code : UInt8) (ctx : RymCtx) : RymCtx := { ctx with sent := ctx.sent ++ [code] }

/-- `_rym_read_code` -/
def rymReadCode (ctx : RymCtx) : UInt8 × RymCtx :=
  match ctx.line with
  | [] => (rymCodeNone, ctx)
  | none :: line => (rymCodeNone, { ctx with line := line })
  | some b :: line => (b, { ctx with buf := ctx.buf.store 0 [b], line := line })

/-- The next bytes of a line, at most `len`, up to a silence. -/
def takeLine : (len : ℕ) → Line → List UInt8 × Line
  | 0, line => ([], line)
  | _ + 1, [] => ([], [])
  | _ + 1, none :: line => ([], line)
  | len + 1, some b :: line => (b :: (takeLine len line).1, (takeLine len line).2)

/-- `_rym_read_data` -/
def rymReadData (len : ℕ) (ctx : RymCtx) : ℕ × RymCtx :=
  let r := takeLine len ctx.line
  (r.1.length, { ctx with buf := ctx.buf.store 1 r.1, line := r.2 })

/-- The CRC that a packet of `size` bytes in all carries. -/
def recvCrc (ctx : RymCtx) (size : ℕ) : UInt16 :=
  (ctx.buf.byte (size - 2)).toUInt16 <<< 8 ||| (ctx.buf.byte (size - 1)).toUInt16

/-! ## The callbacks -/

/-- `isspace` -/
def isSpace (b : UInt8) : Bool := decide (b = 32 ∨ 9 ≤ b ∧ b ≤ 13)

/-- `isdigit` -/
def isDigit (b : UInt8) : Bool := decide (48 ≤ b ∧ b ≤ 57)

/-- The number at the start of a text; `none` when the text ends before the number does. -/
def digits (text : List UInt8) : Option ℕ :=
  if text.all isDigit then none
  else some ((text.takeWhile isDigit).foldl (fun n b => 10 * n + (b.toNat - 48)) 0)

/-- `atol`, `none` like `digits`; a number out of the range of `long` gives the nearest one in it. -/
def atol (text : List UInt8) : Option ℤ :=
  match text.dropWhile isSpace with
  | [] => none
  | b :: rest =>
    if b = 45 then (digits rest).map fun (n : ℕ) => max (-2147483648) (-(n : ℤ))
    else (digits (if b = 43 then rest else b :: rest)).map fun (n : ℕ) => min 2147483647 (n : ℤ)

/-- `file_size` in the text of a first packet: the number behind the name and its zero byte. -/
@[irreducible] def fileSize (text : List UInt8) : Option ℕ :=
  match text.dropWhile fun b => decide (b ≠ 0) with
  | [] => none
  | _ :: size => (atol size).map ofInt32

/-- `ymodem_on_begin` with the payload of the packet in `buf`. Neither `rt_strlen` nor `atol` knows
where the payload ends, so that a text without an end runs on to the end of `buf` and out of it. -/
def ymodemOnBegin (L : Layout) (recvPartition : List UInt8) (ctx : RymCtx) :
    Code (RymCtx × UInt8) :=
  match fileSize (ctx.buf.bytes.drop 3) with
  | none => Prog.halt .undefined
  | some size =>
    let ctx :=
      { ctx with
        updateFileTotalSize := size
        updateFileCurSize := 0
        dlPart := falPartitionFind L recvPartition }
    match ctx.dlPart with
    | none => Prog.ret (ctx, rymCodeCan)
    | some part =>
      if part.len < ctx.updateFileTotalSize then Prog.ret (ctx, rymCodeCan)
      else do
        let ret ← falPartitionErase (some part) 0 ctx.updateFileTotalSize
        Prog.ret (ctx, if ret < 0 then rymCodeCan else rymCodeAck)

/-- `ymodem_on_data` -/
def ymodemOnData (ctx : RymCtx) (buf : List UInt8) : Code (RymCtx × UInt8) := do
  let ret ← falPartitionWrite ctx.dlPart ctx.updateFileCurSize buf
  if ret < 0 then Prog.ret (ctx, rymCodeCan)
  else
    Prog.ret ({ ctx with updateFileCurSize := u32 (ctx.updateFileCurSize + buf.length) }, rymCodeAck)

/-! ## The protocol -/

/-- The loop of `_rym_do_handshake`: the size of the packet that begins, `none` after `tmSec` tries. -/
def rymAwaitPacket : (tmSec : ℕ) → RymCtx → RymCtx × Option ℕ
  | 0, ctx => (ctx, none)
  | tmSec + 1, ctx =>
    let (code, ctx) := rymReadCode (rymPutchar rymCodeC ctx)
    if code = rymCodeSoh then (ctx, some rymSohPkgSz)
    else if code = rymCodeStx then (ctx, some rymStxPkgSz)
    else rymAwaitPacket tmSec ctx

/-- `_rym_do_handshake`; `none` is `RT_EOK`. A short read of the packet waited out a silence of three
seconds, so that it is not tried again: the loop around it ends after 100 ms. -/
def rymDoHandshake (L : Layout) (recvPartition : List UInt8) (tmSec : ℕ) (ctx : RymCtx) :
    Code (RymCtx × Option RymErr) :=
  match rymAwaitPacket tmSec { ctx with stage := .establishing } with
  | (ctx, none) => Prog.ret (ctx, some .tmo)
  | (ctx, some dataSz) =>
    let (i, ctx) := rymReadData (dataSz - 1) ctx
    if i ≠ dataSz - 1 then Prog.ret (ctx, some .dsz)
    else if ctx.buf.byte 1 ≠ 0 ∨ ctx.buf.byte 2 ≠ 0xFF then Prog.ret (ctx, some .seq)
    else if recvCrc ctx dataSz ≠ crc16 (ctx.buf.slice 3 (dataSz - 5)) then
      Prog.ret (ctx, some .crc)
    else do
      let (ctx, code) ← ymodemOnBegin L recvPartition ctx
      Prog.ret (ctx, if code ≠ rymCodeAck then some .can else none)

/-- `_rym_trans_data`: an error, or the code for the answer. -/
def rymTransData (dataSz : ℕ) (ctx : RymCtx) : Code (RymCtx × Except RymErr UInt8) :=
  let (i, ctx) := rymReadData (2 + dataSz + 2) ctx
  if i ≠ 2 + dataSz + 2 then Prog.ret (ctx, .error .dsz)
  else if (ctx.buf.byte 1).toNat + (ctx.buf.byte 2).toNat ≠ 0xFF then Prog.ret (ctx, .error .seq)
  -- a repeated first packet
  else if ctx.stage = .established ∧ ctx.buf.byte 1 = 0 then Prog.ret (ctx, .ok rymCodeNone)
  else
    let ctx := { ctx with stage := .transmitting }
    if recvCrc ctx (2 + dataSz + 3) ≠ crc16 (ctx.buf.slice 3 dataSz) then
      Prog.ret (ctx, .error .crc)
    else do
      let (ctx, code) ← ymodemOnData ctx (ctx.buf.slice 3 dataSz)
      Prog.ret (ctx, .ok code)

/-- `RYM_END_SESSION_SEND_CAN_NUM` times `RYM_CODE_CAN` -/
def rymSendCan (ctx : RymCtx) : RymCtx :=
  { ctx with sent := ctx.sent ++ List.replicate 7 rymCodeCan }

/-- The loop of `_rym_do_trans`. -/
def rymTransLoop : (fuel : ℕ) → RymCtx → Code (RymCtx × Option RymErr)
  | 0, _ => Prog.halt .diverged
  | fuel + 1, ctx =>
    let (code, ctx) := rymReadCode ctx
    if code = rymCodeEot then Prog.ret (ctx, none)
    else if code ≠ rymCodeSoh ∧ code ≠ rymCodeStx then Prog.ret (ctx, some .code)
    else do
      let (ctx, res) ← rymTransData (if code = rymCodeSoh then 128 else 1024) ctx
      match res with
      | .error err => Prog.ret (ctx, some err)
      | .ok code =>
        if code = rymCodeCan then Prog.ret (rymSendCan ctx, some .can)
        else if code = rymCodeAck then rymTransLoop fuel (rymPutchar rymCodeAck ctx)
        else rymTransLoop fuel ctx

/-- `_rym_do_trans`; each round of its loop takes a byte off the line. -/
def rymDoTrans (ctx : RymCtx) : Code (RymCtx × Option RymErr) :=
  let ctx := rymPutchar rymCodeC (rymPutchar rymCodeAck ctx)
  rymTransLoop (ctx.line.length + 1) { ctx with stage := .established }

/-- The end of `_rym_do_fin`: the packet that names the next file, or no file. -/
def rymLastPacket (L : Layout) (recvPartition : List UInt8) (ctx : RymCtx) :
    Code (RymCtx × Option RymErr) :=
  let (i, ctx) := rymReadData (rymSohPkgSz - 1) ctx
  if i ≠ rymSohPkgSz - 1 then Prog.ret (ctx, some .dsz)
  else if ctx.buf.byte 1 ≠ 0 ∨ ctx.buf.byte 2 ≠ 0xFF then Prog.ret (ctx, some .seq)
  else if recvCrc ctx rymSohPkgSz ≠ crc16 (ctx.buf.slice 3 (rymSohPkgSz - 5)) then
    Prog.ret (ctx, some .crc)
  else if ctx.buf.byte 3 ≠ 0 then do
    let (ctx, code) ← ymodemOnBegin L recvPartition ctx
    Prog.ret (ctx, if code ≠ rymCodeAck then some .can else none)
  else Prog.ret (rymPutchar rymCodeAck { ctx with stage := .finished }, none)

/-- `_rym_do_fin` -/
def rymDoFin (L : Layout) (recvPartition : List UInt8) (ctx : RymCtx) :
    Code (RymCtx × Option RymErr) :=
  let (code, ctx) := rymReadCode (rymPutchar rymCodeNak { ctx with stage := .finishing })
  if code ≠ rymCodeEot then Prog.ret (ctx, some .code)
  else
    let (code, ctx) := rymReadCode (rymPutchar rymCodeC (rymPutchar rymCodeAck ctx))
    if code ≠ rymCodeSoh ∧ code ≠ rymCodeStx then Prog.ret (ctx, some .code)
    else rymLastPacket L recvPartition ctx

/-- The loop of `_rym_do_recv` over the files of a session. -/
def rymRecvFiles (L : Layout) (recvPartition : List UInt8) :
    (files : ℕ) → RymCtx → Code (RymCtx × Option RymErr)
  | 0, _ => Prog.halt .diverged
  | files + 1, ctx => do
    let (ctx, err) ← rymDoTrans ctx
    if err ≠ none then Prog.ret (ctx, err)
    else do
      let (ctx, err) ← rymDoFin L recvPartition ctx
      if err ≠ none then Prog.ret (ctx, err)
      else if ctx.stage = .finished then Prog.ret (ctx, none)
      else rymRecvFiles L recvPartition files ctx

/-- `_rym_do_recv`, which `rym_recv_on_device` calls; `files` bounds the rounds of its loop, one for
every file of the session. -/
def rymDoRecv (L : Layout) (recvPartition : List UInt8) (tmSec files : ℕ) (ctx : RymCtx) :
    Code (RymCtx × Option RymErr) := do
  let (ctx, err) ← rymDoHandshake L recvPartition tmSec { ctx with stage := .none }
  if err ≠ none then Prog.ret (ctx, err)
  else rymRecvFiles L recvPartition files ctx

end RtThreadOta
