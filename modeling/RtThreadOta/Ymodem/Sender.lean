import Mathlib.Data.List.ReduceOption
import RtThreadOta.Ymodem.Session

/-!
# Sending a file by YMODEM (`ymodem.c`, `ry_sy.c`)

`rym_send_on_device` with the callbacks of `sy`. The sender waits for a `C`, names the file and its size,
and sends its blocks of 128 bytes, each behind the acknowledgement of the one before; what the last block
lacks is filled up with `0x1A`. It never sends anything twice, and gives up at the first answer that is
not the one it waits for.
-/

namespace RtThreadOta

open Words

/-! ## The state of a sender -/

/-- `struct custom_ctx` of `ry_sy.c`, with the file at its path. -/
structure CustomCtx where
  parent : RymCtx
  /-- `fpath` behind its slash -/
  fpath : List UInt8
  disk : Option (List UInt8)
  /-- what is left to be read of `fd` -/
  fd : List UInt8

/-- Why a sender ends without success: `RYM_ERR_TMO`, `RYM_ERR_CODE`, `RYM_ERR_ACK`, or it waits for ever. -/
inductive SendStop where
  | tmo
  | code
  | ack
  | waiting
deriving DecidableEq, Repr

/-- What a part of the protocol comes to; `none` is `RT_EOK`. -/
abbrev SendResult := CustomCtx × Option SendStop

/-- The part behind one that came to `RT_EOK`. -/
def SendResult.next (r : SendResult) (k : CustomCtx → SendResult) : SendResult :=
  match r with
  | (ctx, some stop) => (ctx, some stop)
  | (ctx, none) => k ctx

/-! ## The line -/

/-- The wait of `_rym_getchar`, which no silence ends. -/
def waitByte : Line → Option (UInt8 × Line)
  | [] => none
  | none :: line => waitByte line
  | some b :: line => some (b, line)

/-- `getc_ack = _rym_getchar(ctx); if (getc_ack != code) return -RYM_ERR_ACK;` -/
def rymExpect (code : UInt8) (ctx : CustomCtx) : SendResult :=
  match waitByte ctx.parent.line with
  | none => ({ ctx with parent := { ctx.parent with line := [] } }, some .waiting)
  | some (b, line) =>
    ({ ctx with parent := { ctx.parent with line := line } }, if b ≠ code then some .ack else none)

/-- `_rym_send_packet` -/
def rymSendPacket (code index : UInt8) (ctx : RymCtx) : RymCtx :=
  let crc := crc16 (ctx.buf.slice 3 (rymSohPkgSz - 5))
  let buf := (ctx.buf.store 0 [code, index, ~~~index]).store 131 [(crc >>> 8).toUInt8, crc.toUInt8]
  { ctx with buf := buf, sent := ctx.sent ++ buf.slice 0 rymSohPkgSz }

/-! ## The callbacks -/

/-- The digits of a number, the last ones when they do not fit into `fuel` places. -/
def decimalDigits : (fuel n : ℕ) → List UInt8
  | 0, _ => []
  | fuel + 1, n =>
    (if n < 10 then [] else decimalDigits fuel (n / 10)) ++ [UInt8.ofNat (48 + n % 10)]

/-- `%d` of a number that is not negative. -/
def decimal (n : ℕ) : List UInt8 := decimalDigits 10 n

/-- `"%s%c%d"` with the zero byte in the middle, and the one at the end. -/
def beginText (fpath : List UInt8) (size : ℕ) : List UInt8 := fpath ++ 0 :: (decimal size ++ [0])

/-- `_rym_send_begin`; nothing for `RYM_ERR_FILE`. -/
def rymSendBegin (ctx : CustomCtx) : Option CustomCtx :=
  match ctx.disk with
  | none => none
  | some file =>
    let buf := ctx.parent.buf.store 3 (List.replicate (rymSohPkgSz - 5) 0)
    some { ctx with
      parent := { ctx.parent with buf := buf.store 3 (beginText ctx.fpath file.length) }
      fd := file }

/-- `for (retry_read = 0; retry_read < 10; retry_read++)`, with so many tries and bytes to go: the bytes
that were read, and what is left of the file. -/
def readRetry : (tries missing : ℕ) → (fd : List UInt8) → List UInt8 × List UInt8
  | 0, _, fd => ([], fd)
  | tries + 1, missing, fd =>
    let got := fd.take missing
    if got.length = missing then (got, fd.drop missing)
    else
      let r := readRetry tries (missing - got.length) (fd.drop missing)
      (got ++ r.1, r.2)

/-- `_rym_send_data` -/
def rymSendData (ctx : CustomCtx) : CustomCtx :=
  let len := rymSohPkgSz - 5
  let r := readRetry 10 len ctx.fd
  let buf := ctx.parent.buf.store 3 r.1
  if r.1.length < len then
    { ctx with
      parent := { ctx.parent with
        buf := buf.store (3 + r.1.length) (List.replicate (len - r.1.length) 0x1A)
        stage := .finishing }
      fd := r.2 }
  else { ctx with parent := { ctx.parent with buf := buf }, fd := r.2 }

/-- `_rym_send_end` -/
def rymSendEnd (ctx : CustomCtx) : CustomCtx :=
  { ctx with parent := { ctx.parent with
      buf := ctx.parent.buf.store 3 (List.replicate (rymSohPkgSz - 5) 0) } }

/-! ## The protocol -/

/-- "receive C every second": whether one came within so many tries. -/
def rymAwaitC : (tmSec : ℕ) → RymCtx → RymCtx × Bool
  | 0, ctx => (ctx, false)
  | tmSec + 1, ctx =>
    match rymReadCode ctx with
    | (code, ctx) => if code = rymCodeC then (ctx, true) else rymAwaitC tmSec ctx

/-- `_rym_do_send_handshake` behind the `C`. -/
def rymSendFirst (ctx : CustomCtx) : SendResult :=
  match rymSendBegin ctx with
  | none => (ctx, some .code)
  | some ctx =>
    let ctx := { ctx with parent := rymSendPacket rymCodeSoh 0 ctx.parent }
    ((rymExpect rymCodeAck ctx).next (rymExpect rymCodeC)).next fun ctx =>
      ({ ctx with parent := { ctx.parent with stage := .established } }, none)

/-- `_rym_do_send_handshake` -/
def rymDoSendHandshake (tmSec : ℕ) (ctx : CustomCtx) : SendResult :=
  match rymAwaitC tmSec { ctx.parent with stage := .establishing } with
  | (parent, false) => ({ ctx with parent := parent }, some .tmo)
  | (parent, true) => rymSendFirst { ctx with parent := parent }

/-- The loop of `_rym_do_send_trans`; each round but the last reads 128 bytes of the file. -/
def rymSendLoop : (fuel index : ℕ) → CustomCtx → SendResult
  | 0, _, ctx => (ctx, some .waiting)
  | fuel + 1, index, ctx =>
    let ctx := rymSendData ctx
    let ctx := { ctx with parent := rymSendPacket rymCodeSoh (UInt8.ofNat index) ctx.parent }
    (rymExpect rymCodeAck ctx).next fun ctx =>
      if ctx.parent.stage = .finishing then (ctx, none) else rymSendLoop fuel (index + 1) ctx

/-- `_rym_do_send_trans` -/
def rymDoSendTrans (ctx : CustomCtx) : SendResult :=
  rymSendLoop (ctx.fd.length / 128 + 1) 1
    { ctx with parent := { ctx.parent with stage := .transmitting } }

/-- `_rym_putchar` on the parent -/
def CustomCtx.putchar (code : UInt8) (ctx : CustomCtx) : CustomCtx :=
  { ctx with parent := rymPutchar code ctx.parent }

/-- The last packet of `_rym_do_send_fin`. -/
def rymSendLast (ctx : CustomCtx) : SendResult :=
  let ctx := rymSendEnd ctx
  ({ ctx with parent := { rymSendPacket rymCodeSoh 0 ctx.parent with stage := .finished } }, none)

/-- `_rym_do_send_fin` up to its packet. -/
def rymSendEots (ctx : CustomCtx) : SendResult :=
  ((rymExpect rymCodeNak (ctx.putchar rymCodeEot)).next fun ctx =>
    rymExpect rymCodeAck (ctx.putchar rymCodeEot)).next (rymExpect rymCodeC)

/-- `_rym_do_send_fin` -/
def rymDoSendFin (ctx : CustomCtx) : SendResult := (rymSendEots ctx).next rymSendLast

/-- `_rym_do_send` -/
def rymDoSend (tmSec : ℕ) (ctx : CustomCtx) : SendResult :=
  ((rymDoSendHandshake tmSec { ctx with parent := { ctx.parent with stage := .none } }).next
    rymDoSendTrans).next rymDoSendFin

/-! ## What is put on the line -/

/-- A payload of 128 bytes that begins with a text. -/
def filled (x : UInt8) (text : List UInt8) : List UInt8 := text ++ List.replicate (128 - text.length) x

/-- The packet that names the file and its size. -/
def firstBlock (fpath : List UInt8) (size : ℕ) : Block := ⟨0, filled 0 (beginText fpath size)⟩

/-- So many blocks of a file, numbered from `index` on. -/
def fileBlocks : (rounds index : ℕ) → (file : List UInt8) → List Block
  | 0, _, _ => []
  | rounds + 1, index, file =>
    ⟨UInt8.ofNat index, filled 0x1A (file.take 128)⟩ ::
      fileBlocks rounds (index + 1) (file.drop 128)

/-- The blocks of a file: the last one is not full, and may be padding altogether. -/
def blocksOf (file : List UInt8) : List Block := fileBlocks (file.length / 128 + 1) 1 file

/-- The packet at the end, which names no file. -/
def lastBlock : Block := ⟨0, filled 0 []⟩

/-- The end of a session. -/
def sessionEnd : List UInt8 := rymCodeEot :: rymCodeEot :: lastBlock.packet

/-- All that a sender puts on the line for a file. -/
def sessionBytes (fpath file : List UInt8) : List UInt8 :=
  (firstBlock fpath file.length).packet ++ ((blocksOf file).flatMap Block.packet ++ sessionEnd)

theorem filled_length {x : UInt8} {text : List UInt8} (h : text.length ≤ 128) :
    (filled x text).length = 128 := by
  rw [filled, List.length_append, List.length_replicate]
  omega

theorem fileBlocks_sized (rounds index : ℕ) (file : List UInt8) :
    ∀ b ∈ fileBlocks rounds index file, b.payload.length = 128 := by
  induction rounds generalizing index file with
  | zero => exact fun b hb => nomatch hb
  | succ rounds ih =>
    intro b hb
    rcases List.mem_cons.1 hb with rfl | hb
    · exact filled_length (List.length_take_le ..)
    · exact ih _ _ b hb

/-- The payloads are the file and its padding. -/
theorem payloads_blocksOf (file : List UInt8) : payloads (blocksOf file) =
    file ++ List.replicate (128 * (file.length / 128 + 1) - file.length) 0x1A := by
  have hrounds : ∀ (rounds index : ℕ) (file : List UInt8), rounds = file.length / 128 →
      payloads (fileBlocks (rounds + 1) index file) =
        file ++ List.replicate (128 * (rounds + 1) - file.length) 0x1A := by
    intro rounds
    induction rounds with
    | zero =>
      intro index file hlen
      have htake : file.take 128 = file := List.take_of_length_le (by omega)
      rw [fileBlocks, fileBlocks, payloads_cons, payloads_nil, List.append_nil]
      show filled 0x1A (file.take 128) = _
      rw [htake, filled]
    | succ rounds ih =>
      intro index file hlen
      have hdrop : (file.drop 128).length = file.length - 128 := List.length_drop
      have hfull : (file.take 128).length = 128 := by
        rw [List.length_take]
        omega
      have hpad : 128 * (rounds + 1) - (file.length - 128) = 128 * (rounds + 1 + 1) - file.length := by
        omega
      rw [fileBlocks, payloads_cons, ih (index + 1) (file.drop 128) (by omega), hdrop, hpad]
      show filled 0x1A (file.take 128) ++ _ = _
      rw [filled, hfull, Nat.sub_self, List.replicate_zero, List.append_nil, ← List.append_assoc,
        List.take_append_drop]
  exact hrounds _ 1 file rfl

/-! ## Every run of a sender -/

variable {ctx : CustomCtx} {fpath file : List UInt8}

/-- A part of the protocol puts these bytes on the line and is answered these codes, one after another, or
stops at the first answer that is another one. -/
structure Sends (ctx : CustomCtx) (bytes codes : List UInt8) (r : SendResult) : Prop where
  sent : r.1.parent.sent <+: ctx.parent.sent ++ bytes
  all : r.2 = none → r.1.parent.sent = ctx.parent.sent ++ bytes
  heard : r.2 = none → ctx.parent.line.reduceOption = codes ++ r.1.parent.line.reduceOption
  answered : codes <+: ctx.parent.line.reduceOption → r.2 = none

/-- Bytes that were put on the line before. -/
theorem Sends.put {as bs codes : List UInt8} {ctx₁ : CustomCtx} {r : SendResult}
    (h : Sends ctx₁ bs codes r) (hsent : ctx₁.parent.sent = ctx.parent.sent ++ as)
    (hline : ctx₁.parent.line = ctx.parent.line) : Sends ctx (as ++ bs) codes r := by
  have hassoc := (List.append_assoc ctx.parent.sent as bs).symm
  rw [← hsent] at hassoc
  refine ⟨?_, ?_, hline ▸ h.heard, hline ▸ h.answered⟩
  · rw [hassoc]
    exact h.sent
  · rw [hassoc]
    exact h.all

/-- The state before counts by what is on the line. -/
theorem Sends.of_quiet {bs codes : List UInt8} {ctx₁ : CustomCtx} {r : SendResult}
    (h : Sends ctx₁ bs codes r) (hsent : ctx₁.parent.sent = ctx.parent.sent)
    (hline : ctx₁.parent.line = ctx.parent.line) : Sends ctx bs codes r :=
  h.put (hsent.trans (List.append_nil _).symm) hline

theorem sends_nothing (ctx : CustomCtx) : Sends ctx [] [] (ctx, none) :=
  ⟨List.prefix_append _ _, fun _ => (List.append_nil _).symm, fun _ => rfl, fun _ => rfl⟩

/-- Part behind part. -/
theorem Sends.next {as bs codes more : List UInt8} {r : SendResult} {k : CustomCtx → SendResult}
    (h : Sends ctx as codes r) (hk : r.2 = none → Sends r.1 bs more (k r.1)) :
    Sends ctx (as ++ bs) (codes ++ more) (r.next k) := by
  obtain ⟨ctx₁, stop⟩ := r
  cases stop with
  | some stop =>
    have hstop : ¬ some stop = none := Option.some_ne_none stop
    refine ⟨?_, fun hnone => absurd hnone hstop, fun hnone => absurd hnone hstop, fun hmore => ?_⟩
    · rw [← List.append_assoc]
      exact h.sent.trans (List.prefix_append _ _)
    · exact absurd (h.answered ((List.prefix_append _ _).trans hmore)) hstop
  | none =>
    have hnext := hk rfl
    have hheard := h.heard rfl
    refine ⟨?_, fun hnone => ?_, fun hnone => ?_, fun hmore => ?_⟩
    · rw [← List.append_assoc, ← h.all rfl]
      exact hnext.sent
    · rw [← List.append_assoc, ← h.all rfl]
      exact hnext.all hnone
    · rw [hheard, List.append_assoc]
      exact congrArg (codes ++ ·) (hnext.heard hnone)
    · rw [hheard, List.prefix_append_right_inj] at hmore
      exact hnext.answered hmore

/-- A part that puts nothing more on the line and waits for nothing. -/
theorem Sends.next_quiet {as codes : List UInt8} {r : SendResult} {k : CustomCtx → SendResult}
    (h : Sends ctx as codes r) (hk : r.2 = none → Sends r.1 [] [] (k r.1)) :
    Sends ctx as codes (r.next k) := by
  have hall := h.next hk
  rwa [List.append_nil, List.append_nil] at hall

theorem waitByte_reduceOption (line : Line) : match waitByte line with
    | none => line.reduceOption = []
    | some (b, rest) => line.reduceOption = b :: rest.reduceOption := by
  induction line with
  | nil => rfl
  | cons c line ih =>
    cases c with
    | none => exact ih
    | some b => rfl

/-- A wait takes bytes off the line and changes nothing else. -/
theorem rymExpect_eq (code : UInt8) (ctx : CustomCtx) : ∃ line,
    (rymExpect code ctx).1 = { ctx with parent := { ctx.parent with line := line } } ∧
      ((rymExpect code ctx).2 = none → ctx.parent.line.reduceOption = code :: line.reduceOption) ∧
      ([code] <+: ctx.parent.line.reduceOption → (rymExpect code ctx).2 = none) := by
  have hwait := waitByte_reduceOption ctx.parent.line
  rw [rymExpect]
  generalize waitByte ctx.parent.line = w at hwait ⊢
  cases w with
  | none =>
    refine ⟨[], rfl, (fun hnone => nomatch hnone), fun hcode => ?_⟩
    rw [hwait] at hcode
    exact absurd (List.prefix_nil.1 hcode) (List.cons_ne_nil _ _)
  | some r =>
    obtain ⟨b, line⟩ := r
    refine ⟨line, rfl, ?_⟩
    dsimp only at hwait ⊢
    rw [hwait]
    split
    · rename_i hcode
      refine ⟨(fun hnone => nomatch hnone), fun hfirst => ?_⟩
      exact absurd (List.cons_prefix_cons.1 hfirst).1.symm hcode
    · rename_i hcode
      exact ⟨fun _ => congrArg (· :: _) (not_not.1 hcode), fun _ => rfl⟩

theorem sends_rymExpect (code : UInt8) (ctx : CustomCtx) : Sends ctx [] [code] (rymExpect code ctx) := by
  obtain ⟨line, heq, hheard, hcode⟩ := rymExpect_eq code ctx
  have hsent : (rymExpect code ctx).1.parent.sent = ctx.parent.sent := by rw [heq]
  have hline : (rymExpect code ctx).1.parent.line = line := by rw [heq]
  refine ⟨?_, fun _ => ?_, fun hnone => ?_, hcode⟩
  · rw [hsent]
    exact List.prefix_append _ _
  · rw [hsent, List.append_nil]
  · rw [hline]
    exact hheard hnone

/-- An expected answer leaves the file and the stage alone. -/
theorem rymExpect_fd (code : UInt8) (ctx : CustomCtx) :
    (rymExpect code ctx).1.fd = ctx.fd ∧ (rymExpect code ctx).1.parent.stage = ctx.parent.stage := by
  obtain ⟨line, heq, -⟩ := rymExpect_eq code ctx
  rw [heq]
  exact ⟨rfl, rfl⟩

/-- A packet on the line is the block of its payload. -/
theorem rymSendPacket_sent (index : UInt8) (ctx : RymCtx) :
    (rymSendPacket rymCodeSoh index ctx).sent =
      ctx.sent ++ (Block.mk index (ctx.buf.slice 3 128)).packet := by
  have hlen : (ctx.buf.slice 3 128).length = 128 := Buffer.slice_length ..
  have hcrc : rymSohPkgSz - 5 = 128 := rfl
  have hpacket : ∀ (b : Buffer rymStxPkgSz) (hi lo : UInt8),
      ((b.store 0 [rymCodeSoh, index, ~~~index]).store 131 [hi, lo]).slice 0 rymSohPkgSz =
        rymCodeSoh :: index :: ~~~index :: (b.slice 3 128 ++ [hi, lo]) := by
    intro b hi lo
    have hhead : (b.store 0 [rymCodeSoh, index, ~~~index]).slice 0 3 =
        [rymCodeSoh, index, ~~~index] := by
      apply @Buffer.slice_store_self
      exact Nat.le_add_left 3 1026
    have hmid : (b.store 0 [rymCodeSoh, index, ~~~index]).slice 3 128 = b.slice 3 128 :=
      Buffer.slice_store_after (Nat.le_refl 3)
    have hall : ((b.store 0 [rymCodeSoh, index, ~~~index]).store 131 [hi, lo]).slice 0 133 =
        (b.store 0 [rymCodeSoh, index, ~~~index]).slice 0 131 ++ [hi, lo] := by
      apply @Buffer.slice_store_append
      exact Nat.le_add_left 133 896
    have hsplit := Buffer.slice_add (b.store 0 [rymCodeSoh, index, ~~~index]) 0 3 128
    rw [hhead, hmid] at hsplit
    rw [hsplit] at hall
    exact hall
  rw [rymSendPacket, hcrc]
  dsimp only
  rw [hpacket, Block.packet, if_pos hlen]

theorem readRetry_eq (tries missing : ℕ) (fd : List UInt8) :
    readRetry (tries + 1) missing fd = (fd.take missing, fd.drop missing) := by
  induction tries generalizing missing fd with
  | zero =>
    rw [readRetry]
    dsimp only
    split
    · rfl
    · rw [readRetry, List.append_nil]
  | succ tries ih =>
    rw [readRetry]
    dsimp only
    split
    · rfl
    · -- the file has ended, and the further tries find nothing
      rename_i hshort
      have hdrop : fd.drop missing = [] := by
        rw [List.length_take] at hshort
        exact List.drop_of_length_le (by omega)
      rw [ih, hdrop, List.take_nil, List.drop_nil, List.append_nil]

/-- What `_rym_send_data` leaves. -/
theorem rymSendData_eq (ctx : CustomCtx) : ∃ buf : Buffer rymStxPkgSz,
    rymSendData ctx = { ctx with
      parent := { ctx.parent with
        buf := buf
        stage := if ctx.fd.length < 128 then .finishing else ctx.parent.stage }
      fd := ctx.fd.drop 128 } ∧
    buf.slice 3 128 = filled 0x1A (ctx.fd.take 128) := by
  have hsize : rymStxPkgSz = 1029 := rfl
  have hlen : rymSohPkgSz - 5 = 128 := rfl
  have htake : (ctx.fd.take 128).length = min 128 ctx.fd.length := List.length_take
  rw [rymSendData, hlen, readRetry_eq]
  dsimp only
  have hself : (ctx.parent.buf.store 3 (ctx.fd.take 128)).slice 3 (ctx.fd.take 128).length =
      ctx.fd.take 128 := Buffer.slice_store_self (by omega)
  by_cases hshort : ctx.fd.length < 128
  · have hpad : (List.replicate (128 - (ctx.fd.take 128).length) (0x1A : UInt8)).length =
        128 - (ctx.fd.take 128).length := List.length_replicate
    refine ⟨_, by rw [if_pos (by omega), if_pos hshort], ?_⟩
    have hstored : ((ctx.parent.buf.store 3 (ctx.fd.take 128)).store (3 + (ctx.fd.take 128).length)
        (List.replicate (128 - (ctx.fd.take 128).length) 0x1A)).slice 3
          ((ctx.fd.take 128).length + (128 - (ctx.fd.take 128).length)) =
        filled 0x1A (ctx.fd.take 128) := by
      rw [Buffer.slice_add, Buffer.slice_store_before (Nat.le_refl _), hself, filled]
      have hpadding := @Buffer.slice_store_self _ (ctx.parent.buf.store 3 (ctx.fd.take 128))
        (3 + (ctx.fd.take 128).length)
        (List.replicate (128 - (ctx.fd.take 128).length) 0x1A) (by omega)
      rw [hpad] at hpadding
      rw [hpadding]
    rwa [Nat.add_sub_cancel' (by omega)] at hstored
  · have hfull : (ctx.fd.take 128).length = 128 := by omega
    refine ⟨_, by rw [if_neg (by omega), if_neg hshort], ?_⟩
    rw [hfull] at hself
    rw [hself, filled, hfull, Nat.sub_self, List.replicate_zero, List.append_nil]

/-- What `_rym_send_begin` leaves. -/
theorem rymSendBegin_eq (ctx : CustomCtx) (hdisk : ctx.disk = some file)
    (hname : (beginText ctx.fpath file.length).length ≤ 128) : ∃ buf : Buffer rymStxPkgSz,
    rymSendBegin ctx = some { ctx with parent := { ctx.parent with buf := buf }, fd := file } ∧
      Block.mk 0 (buf.slice 3 128) = firstBlock ctx.fpath file.length := by
  have hsize : rymStxPkgSz = 1029 := rfl
  have hlen : rymSohPkgSz - 5 = 128 := rfl
  rw [rymSendBegin, hdisk, hlen]
  refine ⟨_, rfl, ?_⟩
  rw [firstBlock]
  generalize beginText ctx.fpath file.length = text at hname
  have hself : ((ctx.parent.buf.store 3 (List.replicate 128 0)).store 3 text).slice 3 text.length =
      text := Buffer.slice_store_self (by omega)
  -- behind the text the zeros of `rt_memset` are left
  have hzeros : (ctx.parent.buf.store 3 (List.replicate 128 0)).slice (3 + text.length)
      (128 - text.length) = List.replicate (128 - text.length) 0 := by
    have hall : (ctx.parent.buf.store 3 (List.replicate 128 0)).slice 3
        (List.replicate 128 (0 : UInt8)).length = List.replicate 128 0 :=
      Buffer.slice_store_self (by rw [List.length_replicate, hsize]; omega)
    rw [List.length_replicate] at hall
    rw [← Buffer.drop_slice hname, hall, List.drop_replicate]
  have hboth := Buffer.slice_add ((ctx.parent.buf.store 3 (List.replicate 128 0)).store 3 text) 3
    text.length (128 - text.length)
  rw [Nat.add_sub_cancel' hname, hself, Buffer.slice_store_after (Nat.le_refl _), hzeros] at hboth
  rw [hboth, filled]

/-! ### The handshake -/

/-- A `C` comes within so many codes and silences, and this is the line behind it. -/
inductive AsksWithin : (tmSec : ℕ) → Line → Line → Prop
  | now {tmSec : ℕ} (line : Line) : AsksWithin (tmSec + 1) (some rymCodeC :: line) line
  | later {tmSec : ℕ} {c : Option UInt8} {line rest : Line} (hc : c ≠ some rymCodeC)
      (h : AsksWithin tmSec line rest) : AsksWithin (tmSec + 1) (c :: line) rest

theorem AsksWithin.unique {tmSec : ℕ} {line rest rest' : Line} (h : AsksWithin tmSec line rest)
    (h' : AsksWithin tmSec line rest') : rest = rest' := by
  induction h with
  | now line =>
    cases h' with
    | now => rfl
    | later hc _ => exact absurd rfl hc
  | later hc _ ih =>
    cases h' with
    | now => exact absurd rfl hc
    | later _ h' => exact ih h'

/-- The tries for a `C` end at the first one, and put nothing on the line. -/
theorem rymAwaitC_spec (tmSec : ℕ) (parent : RymCtx) :
    (rymAwaitC tmSec parent).1.sent = parent.sent ∧
      if (rymAwaitC tmSec parent).2 then
        AsksWithin tmSec parent.line (rymAwaitC tmSec parent).1.line
      else ∀ rest, ¬ AsksWithin tmSec parent.line rest := by
  induction tmSec generalizing parent with
  | zero => exact ⟨rfl, fun rest h => nomatch h⟩
  | succ tmSec ih =>
    obtain ⟨stage, buf, line, sent, total, cur, part⟩ := parent
    rcases line with _ | ⟨c, line⟩
    · have hpass : rymAwaitC (tmSec + 1) ⟨stage, buf, [], sent, total, cur, part⟩ =
          rymAwaitC tmSec ⟨stage, buf, [], sent, total, cur, part⟩ := rfl
      obtain ⟨hsent, hasks⟩ := ih ⟨stage, buf, [], sent, total, cur, part⟩
      rw [hpass]
      refine ⟨hsent, ?_⟩
      rw [if_neg]
      · exact fun rest h => nomatch h
      · intro htrue
        rw [if_pos htrue] at hasks
        cases hasks
    by_cases hc : c = some rymCodeC
    · subst hc
      exact ⟨rfl, AsksWithin.now line⟩
    -- any other code, and a silence, is passed over
    obtain ⟨buf', hpass⟩ : ∃ buf', rymAwaitC (tmSec + 1) ⟨stage, buf, c :: line, sent, total, cur, part⟩ =
        rymAwaitC tmSec ⟨stage, buf', line, sent, total, cur, part⟩ := by
      cases c with
      | none => exact ⟨buf, rfl⟩
      | some b => exact ⟨buf.store 0 [b], if_neg fun hb => hc (congrArg some hb)⟩
    obtain ⟨hsent, hasks⟩ := ih ⟨stage, buf', line, sent, total, cur, part⟩
    rw [hpass]
    refine ⟨hsent, ?_⟩
    split at hasks
    · rename_i htrue
      rw [if_pos htrue]
      exact AsksWithin.later hc hasks
    · rename_i hfalse
      rw [if_neg hfalse]
      intro rest h
      cases h with
      | now => exact hc rfl
      | later _ h => exact hasks rest h

/-- Behind the `C` the file is opened and named. -/
theorem sends_rymSendFirst (ctx : CustomCtx) (hdisk : ctx.disk = some file)
    (hname : (beginText ctx.fpath file.length).length ≤ 128) :
    Sends ctx (firstBlock ctx.fpath file.length).packet [rymCodeAck, rymCodeC] (rymSendFirst ctx) ∧
      (rymSendFirst ctx).1.fd = file := by
  obtain ⟨buf, hbegin, hblock⟩ := rymSendBegin_eq ctx hdisk hname
  rw [rymSendFirst, hbegin]
  dsimp only
  generalize hctx : CustomCtx.mk (rymSendPacket rymCodeSoh 0 { ctx.parent with buf := buf }) ctx.fpath
    ctx.disk file = ctx₁
  have hsent : ctx₁.parent.sent = ctx.parent.sent ++ (firstBlock ctx.fpath file.length).packet := by
    rw [← hctx, rymSendPacket_sent, hblock]
  have hline : ctx₁.parent.line = ctx.parent.line := by
    rw [← hctx]
    rfl
  have hfd : ((rymExpect rymCodeAck ctx₁).next (rymExpect rymCodeC)).1.fd = file := by
    have hack : (rymExpect rymCodeAck ctx₁).1.fd = file := by
      rw [(rymExpect_fd rymCodeAck ctx₁).1, ← hctx]
    generalize rymExpect rymCodeAck ctx₁ = r at hack ⊢
    obtain ⟨ctx₂, stop⟩ := r
    cases stop with
    | some stop => exact hack
    | none => exact (rymExpect_fd rymCodeC ctx₂).1.trans hack
  have hboth := ((sends_rymExpect rymCodeAck ctx₁).next (k := rymExpect rymCodeC)
    fun _ => sends_rymExpect ..).put hsent hline
  generalize (rymExpect rymCodeAck ctx₁).next (rymExpect rymCodeC) = r at hboth hfd ⊢
  constructor
  · have hall := hboth.next_quiet (k := fun ctx =>
      ({ ctx with parent := { ctx.parent with stage := .established } }, none)) fun _ =>
        (sends_nothing _).of_quiet rfl rfl
    rw [List.append_nil, List.append_nil] at hall
    exact hall
  · obtain ⟨ctx₂, stop⟩ := r
    cases stop with
    | some stop => exact hfd
    | none => exact hfd

/-! ### The file -/

/-- What a round of the loop has put on the line when it waits for the answer. -/
theorem rymSendLoop_succ (fuel index : ℕ) (ctx : CustomCtx) : ∃ ctx₁ : CustomCtx,
    rymSendLoop (fuel + 1) index ctx = (rymExpect rymCodeAck ctx₁).next (fun ctx =>
      if ctx.parent.stage = .finishing then (ctx, none) else rymSendLoop fuel (index + 1) ctx) ∧
    ctx₁.parent.sent =
      ctx.parent.sent ++ (Block.mk (UInt8.ofNat index) (filled 0x1A (ctx.fd.take 128))).packet ∧
    ctx₁.parent.line = ctx.parent.line ∧ ctx₁.fd = ctx.fd.drop 128 ∧
    ctx₁.parent.stage = if ctx.fd.length < 128 then .finishing else ctx.parent.stage := by
  obtain ⟨buf, hdata, hfilled⟩ := rymSendData_eq ctx
  refine ⟨_, rfl, ?_, ?_, ?_, ?_⟩
  · dsimp only
    rw [rymSendPacket_sent, hdata, hfilled]
  · rw [hdata]
    rfl
  · rw [hdata]
  · rw [hdata]
    rfl

/-- The loop sends the blocks of what is left of the file, each behind the answer to the one before. -/
theorem sends_rymSendLoop {rounds : ℕ} (index : ℕ) (ctx : CustomCtx) (hrounds : rounds = ctx.fd.length / 128)
    (hstage : ctx.parent.stage = .transmitting) :
    Sends ctx ((fileBlocks (rounds + 1) index ctx.fd).flatMap Block.packet)
      (List.replicate (rounds + 1) rymCodeAck) (rymSendLoop (rounds + 1) index ctx) := by
  induction rounds generalizing index ctx with
  | zero =>
    obtain ⟨ctx₁, hloop, hsent, hline, -, hstage₁⟩ := rymSendLoop_succ 0 index ctx
    obtain ⟨-, hexpect⟩ := rymExpect_fd rymCodeAck ctx₁
    rw [if_pos (by omega)] at hstage₁
    rw [hloop, fileBlocks, fileBlocks, List.flatMap_singleton]
    have hone := (sends_rymExpect rymCodeAck ctx₁).next_quiet (k := fun ctx =>
      if ctx.parent.stage = .finishing then (ctx, none) else rymSendLoop 0 (index + 1) ctx) fun _ => by
        rw [if_pos (hexpect.trans hstage₁)]
        exact sends_nothing _
    have hall := hone.put hsent hline
    rwa [List.append_nil] at hall
  | succ rounds ih =>
    obtain ⟨ctx₁, hloop, hsent, hline, hfd, hstage₁⟩ := rymSendLoop_succ (rounds + 1) index ctx
    obtain ⟨hfd₁, hexpect⟩ := rymExpect_fd rymCodeAck ctx₁
    have hdrop : (ctx.fd.drop 128).length = ctx.fd.length - 128 := List.length_drop
    rw [if_neg (by omega), hstage] at hstage₁
    have hne : (rymExpect rymCodeAck ctx₁).1.parent.stage ≠ .finishing := by
      rw [hexpect, hstage₁]
      exact RymStage.noConfusion
    rw [hloop, fileBlocks, List.flatMap_cons]
    refine Sends.put ?_ hsent hline
    have hrest := (sends_rymExpect rymCodeAck ctx₁).next (k := fun ctx =>
      if ctx.parent.stage = .finishing then (ctx, none)
      else rymSendLoop (rounds + 1) (index + 1) ctx) fun _ => by
        rw [if_neg hne]
        exact ih (index + 1) _ (by rw [hfd₁, hfd]; omega) (hexpect.trans hstage₁)
    rwa [hfd₁, hfd] at hrest

/-! ### The end -/

theorem sends_rymSendEots (ctx : CustomCtx) :
    Sends ctx [rymCodeEot, rymCodeEot] [rymCodeNak, rymCodeAck, rymCodeC] (rymSendEots ctx) := by
  have hput : ∀ (code : UInt8) (ctx : CustomCtx),
      Sends ctx [rymCodeEot] [code] (rymExpect code (ctx.putchar rymCodeEot)) := by
    intro code ctx
    exact (sends_rymExpect code (ctx.putchar rymCodeEot)).put rfl rfl
  exact ((hput rymCodeNak ctx).next (k := fun ctx => rymExpect rymCodeAck (ctx.putchar rymCodeEot))
    fun _ => hput rymCodeAck _).next (k := rymExpect rymCodeC) fun _ => sends_rymExpect ..

theorem sends_rymSendLast (ctx : CustomCtx) : Sends ctx lastBlock.packet [] (rymSendLast ctx) := by
  have hzeros : (rymSendEnd ctx).parent.buf.slice 3 (List.replicate 128 (0 : UInt8)).length =
      List.replicate 128 0 := by
    apply Buffer.slice_store_self
    rw [List.length_replicate]
    exact Nat.le_add_left 131 898
  rw [List.length_replicate] at hzeros
  have hsent : (rymSendLast ctx).1.parent.sent = ctx.parent.sent ++ lastBlock.packet := by
    show (rymSendPacket rymCodeSoh 0 (rymSendEnd ctx).parent).sent = _
    rw [rymSendPacket_sent, hzeros]
    rfl
  exact ⟨hsent ▸ List.prefix_rfl, fun _ => hsent, fun _ => rfl, fun _ => rfl⟩

theorem SendResult.next_next (r : SendResult) (k k' : CustomCtx → SendResult) :
    (r.next k).next k' = r.next fun ctx => (k ctx).next k' := by
  obtain ⟨ctx, stop⟩ := r
  cases stop with
  | none => rfl
  | some stop => rfl

/-! ### A session -/

/-- What a sender is answered behind the `C` that it begins with. -/
def sessionAnswers (file : List UInt8) : List UInt8 :=
  rymCodeAck :: rymCodeC :: (List.replicate (file.length / 128 + 1) rymCodeAck ++
    [rymCodeNak, rymCodeAck, rymCodeC])

/-- The session up to its last packet. -/
def sessionFront (fpath file : List UInt8) : List UInt8 :=
  (firstBlock fpath file.length).packet ++
    ((blocksOf file).flatMap Block.packet ++ [rymCodeEot, rymCodeEot])

theorem sessionBytes_eq (fpath file : List UInt8) :
    sessionBytes fpath file = sessionFront fpath file ++ lastBlock.packet := by
  rw [sessionFront, List.append_assoc, List.append_assoc]
  rfl

/-- Behind the `C` the session is put on the line. Who puts its last packet there succeeds. -/
theorem sends_session (ctx : CustomCtx) (hdisk : ctx.disk = some file)
    (hname : (beginText ctx.fpath file.length).length ≤ 128) :
    ∃ r : SendResult, ((rymSendFirst ctx).next rymDoSendTrans).next rymDoSendFin = r.next rymSendLast ∧
      Sends ctx (sessionFront ctx.fpath file) (sessionAnswers file) r := by
  obtain ⟨hfirst, hfd⟩ := sends_rymSendFirst ctx hdisk hname
  have hblocks : ∀ ctx₁ : CustomCtx, ctx₁.fd = file →
      Sends ctx₁ ((blocksOf file).flatMap Block.packet)
        (List.replicate (file.length / 128 + 1) rymCodeAck) (rymDoSendTrans ctx₁) := by
    rintro ctx₁ rfl
    exact (sends_rymSendLoop 1 { ctx₁ with parent := { ctx₁.parent with stage := .transmitting } }
      rfl rfl).of_quiet rfl rfl
  have hall := (hfirst.next (k := rymDoSendTrans) fun _ => hblocks _ hfd).next (k := rymSendEots)
    fun _ => sends_rymSendEots _
  rw [List.append_assoc, List.append_assoc] at hall
  exact ⟨_, (SendResult.next_next _ rymSendEots rymSendLast).symm, hall⟩

/-- Without a `C` nothing is put on the line; behind it the session is. -/
theorem rymDoSend_cases (tmSec : ℕ) (hdisk : ctx.disk = some file)
    (hname : (beginText ctx.fpath file.length).length ≤ 128) :
    (rymDoSend tmSec ctx).2 = some .tmo ∧ (rymDoSend tmSec ctx).1.parent.sent = ctx.parent.sent ∧
        (∀ rest, ¬ AsksWithin tmSec ctx.parent.line rest) ∨
      ∃ (ctx₁ : CustomCtx) (r : SendResult), AsksWithin tmSec ctx.parent.line ctx₁.parent.line ∧
        ctx₁.parent.sent = ctx.parent.sent ∧ rymDoSend tmSec ctx = r.next rymSendLast ∧
        Sends ctx₁ (sessionFront ctx.fpath file) (sessionAnswers file) r := by
  obtain ⟨hsent, hasks⟩ := rymAwaitC_spec tmSec { ctx.parent with stage := .establishing }
  rw [rymDoSend, rymDoSendHandshake]
  dsimp only
  generalize rymAwaitC tmSec { ctx.parent with stage := .establishing } = w at hsent hasks
  obtain ⟨parent, came⟩ := w
  cases came with
  | false => exact Or.inl ⟨rfl, hsent, hasks⟩
  | true =>
    obtain ⟨r, heq, hsends⟩ := sends_session { ctx with parent := parent } hdisk hname
    exact Or.inr ⟨{ ctx with parent := parent }, r, hasks, hsent, heq, hsends⟩

/-- The whole session, with its last packet. -/
theorem Sends.session {r : SendResult} {codes : List UInt8}
    (h : Sends ctx (sessionFront fpath file) codes r) :
    Sends ctx (sessionBytes fpath file) codes (r.next rymSendLast) := by
  have hall := h.next (k := rymSendLast) fun _ => sends_rymSendLast _
  rwa [List.append_nil, ← sessionBytes_eq] at hall

/-- Who stops has not put all of the session on the line. -/
theorem rymDoSend_stopped (tmSec : ℕ) (hdisk : ctx.disk = some file)
    (hname : (beginText ctx.fpath file.length).length ≤ 128) (hstop : (rymDoSend tmSec ctx).2 ≠ none) :
    (rymDoSend tmSec ctx).1.parent.sent.length <
      ctx.parent.sent.length + (sessionBytes ctx.fpath file).length := by
  have hlast : (sessionBytes ctx.fpath file).length =
      (sessionFront ctx.fpath file).length + (lastBlock.packet.tail.length + 1) := by
    rw [sessionBytes_eq, List.length_append]
    rfl
  rcases rymDoSend_cases tmSec hdisk hname with ⟨-, hsent, -⟩ | ⟨ctx₁, r, -, hsent, heq, hsends⟩
  · rw [hsent]
    omega
  · rw [heq] at hstop ⊢
    obtain ⟨ctx₂, stop⟩ := r
    cases stop with
    | none => exact absurd rfl hstop
    | some stop =>
      have hle := hsends.sent.length_le
      rw [List.length_append, hsent] at hle
      exact Nat.lt_of_le_of_lt hle (by omega)

/-- The line behind a `C` is the end of the line. -/
theorem AsksWithin.suffix {tmSec : ℕ} {line rest : Line} (h : AsksWithin tmSec line rest) :
    rest <:+ line := by
  induction h with
  | now line => exact List.suffix_cons _ _
  | later hc _ ih => exact ih.trans (List.suffix_cons _ _)

/-- Who succeeds has heard the `NAK` to its end of transmission. -/
theorem rymDoSend_heardNak (tmSec : ℕ) (hdisk : ctx.disk = some file)
    (hname : (beginText ctx.fpath file.length).length ≤ 128) (hnone : (rymDoSend tmSec ctx).2 = none) :
    rymCodeNak ∈ ctx.parent.line.reduceOption := by
  rcases rymDoSend_cases tmSec hdisk hname with ⟨htmo, -, -⟩ | ⟨ctx₁, r, hasks, -, heq, hsends⟩
  · rw [hnone] at htmo
    cases htmo
  · rw [heq] at hnone
    have hheard := hsends.session.heard hnone
    have hmem : rymCodeNak ∈ ctx₁.parent.line.reduceOption := by
      rw [hheard, sessionAnswers]
      apply List.mem_append_left
      refine List.mem_cons_of_mem _ (List.mem_cons_of_mem _ (List.mem_append_right _ ?_))
      exact List.mem_cons_self
    exact List.reduceOption_mem_iff.2 (hasks.suffix.subset (List.reduceOption_mem_iff.1 hmem))

/-- **A sender puts the session of its file on the line**, or the beginning of it, and ends in success
exactly when it is answered as a session is. -/
theorem sender_session (tmSec : ℕ) (hdisk : ctx.disk = some file)
    (hname : (beginText ctx.fpath file.length).length ≤ 128) :
    (rymDoSend tmSec ctx).1.parent.sent <+: ctx.parent.sent ++ sessionBytes ctx.fpath file ∧
      ((rymDoSend tmSec ctx).2 = none →
        (rymDoSend tmSec ctx).1.parent.sent = ctx.parent.sent ++ sessionBytes ctx.fpath file) ∧
      ((rymDoSend tmSec ctx).2 = none ↔
        ∃ rest, AsksWithin tmSec ctx.parent.line rest ∧ sessionAnswers file <+: rest.reduceOption) := by
  rcases rymDoSend_cases tmSec hdisk hname with
    ⟨htmo, hsent, hno⟩ | ⟨ctx₁, r, hasks, hsent, heq, hfront⟩
  · rw [htmo, hsent]
    have hstop : ¬ some SendStop.tmo = none := Option.some_ne_none _
    refine ⟨List.prefix_append _ _, fun hnone => absurd hnone hstop, fun hnone => absurd hnone hstop, ?_⟩
    rintro ⟨rest, hrest, -⟩
    exact absurd hrest (hno rest)
  · have hsends := hfront.session
    rw [heq, ← hsent]
    refine ⟨hsends.sent, hsends.all, fun hnone => ⟨_, hasks, ?_⟩, ?_⟩
    · rw [hsends.heard hnone]
      exact List.prefix_append _ _
    · rintro ⟨rest, hrest, hanswers⟩
      rw [hrest.unique hasks] at hanswers
      exact hsends.answered hanswers

/-- A sender that was just started. -/
def senderOf (fpath file : List UInt8) (line : Line) : CustomCtx :=
  ⟨receiverOn line, fpath, some file, []⟩

/-- `f` with three bytes, of which the `C` comes behind a silence. -/
theorem sender_session_threeBytes :
    (rymDoSend 2 (senderOf [102] [1, 2, 3] (none :: some rymCodeC ::
        (sessionAnswers [1, 2, 3]).map some))).1.parent.sent <+: sessionBytes [102] [1, 2, 3] ∧
      ((rymDoSend 2 (senderOf [102] [1, 2, 3] (none :: some rymCodeC ::
          (sessionAnswers [1, 2, 3]).map some))).2 = none →
        (rymDoSend 2 (senderOf [102] [1, 2, 3] (none :: some rymCodeC ::
          (sessionAnswers [1, 2, 3]).map some))).1.parent.sent = sessionBytes [102] [1, 2, 3]) ∧
      ((rymDoSend 2 (senderOf [102] [1, 2, 3] (none :: some rymCodeC ::
          (sessionAnswers [1, 2, 3]).map some))).2 = none ↔
        ∃ rest, AsksWithin 2 (none :: some rymCodeC :: (sessionAnswers [1, 2, 3]).map some) rest ∧
          sessionAnswers [1, 2, 3] <+: rest.reduceOption) :=
  sender_session 2 rfl (by decide)

end RtThreadOta
