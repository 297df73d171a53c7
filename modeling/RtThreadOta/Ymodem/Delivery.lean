import RtThreadOta.Ymodem.Exchange

/-!
# Which files can be sent by YMODEM

The other direction of the exchange: with nothing going wrong, and no silence, both ends come through.
The sender fills its last block up, and sends one of padding alone behind a file of whole blocks, and the
receiver writes all of it. What it compares with the partition is the size of the file, so that it begins
files that it can never take the last block of.
-/

namespace RtThreadOta

open Interaction Nor Words

/-! ## How many blocks -/

theorem fileBlocks_length (rounds index : ℕ) (file : List UInt8) :
    (fileBlocks rounds index file).length = rounds := by
  induction rounds generalizing index file with
  | zero => rfl
  | succ rounds ih => exact congrArg Nat.succ (ih _ _)

/-- Every block has a byte on the line at least. -/
theorem length_le_packets (blocks : List Block) :
    blocks.length ≤ (blocks.flatMap Block.packet).length := by
  induction blocks with
  | nil => exact Nat.le_refl 0
  | cons b blocks ih =>
    rw [List.flatMap_cons, List.length_append, List.length_cons, b.packet_length]
    omega

/-! ## A packet in the buffer -/

theorem takeLine_map (bs : List UInt8) (rest : Line) :
    takeLine bs.length (bs.map some ++ rest) = (bs, rest) := by
  induction bs with
  | nil => rfl
  | cons b bs ih => rw [List.length_cons, List.map_cons, List.cons_append, takeLine, ih]

/-- A word is put together again from its two bytes. -/
theorem or_toUInt8 (w : UInt16) : (w >>> 8).toUInt8.toUInt16 <<< 8 ||| w.toUInt8.toUInt16 = w := by
  have hw := w.toNat_lt
  have hhi : (w >>> 8).toUInt8.toNat = w.toNat / 256 := by
    rw [UInt16.toNat_toUInt8, UInt16.toNat_shiftRight]
    simp only [UInt16.reduceToNat, Nat.reduceMod]
    rw [Nat.shiftRight_eq_div_pow, show 2 ^ 8 = 256 from rfl]
    omega
  have hlo : w.toUInt8.toNat = w.toNat % 256 := UInt16.toNat_toUInt8 w
  have hshift : (w >>> 8).toUInt8.toNat <<< 8 % 2 ^ 16 = (w >>> 8).toUInt8.toNat <<< 8 := by
    rw [Nat.shiftLeft_eq]
    omega
  rw [← UInt16.toNat_inj, UInt16.toNat_or, UInt16.toNat_shiftLeft]
  simp only [UInt8.toNat_toUInt16, UInt16.reduceToNat, Nat.reduceMod]
  rw [hshift, ← Nat.shiftLeft_add_eq_or_of_lt w.toUInt8.toNat_lt, Nat.shiftLeft_eq, hhi, hlo]
  omega

variable {L : Layout} {env : Env} {s : Board} {part : FalPartition} {name : List UInt8} {ctx : RymCtx}
  {rest : Line} {b : Block}

/-- A packet that is read lies in the buffer, and its check sum agrees. -/
theorem rymReadData_packet (hb : b.payload.length = 128)
    (hline : ctx.line = b.packet.tail.map some ++ rest) : ∃ buf : Buffer rymStxPkgSz,
    rymReadData 132 ctx = (132, { ctx with buf := buf, line := rest }) ∧ buf.byte 1 = b.number ∧
      buf.byte 2 = ~~~b.number ∧ buf.slice 3 128 = b.payload ∧
      ∀ ctx' : RymCtx, ctx'.buf = buf → recvCrc ctx' rymSohPkgSz = crc16 b.payload := by
  have hlen : b.packet.tail.length = 132 := by
    rw [List.length_tail, b.packet_length, hb]
  have hread := takeLine_map b.packet.tail rest
  rw [hlen, ← hline] at hread
  have hself : (ctx.buf.store 1 b.packet.tail).slice 1 b.packet.tail.length = b.packet.tail := by
    apply Buffer.slice_store_self
    rw [hlen]
    exact Nat.le_add_left 133 896
  rw [hlen] at hself
  refine ⟨ctx.buf.store 1 b.packet.tail, ?_, ?_⟩
  · rw [rymReadData, hread]
    dsimp only
    rw [hlen]
  · generalize ctx.buf.store 1 b.packet.tail = buf at hself
    have hsplit := (slice_packet buf 128).symm.trans hself
    obtain ⟨hone, hsplit⟩ := List.cons.inj hsplit
    obtain ⟨htwo, hsplit⟩ := List.cons.inj hsplit
    obtain ⟨hpayload, hsplit⟩ := List.append_inj hsplit ((Buffer.slice_length ..).trans hb.symm)
    obtain ⟨hhi, hsplit⟩ := List.cons.inj hsplit
    obtain ⟨hlo, -⟩ := List.cons.inj hsplit
    refine ⟨hone, htwo, hpayload, fun ctx' hbuf => ?_⟩
    show (ctx'.buf.byte (128 + 3)).toUInt16 <<< 8 ||| (ctx'.buf.byte (128 + 4)).toUInt16 = _
    rw [hbuf, hhi, hlo]
    exact or_toUInt8 _

/-! ## The receiver on a session -/

section Receiver

variable {pos stop : ℕ} {done : List UInt8} (hcalm : Calm env) (hp : part ∈ L.parts)
  (hnor : part.dev = .nor)

include hcalm hp hnor

/-- A block that the partition has room for is written and answered. -/
theorem wp_rymTransData_block (hb : b.payload.length = 128)
    (hline : ctx.line = b.packet.tail.map some ++ rest) (hpart : ctx.dlPart = some part)
    (hpos : ctx.updateFileCurSize = pos) (hfit : pos + 128 ≤ part.len)
    (hfresh : ctx.stage = .established → b.number ≠ 0) :
    (rymTransData 128 ctx).wp (world L env) (fun r s' => (∃ buf, r = ({ ctx with
        stage := .transmitting
        buf := buf
        line := rest
        updateFileCurSize := pos + 128 }, .ok rymCodeAck)) ∧
      s'.flash = part.programmed s.flash pos b.payload) (fun _ _ => False) s := by
  obtain ⟨buf, hread, hone, htwo, hpayload, hcrc⟩ := rymReadData_packet hb hline
  have hsz : 2 + 128 + 2 = 132 := rfl
  have hsum : b.number.toNat + (~~~b.number).toNat = 0xFF := by
    rw [UInt8.toNat_not, show UInt8.size = 256 from rfl]
    have := b.number.toNat_lt
    omega
  have hcrc' : recvCrc { ctx with stage := .transmitting, buf := buf, line := rest } (2 + 128 + 3) =
      crc16 b.payload := hcrc _ rfl
  have hpart' : RymCtx.dlPart { ctx with stage := .transmitting, buf := buf, line := rest } =
      some part := hpart
  have hpos' : RymCtx.updateFileCurSize { ctx with
      stage := .transmitting
      buf := buf
      line := rest } = pos := hpos
  rw [rymTransData, hsz, hread]
  dsimp only
  rw [hone, htwo, hpayload, if_neg (not_not.2 rfl), if_neg (not_not.2 hsum),
    if_neg fun h => hfresh h.1 h.2, if_neg (not_not.2 hcrc'), Prog.wp_bind]
  apply wp_ymodemOnData_at hp hpart' hpos' (by omega) (by omega) fun hno => absurd hcalm hno
  · intro _ s' hs'
    rw [hb]
    exact ⟨⟨buf, rfl⟩, hs'⟩
  · intro hwhy
    rcases hwhy hcalm with hlong | ⟨honchip, -⟩
    · omega
    · rw [hnor] at honchip
      cases honchip

/-- The blocks that the partition has room for are written and answered, one after another. -/
theorem wp_rymTransLoop_blocks {blocks : List Block} {tail : List UInt8} (fuel : ℕ)
    (hfuel : blocks.length < fuel) (hblocks : ∀ b ∈ blocks, b.payload.length = 128)
    (hline : ctx.line = (blocks.flatMap Block.packet ++ rymCodeEot :: tail).map some)
    (hpart : ctx.dlPart = some part) (hpos : ctx.updateFileCurSize = done.length)
    (hfit : done.length + 128 * blocks.length ≤ part.len)
    (hfresh : ctx.stage = .established → ∀ b ∈ blocks.head?, b.number ≠ 0)
    (hheld : part.Held s.flash stop done) :
    (rymTransLoop fuel ctx).wp (world L env) (fun r s' => r.2 = none ∧ r.1.line = tail.map some ∧
      r.1.sent = ctx.sent ++ List.replicate blocks.length rymCodeAck ∧
      part.Held s'.flash stop (done ++ payloads blocks)) (fun _ _ => False) s := by
  induction blocks generalizing fuel ctx done s with
  | nil =>
    obtain ⟨fuel, rfl⟩ := Nat.exists_eq_succ_of_ne_zero (Nat.ne_of_gt hfuel)
    have hread : rymReadCode ctx = (rymCodeEot, { ctx with
        buf := ctx.buf.store 0 [rymCodeEot]
        line := tail.map some }) := by
      rw [rymReadCode, hline]
      rfl
    rw [rymTransLoop, hread]
    dsimp only
    rw [if_pos rfl]
    refine ⟨rfl, rfl, (List.append_nil _).symm, ?_⟩
    rw [payloads_nil, List.append_nil]
    exact hheld
  | cons b blocks ih =>
    obtain ⟨fuel, rfl⟩ := Nat.exists_eq_succ_of_ne_zero (Nat.ne_of_gt (Nat.zero_lt_of_lt hfuel))
    have hb := hblocks b List.mem_cons_self
    have hpacket := Block.packet_soh hb
    rw [List.length_cons] at hfuel hfit
    obtain ⟨rest, hrest⟩ : ∃ rest : Line,
      rest = (blocks.flatMap Block.packet ++ rymCodeEot :: tail).map some := ⟨_, rfl⟩
    have hread : rymReadCode ctx = (rymCodeSoh, { ctx with
        buf := ctx.buf.store 0 [rymCodeSoh]
        line := b.packet.tail.map some ++ rest }) := by
      rw [rymReadCode, hline, List.flatMap_cons, hpacket, List.append_assoc, List.cons_append,
        List.map_cons, List.map_append, ← hrest]
      rfl
    rw [rymTransLoop, hread]
    dsimp only
    rw [if_neg (by decide), if_neg (by decide), if_pos rfl, Prog.wp_bind]
    refine Prog.wp_imp (wp_rymTransData_block hcalm hp hnor hb rfl hpart hpos (by omega)
      fun hstage => hfresh hstage b rfl) ?_
    rintro _ s' ⟨⟨buf, rfl⟩, hs'⟩
    dsimp only
    rw [if_neg (by decide), if_pos rfl]
    have hlen : (done ++ b.payload).length = done.length + 128 := by rw [List.length_append, hb]
    refine Prog.wp_imp (ih fuel (by omega) (fun b hb => hblocks b (List.mem_cons_of_mem _ hb)) hrest hpart
      hlen.symm (by omega) (fun hstage => by cases hstage) (hs' ▸ hheld.programmed)) ?_
    rintro r s'' ⟨hnone, hline', hsent, hheld'⟩
    refine ⟨hnone, hline', ?_, ?_⟩
    · rw [hsent, List.length_cons, List.replicate_succ]
      exact List.append_assoc _ [rymCodeAck] _
    · rw [payloads_cons, ← List.append_assoc]
      exact hheld'

end Receiver

/-- The first packet is answered by going on, when the partition has room for the file. -/
theorem wp_rymDoHandshake_first (hcalm : Calm env) (hnor : part.dev = .nor) {first : Block}
    {tmSec n : ℕ} (hfind : falPartitionFind L name = some part)
    (hfirst : first.payload.length = 128) (hzero : first.number = 0)
    (hsize : fileSize first.payload = some n) (hfit : n ≤ part.len)
    (hline : ctx.line = first.packet.map some ++ rest) :
    (rymDoHandshake L name (tmSec + 1) ctx).wp (world L env) (fun r s' => r.2 = none ∧ r.1.line = rest ∧
      r.1.sent = ctx.sent ++ [rymCodeC] ∧ r.1.dlPart = some part ∧ r.1.updateFileCurSize = 0 ∧
      part.Held s'.flash (eraseStop L part n) []) (fun _ _ => False) s := by
  have hpacket := Block.packet_soh hfirst
  have hawait : rymAwaitPacket (tmSec + 1) { ctx with stage := .establishing } = ({ ctx with
      stage := .establishing
      buf := ctx.buf.store 0 [rymCodeSoh]
      line := first.packet.tail.map some ++ rest
      sent := ctx.sent ++ [rymCodeC] }, some rymSohPkgSz) := by
    have hread : rymReadCode (rymPutchar rymCodeC { ctx with stage := .establishing }) =
        (rymCodeSoh, { ctx with
          stage := .establishing
          buf := ctx.buf.store 0 [rymCodeSoh]
          line := first.packet.tail.map some ++ rest
          sent := ctx.sent ++ [rymCodeC] }) := by
      rw [rymPutchar, rymReadCode]
      dsimp only
      rw [hline, hpacket]
      rfl
    rw [rymAwaitPacket, hread]
    exact if_pos rfl
  obtain ⟨buf, hread, hone, htwo, hpayload, hcrc⟩ := @rymReadData_packet { ctx with
    stage := .establishing
    buf := ctx.buf.store 0 [rymCodeSoh]
    line := first.packet.tail.map some ++ rest
    sent := ctx.sent ++ [rymCodeC] } rest first hfirst rfl
  have hsz : rymSohPkgSz - 1 = 132 := rfl
  have hcrcSz : rymSohPkgSz - 5 = 128 := rfl
  have hcrc' : recvCrc { ctx with
      stage := .establishing
      buf := buf
      line := rest
      sent := ctx.sent ++ [rymCodeC] } rymSohPkgSz = crc16 first.payload := hcrc _ rfl
  rw [rymDoHandshake, hawait]
  dsimp only
  rw [hsz, hread]
  dsimp only
  rw [hone, htwo, hzero, hcrcSz, hpayload, if_neg (not_not.2 rfl), if_neg (by decide),
    if_neg (not_not.2 hcrc'), Prog.wp_bind]
  have hname : fileSize (buf.bytes.drop 3) = some n := by
    have hbuf := buf_payload { ctx with buf := buf } (show 128 ≤ 1024 by omega)
    have hbuf : buf.bytes.drop 3 = buf.slice 3 128 ++ buf.slice (3 + 128) (1026 - 128) := hbuf
    rw [hbuf, hpayload]
    exact fileSize_append hsize
  apply @wp_ymodemOnBegin_fits L env s part name { ctx with
    stage := .establishing
    buf := buf
    line := rest
    sent := ctx.sent ++ [rymCodeC] } n _ _ hname hfind hfit fun hno => absurd hcalm hno
  · intro _ s' hs'
    refine ⟨rfl, rfl, rfl, hfind, rfl, fun i hi => ?_⟩
    rw [hs', FalPartition.byte_erased (Nat.zero_le i) hi]
    rfl
  · intro hwhy
    obtain ⟨-, honchip⟩ := hwhy hcalm
    rw [hnor] at honchip
    cases honchip

/-- The packet without a name finishes the session. -/
theorem rymLastPacket_finishes (name : List UInt8)
    (hline : ctx.line = lastBlock.packet.tail.map some ++ rest) :
    ∃ ctx', rymLastPacket L name ctx = Prog.ret (ctx', none) ∧ ctx'.stage = .finished ∧
      ctx'.sent = ctx.sent ++ [rymCodeAck] := by
  obtain ⟨buf, hread, hone, htwo, hpayload, hcrc⟩ := rymReadData_packet lastBlock_length hline
  have hsz : rymSohPkgSz - 1 = 132 := rfl
  have hcrcSz : rymSohPkgSz - 5 = 128 := rfl
  have hcrc' : recvCrc { ctx with buf := buf, line := rest } rymSohPkgSz = crc16 lastBlock.payload :=
    hcrc _ rfl
  have hname : buf.byte 3 = 0 := by
    have hzeros : buf.slice 3 (1 + 127) = List.replicate (127 + 1) 0 := hpayload
    rw [Buffer.slice_add, List.replicate_succ] at hzeros
    exact (List.cons.inj hzeros).1
  rw [rymLastPacket, hsz, hread]
  dsimp only
  rw [if_neg (not_not.2 rfl), hone, htwo, if_neg (by decide), hcrcSz, hpayload,
    if_neg (not_not.2 hcrc'), if_neg (not_not.2 hname)]
  exact ⟨_, rfl, rfl, rfl⟩

/-- On the end of a session the receiver finishes. -/
theorem rymDoFin_finishes (name : List UInt8)
    (hline : ctx.line = (rymCodeEot :: lastBlock.packet).map some) :
    ∃ ctx', rymDoFin L name ctx = Prog.ret (ctx', none) ∧ ctx'.stage = .finished ∧
      ctx'.sent = ctx.sent ++ [rymCodeNak, rymCodeAck, rymCodeC, rymCodeAck] := by
  have hpacket := Block.packet_soh lastBlock_length
  have heot : rymReadCode (rymPutchar rymCodeNak { ctx with stage := .finishing }) =
      (rymCodeEot, { ctx with
        stage := .finishing
        buf := ctx.buf.store 0 [rymCodeEot]
        line := lastBlock.packet.map some
        sent := ctx.sent ++ [rymCodeNak] }) := by
    rw [rymPutchar, rymReadCode]
    dsimp only
    rw [hline]
    rfl
  have hsoh : ∀ c : RymCtx, c.line = lastBlock.packet.map some → rymReadCode c = (rymCodeSoh, { c with
      buf := c.buf.store 0 [rymCodeSoh]
      line := lastBlock.packet.tail.map some }) := by
    intro c hc
    rw [rymReadCode, hc]
    generalize lastBlock.packet = packet at hpacket
    rw [hpacket]
    rfl
  rw [rymDoFin, heot]
  dsimp only
  rw [if_neg (not_not.2 rfl), hsoh _ rfl]
  dsimp only
  rw [if_neg (by decide)]
  -- the name of the next file is empty
  obtain ⟨ctx', heq, hstage, hsent⟩ := @rymLastPacket_finishes L { ctx with
    stage := .finishing
    buf := (ctx.buf.store 0 [rymCodeEot]).store 0 [rymCodeSoh]
    line := lastBlock.packet.tail.map some
    sent := ctx.sent ++ [rymCodeNak] ++ [rymCodeAck] ++ [rymCodeC] } [] name (List.append_nil _).symm
  refine ⟨ctx', heq, hstage, hsent.trans ?_⟩
  rw [List.append_assoc, List.append_assoc, List.append_assoc]
  rfl

/-- **The receiver comes through a session** when nothing goes wrong in the flash and the partition has room
for the last block. What it has erased then holds the blocks, and is blank behind them. -/
theorem wp_rymDoRecv_comesThrough (hcalm : Calm env) (hfind : falPartitionFind L name = some part)
    (hnor : part.dev = .nor) {tmSec files : ℕ} {fpath file : List UInt8} (hpath : ∀ b ∈ fpath, b ≠ 0)
    (hsize : file.length < 2147483648) (hname : (beginText fpath file.length).length ≤ 128)
    (hfit : 128 * (file.length / 128 + 1) ≤ part.len)
    (hline : ctx.line = (sessionBytes fpath file).map some) :
    (rymDoRecv L name (tmSec + 1) (files + 1) ctx).wp (world L env) (fun r s' => r.2 = none ∧
      r.1.sent = ctx.sent ++ rymCodeC :: (sessionAnswers file ++ [rymCodeAck]) ∧
      part.Held s'.flash (eraseStop L part file.length) (payloads (blocksOf file)))
      (fun _ _ => False) s := by
  have hp := mem_of_find hfind
  have hcount : (blocksOf file).length = file.length / 128 + 1 := fileBlocks_length ..
  have hline' : RymCtx.line { ctx with stage := .none } = (firstBlock fpath file.length).packet.map some ++
      ((blocksOf file).flatMap Block.packet ++ sessionEnd).map some := by
    rw [← List.map_append]
    exact hline
  rw [rymDoRecv, Prog.wp_bind]
  refine Prog.wp_imp (wp_rymDoHandshake_first hcalm hnor hfind (firstBlock_length hname) rfl
    (fileSize_firstBlock hpath hsize) (by omega) hline') ?_
  rintro ⟨ctx₁, err⟩ s₁ ⟨hnone, hline₁, hsent₁, hpart₁, hcur₁, hheld₁⟩
  dsimp only at hnone hline₁ hsent₁ hpart₁ hcur₁ ⊢
  rw [if_neg (not_not.2 hnone), rymRecvFiles, Prog.wp_bind, rymDoTrans]
  dsimp only
  have hfuel : (blocksOf file).length <
      (rymPutchar rymCodeC (rymPutchar rymCodeAck ctx₁)).line.length + 1 := by
    show (blocksOf file).length < ctx₁.line.length + 1
    have hle := length_le_packets (blocksOf file)
    rw [hline₁, List.length_map, List.length_append]
    omega
  refine Prog.wp_imp (wp_rymTransLoop_blocks hcalm hp hnor _ hfuel (fileBlocks_sized _ _ _) hline₁ hpart₁
    (hcur₁.trans List.length_nil.symm) (by rw [hcount, List.length_nil]; omega) ?_ hheld₁) ?_
  · intro _ b hb
    obtain rfl := Option.some.inj hb
    show (1 : UInt8) ≠ 0
    decide
  rintro ⟨ctx₂, err₂⟩ s₂ ⟨hnone₂, hline₂, hsent₂, hheld₂⟩
  dsimp only at hnone₂ hline₂ hsent₂ ⊢
  obtain ⟨ctx₃, heq, hstage, hsent₃⟩ := @rymDoFin_finishes L ctx₂ name hline₂
  rw [if_neg (not_not.2 hnone₂), heq, Prog.ret_bind]
  dsimp only
  rw [if_neg (not_not.2 rfl), if_pos hstage]
  refine ⟨rfl, ?_, hheld₂⟩
  rw [hsent₃, hsent₂, hcount]
  show ctx₁.sent ++ [rymCodeAck] ++ [rymCodeC] ++ _ ++ _ = _
  rw [hsent₁]
  simp only [sessionAnswers, List.append_assoc, List.cons_append, List.nil_append]

/-- **A file can be sent exactly when the partition has room for its last block**: with nothing going wrong
in the flash there is an exchange in which the sender succeeds just when the size, rounded up behind one
more byte to whole blocks, fits. That the size itself fits, which the receiver checks, is not enough. -/
theorem exchange_possible_iff (hcalm : Calm env) (hfind : falPartitionFind L name = some part)
    (hnor : part.dev = .nor) {tmSec files tmSend : ℕ} {fpath file : List UInt8}
    (hpath : ∀ b ∈ fpath, b ≠ 0) (hsize : file.length < 2147483648)
    (hname : (beginText fpath file.length).length ≤ 128) :
    (∃ ctx cctx r s', cctx.fpath = fpath ∧ cctx.disk = some file ∧
        Exchange L env name (tmSec + 1) (files + 1) (tmSend + 1) s ctx cctx r s' ∧
        (rymDoSend (tmSend + 1) cctx).2 = none) ↔
      128 * (file.length / 128 + 1) ≤ part.len := by
  constructor
  · rintro ⟨ctx, cctx, r, s', rfl, hdisk, h, hnone⟩
    obtain ⟨part', hfind', -, hroom⟩ := h.stored hdisk hpath hsize hname hnone
    rw [hfind] at hfind'
    obtain rfl := Option.some.inj hfind'
    exact hroom
  · intro hfit
    obtain ⟨r, s', hrun, hdone, hsent, -⟩ := Prog.run_done_of_wp
      (@wp_rymDoRecv_comesThrough L env s part name (receiverOn ((sessionBytes fpath file).map some))
        hcalm hfind hnor tmSec files fpath file hpath hsize hname hfit rfl)
    -- the sender hears all that the receiver sends
    have hcases := @rymDoSend_cases (senderOf fpath file
      ((rymCodeC :: (sessionAnswers file ++ [rymCodeAck])).map some)) file (tmSend + 1) rfl hname
    have hasks : AsksWithin (tmSend + 1) ((rymCodeC :: (sessionAnswers file ++ [rymCodeAck])).map some)
        ((sessionAnswers file ++ [rymCodeAck]).map some) := AsksWithin.now _
    rcases hcases with ⟨-, -, hno⟩ | ⟨ctx₁, q, hasks₁, hnil, heq, hfront⟩
    · exact absurd hasks (hno _)
    have hsends := hfront.session
    have hnone : (rymDoSend (tmSend + 1) (senderOf fpath file
        ((rymCodeC :: (sessionAnswers file ++ [rymCodeAck])).map some))).2 = none := by
      rw [heq]
      apply hsends.answered
      rw [← hasks.unique hasks₁, reduceOption_map_some]
      exact List.prefix_append _ _
    refine ⟨_, _, r, s', rfl, rfl, ⟨hrun, ⟨rfl, rfl⟩, ?_, ?_⟩, hnone⟩
    · show ((sessionBytes fpath file).map some).reduceOption <+: _
      have hall := hsends.all (by rw [← heq]; exact hnone)
      have hnil' : ctx₁.parent.sent = [] := hnil
      rw [reduceOption_map_some, heq, hall, hnil']
      exact List.prefix_rfl
    · show ((rymCodeC :: (sessionAnswers file ++ [rymCodeAck])).map some).reduceOption <+: _
      rw [reduceOption_map_some, hsent]
      exact List.prefix_rfl

/-- A file as long as the download partition cannot be sent, though its first packet is accepted. -/
theorem exchange_possible_iff_full :
    ¬ ∃ ctx cctx r s', cctx.fpath = [102] ∧ cctx.disk = some (List.replicate 0x100000 0xFF) ∧
      Exchange falPartTable calmEnv qbootDownloadPartName 1 1 1 ⟨fun _ _ => 0, 0, []⟩ ctx cctx r s' ∧
      (rymDoSend 1 cctx).2 = none := by
  have hlen : (List.replicate 0x100000 (0xFF : UInt8)).length = 0x100000 := List.length_replicate
  have hfind : falPartitionFind falPartTable qbootDownloadPartName = some downloadPart := by decide
  intro h
  have hroom := (exchange_possible_iff calmEnv_calm hfind rfl (List.forall_mem_singleton.2 (by decide))
    (by rw [hlen]; decide) (by rw [hlen]; decide)).1 h
  rw [hlen] at hroom
  exact absurd hroom (by decide)

end RtThreadOta
