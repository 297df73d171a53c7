import Mathlib.Data.List.Flatten
import Mathlib.Data.List.Sublists
import Mathlib.Data.List.TakeWhile
import RtThreadOta.Fal.PartitionSpec
import RtThreadOta.Ymodem.Receiver

/-!
# What a YMODEM session stores

The receiver looks at the check sum of a data packet and at the complement of its number, never at
the number itself. A session that ends in success has stored the payloads of the intact packets in
the order in which they came, up to the first end of transmission, and that is the file when they came
numbered one after another and covered the announced size.
-/

namespace RtThreadOta

open Interaction Nor Words

/-! ## Packets -/

/-- A packet: its sequence number and its payload. -/
structure Block where
  number : UInt8
  payload : List UInt8
deriving DecidableEq, Repr

/-- The two sizes a payload can have. -/
def Block.Sized (b : Block) : Prop := b.payload.length = 128 ∨ b.payload.length = 1024

/-- The bytes that stand for a packet on the line. -/
def Block.packet (b : Block) : List UInt8 :=
  (if b.payload.length = 128 then rymCodeSoh else rymCodeStx) :: b.number :: ~~~b.number ::
    (b.payload ++ [(crc16 b.payload >>> 8).toUInt8, (crc16 b.payload).toUInt8])

/-- The data packets that come before the end of transmission. A receiver that is still `fresh` takes
whatever is numbered 0 for a first packet sent again. -/
inductive Arrives : (fresh : Bool) → Line → List Block → Line → Prop
  | eot {fresh : Bool} (rest : Line) : Arrives fresh (some rymCodeEot :: rest) [] rest
  | again {code : UInt8} {data : List UInt8} {line rest : Line} {blocks : List Block}
      (hdata : code = rymCodeSoh ∧ data.length = 130 ∨ code = rymCodeStx ∧ data.length = 1026)
      (h : Arrives true line blocks rest) :
      Arrives true ((code :: 0 :: 0xFF :: data).map some ++ line) blocks rest
  | block {fresh : Bool} {b : Block} {line rest : Line} {blocks : List Block} (hsized : b.Sized)
      (hnumber : fresh = true → b.number ≠ 0) (h : Arrives false line blocks rest) :
      Arrives fresh (b.packet.map some ++ line) (b :: blocks) rest

/-- A session on a line: noise, the packet with the name and the size of the file, and the data. -/
def SessionOn (tmSec : ℕ) (line : Line) (first : Block) (blocks : List Block) : Prop :=
  ∃ noise body rest, line = noise ++ (first.packet.map some ++ body) ∧ noise.length < tmSec ∧
    (∀ c ∈ noise, c ≠ some rymCodeSoh ∧ c ≠ some rymCodeStx) ∧ first.Sized ∧ first.number = 0 ∧
    Arrives true body blocks rest

/-- The payloads, one behind the other. -/
def payloads (blocks : List Block) : List UInt8 := blocks.flatMap Block.payload

@[simp] theorem payloads_nil : payloads [] = [] := rfl

@[simp] theorem payloads_cons (b : Block) (blocks : List Block) :
    payloads (b :: blocks) = b.payload ++ payloads blocks := List.flatMap_cons ..

theorem payloads_append (blocks more : List Block) :
    payloads (blocks ++ more) = payloads blocks ++ payloads more := List.flatMap_append ..

/-! ## A packet in the buffer -/

/-- A word that was put together from two bytes gives the bytes back. -/
theorem toUInt8_of_or {hi lo : UInt8} {w : UInt16}
    (h : hi.toUInt16 <<< 8 ||| lo.toUInt16 = w) : (w >>> 8).toUInt8 = hi ∧ w.toUInt8 = lo := by
  have hhi := hi.toNat_lt
  have hlo := lo.toNat_lt
  have hw : w.toNat = 256 * hi.toNat + lo.toNat := by
    have hshift : hi.toNat <<< 8 % 2 ^ 16 = hi.toNat <<< 8 := by
      rw [Nat.shiftLeft_eq]
      omega
    rw [← h, UInt16.toNat_or, UInt16.toNat_shiftLeft]
    simp only [UInt8.toNat_toUInt16, UInt16.reduceToNat, Nat.reduceMod]
    rw [hshift, ← Nat.shiftLeft_add_eq_or_of_lt lo.toNat_lt, Nat.shiftLeft_eq, Nat.mul_comm]
  constructor
  · rw [← UInt8.toNat_inj, UInt16.toNat_toUInt8, UInt16.toNat_shiftRight]
    simp only [UInt16.reduceToNat, Nat.reduceMod]
    rw [hw, Nat.shiftRight_eq_div_pow, show 2 ^ 8 = 256 from rfl]
    omega
  · rw [← UInt8.toNat_inj, UInt16.toNat_toUInt8, hw]
    omega

/-- A byte whose sum with another is `0xFF` is its complement. -/
theorem eq_not_of_add {a b : UInt8} (h : a.toNat + b.toNat = 0xFF) : b = ~~~a := by
  rw [← UInt8.toNat_inj, UInt8.toNat_not, show UInt8.size = 256 from rfl]
  omega

/-- A line that gave all the bytes asked for begins with them. -/
theorem takeLine_full {len : ℕ} {line : Line} (h : (takeLine len line).1.length = len) :
    line = (takeLine len line).1.map some ++ (takeLine len line).2 := by
  fun_induction takeLine len line with
  | case1 line => rfl
  | case2 len => simp at h
  | case3 len line => simp at h
  | case4 len b line ih =>
    rw [List.map_cons, List.cons_append, ← ih (Nat.succ_inj.1 h)]

section Packet

variable {ctx : RymCtx} {code : UInt8} {sz : ℕ}

/-- What a full read of a packet behind its code leaves. -/
theorem rymReadData_full {len : ℕ} (hlen : len ≤ 1028) (h : (rymReadData len ctx).1 = len) :
    ctx.line = ((rymReadData len ctx).2.buf.slice 1 len).map some ++
      (rymReadData len ctx).2.line := by
  have hdata : (takeLine len ctx.line).1.length = len := h
  have hfit : 1 + (takeLine len ctx.line).1.length ≤ rymStxPkgSz := by
    rw [hdata, rymStxPkgSz]
    omega
  have hslice : (rymReadData len ctx).2.buf.slice 1 len = (takeLine len ctx.line).1 := by
    have hself := Buffer.slice_store_self (b := ctx.buf) hfit
    rw [hdata] at hself
    exact hself
  rw [hslice]
  exact takeLine_full hdata

/-- The buffer behind the code: number, complement, payload and check sum. -/
theorem slice_packet (b : Buffer rymStxPkgSz) (sz : ℕ) :
    b.slice 1 (sz + 4) =
      b.byte 1 :: b.byte 2 :: (b.slice 3 sz ++ [b.byte (sz + 3), b.byte (sz + 4)]) := by
  calc b.slice 1 (sz + 4) = b.slice 1 (2 + (sz + 2)) := congrArg _ (by omega)
    _ = b.slice 1 2 ++ (b.slice 3 sz ++ b.slice (sz + 3) 2) := by
      rw [Buffer.slice_add, Buffer.slice_add, Nat.add_comm (1 + 2) sz]

/-- A packet that passes the checks is one that a sender makes. -/
theorem packet_of_buffer
    (hcode : code = rymCodeSoh ∧ sz = 128 ∨ code = rymCodeStx ∧ sz = 1024)
    (hnumber : (ctx.buf.byte 1).toNat + (ctx.buf.byte 2).toNat = 0xFF)
    (hcrc : recvCrc ctx (sz + 5) = crc16 (ctx.buf.slice 3 sz)) :
    code :: ctx.buf.slice 1 (sz + 4) = (Block.mk (ctx.buf.byte 1) (ctx.buf.slice 3 sz)).packet := by
  obtain ⟨hhi, hlo⟩ := toUInt8_of_or hcrc
  have hsoh : (if sz = 128 then rymCodeSoh else rymCodeStx) = code := by
    rcases hcode with ⟨rfl, rfl⟩ | ⟨rfl, rfl⟩ <;> rfl
  simp only [Block.packet, Buffer.slice_length]
  rw [slice_packet, hsoh, ← eq_not_of_add hnumber, hhi, hlo]
  rfl

end Packet

/-! ## The data packets -/

variable {L : Layout} {env : Env} {s : Board} {part : FalPartition} {m : Flash} {size sz : ℕ}
  {done bs : List UInt8} {ctx : RymCtx}

/-- The first `size` bytes of a partition are the start of `bs`, and erased behind its end. -/
def FalPartition.Held (part : FalPartition) (m : Flash) (size : ℕ) (bs : List UInt8) : Prop :=
  ∀ i < size, part.byte m i = bs.getD i 0xFF

/-- Data programmed right behind what is held is held with it. -/
theorem FalPartition.Held.programmed (h : part.Held m size done) :
    part.Held (part.programmed m done.length bs) size (done ++ bs) := by
  intro i hi
  by_cases hin : done.length ≤ i ∧ i < done.length + bs.length
  · rw [FalPartition.byte_programmed hin.1 hin.2, h i hi, List.getD_eq_default _ _ hin.1,
      List.getD_append_right _ _ _ _ hin.1, List.getD_eq_getElem _ _ (by omega),
      List.getD_eq_getElem _ _ (by omega)]
    exact ff_and _
  · rw [FalPartition.byte_programmed_of_not hin, h i hi]
    rcases Nat.lt_or_ge i done.length with hlt | hge
    · rw [List.getD_append _ _ _ _ hlt]
    · rw [List.getD_eq_default _ _ hge, List.getD_append_right _ _ _ _ hge,
        List.getD_eq_default _ _ (by omega)]

/-- The receiver is in the middle of a file of `size` bytes, of which `done` is stored. -/
structure Receiving (part : FalPartition) (size : ℕ) (done : List UInt8) (ctx : RymCtx) (s : Board) :
    Prop where
  dlPart : ctx.dlPart = some part
  total : ctx.updateFileTotalSize = size
  cur : ctx.updateFileCurSize = done.length
  fits : done.length ≤ part.len
  held : part.Held s.flash size done

/-- A data call programs its bytes at the write position and moves it, or cancels the session. -/
theorem wp_ymodemOnData_at {pos : ℕ} {Q : RymCtx × UInt8 → Board → Prop} {E : Option Halt → Board → Prop}
    (hp : part ∈ L.parts) (hpart : ctx.dlPart = some part) (hpos : ctx.updateFileCurSize = pos)
    (hle : pos ≤ part.len) (hbs : bs.length ≤ 1024) (hcut : ¬ Calm env → ∀ s', E none s')
    (hack : pos + bs.length ≤ part.len → ∀ s', s'.flash = part.programmed s.flash pos bs →
      Q ({ ctx with updateFileCurSize := pos + bs.length }, rymCodeAck) s')
    (hcan : (Calm env → part.len < pos + bs.length ∨ part.dev = .onchip ∧ (bs = [] ∨
        ¬ ∀ (i : ℕ) (hi : i < bs.length), Below bs[i] (part.byte s.flash (pos + i)))) →
      ∀ s', part.SameOutside pos bs.length s.flash s'.flash → Q (ctx, rymCodeCan) s') :
    (ymodemOnData ctx bs).wp (world L env) Q E s := by
  have hlen := L.len_lt hp
  rw [ymodemOnData, Prog.wp_bind, hpart, hpos]
  by_cases hfit : pos + bs.length ≤ part.len
  · apply wp_falPartitionWrite hp hfit hcut
    · intro _ s' hs' _
      have hq := hack hfit s' hs'
      rw [hpart] at hq
      rw [if_neg (by omega), u32_of_lt (by omega)]
      exact hq
    · intro hquiet r hr s' hs' _
      rw [if_pos hr]
      refine hcan (fun hcalm => Or.inr ?_) s' hs'
      exact hquiet fun t => by rw [hcalm]; exact Fault.none_quiet
  · rw [falPartitionWrite_out (by omega) (by omega)]
    exact hcan (fun _ => Or.inl (Nat.not_le.1 hfit)) s fun _ _ _ => rfl

/-- A packet's payload is refused, or stored behind the ones before. -/
theorem wp_ymodemOnData (hp : part ∈ L.parts) (h : Receiving part size done ctx s)
    (hbs : bs.length ≤ 1024) :
    (ymodemOnData ctx bs).wp (world L env)
      (fun r s' => r.2 = rymCodeCan ∨
        r.2 = rymCodeAck ∧ r.1.stage = ctx.stage ∧ r.1.line = ctx.line ∧
          Receiving part size (done ++ bs) r.1 s')
      (fun e _ => e ≠ some .diverged) s := by
  apply wp_ymodemOnData_at hp h.dlPart h.cur h.fits hbs
  · intro _ _
    simp
  · intro hfit s' hs'
    refine Or.inr ⟨rfl, rfl, rfl, h.dlPart, h.total, ?_, ?_, ?_⟩
    · rw [List.length_append]
    · rw [List.length_append]
      exact hfit
    · rw [hs']
      exact h.held.programmed
  · intro _ _ _
    exact Or.inl rfl

/-- What `_rym_trans_data` makes of the packet behind a code. -/
inductive Taken (part : FalPartition) (size : ℕ) (done : List UInt8) (code : UInt8) (ctx : RymCtx)
    (s' : Board) : RymCtx × Except RymErr UInt8 → Prop
  | error (ctx' : RymCtx) (err : RymErr) : Taken part size done code ctx s' (ctx', .error err)
  | refused (ctx' : RymCtx) : Taken part size done code ctx s' (ctx', .ok rymCodeCan)
  | again {ctx' : RymCtx} {data : List UInt8} (hfresh : ctx.stage = .established)
      (hstage : ctx'.stage = .established)
      (hdata : code = rymCodeSoh ∧ data.length = 130 ∨ code = rymCodeStx ∧ data.length = 1026)
      (hline : some code :: ctx.line = (code :: 0 :: 0xFF :: data).map some ++ ctx'.line)
      (hrecv : Receiving part size done ctx' s') :
      Taken part size done code ctx s' (ctx', .ok rymCodeNone)
  | stored {ctx' : RymCtx} {b : Block} (hfresh : ctx.stage = .established → b.number ≠ 0)
      (hstage : ctx'.stage ≠ .established) (hsized : b.Sized)
      (hline : some code :: ctx.line = b.packet.map some ++ ctx'.line)
      (hrecv : Receiving part size (done ++ b.payload) ctx' s') :
      Taken part size done code ctx s' (ctx', .ok rymCodeAck)

theorem wp_rymTransData {code : UInt8} (hp : part ∈ L.parts)
    (hcode : code = rymCodeSoh ∧ sz = 128 ∨ code = rymCodeStx ∧ sz = 1024)
    (h : Receiving part size done ctx s) :
    (rymTransData sz ctx).wp (world L env) (fun r s' => Taken part size done code ctx s' r)
      (fun e _ => e ≠ some .diverged) s := by
  have hsz : sz ≤ 1024 := by omega
  rw [rymTransData]
  generalize hread : rymReadData (2 + sz + 2) ctx = r
  obtain ⟨i, ctx₁⟩ := r
  have hctx : ctx₁ = (rymReadData (2 + sz + 2) ctx).2 := (congrArg Prod.snd hread).symm
  have hrecv : Receiving part size done ctx₁ s := by
    rw [hctx]
    exact ⟨h.dlPart, h.total, h.cur, h.fits, h.held⟩
  have hstage : ctx₁.stage = ctx.stage := by
    rw [hctx]
    rfl
  have hline : i = 2 + sz + 2 →
      ctx.line = (ctx₁.buf.slice 1 (sz + 4)).map some ++ ctx₁.line := by
    intro hi
    rw [hctx, show sz + 4 = 2 + sz + 2 by omega]
    exact rymReadData_full (by omega) (by rw [hread, hi])
  simp only
  split_ifs with hi hsum hagain hcrc
  · exact Taken.error _ _
  · exact Taken.error _ _
  · -- its complement is then `0xFF`, and nothing else of it is looked at
    have hnot : ctx₁.buf.byte 2 = 0xFF := by
      rw [eq_not_of_add (not_not.1 hsum), hagain.2]
      rfl
    have hbytes : ctx₁.buf.slice 1 (sz + 4) = 0 :: 0xFF :: (ctx₁.buf.slice 3 sz ++
        [ctx₁.buf.byte (sz + 3), ctx₁.buf.byte (sz + 4)]) := by
      rw [slice_packet, hagain.2, hnot]
    rw [hbytes] at hline
    refine Taken.again (hstage ▸ hagain.1) hagain.1 ?_ (congrArg _ (hline (not_not.1 hi))) hrecv
    · rcases hcode with ⟨hc, rfl⟩ | ⟨hc, rfl⟩
      · exact Or.inl ⟨hc, by simp⟩
      · exact Or.inr ⟨hc, by simp⟩
  · exact Taken.error _ _
  · have hcrc' : recvCrc ctx₁ (sz + 5) = crc16 (ctx₁.buf.slice 3 sz) := by
      rw [show sz + 5 = 2 + sz + 3 by omega]
      exact not_not.1 hcrc
    have hpacket := packet_of_buffer hcode (not_not.1 hsum) hcrc'
    have hlength : (ctx₁.buf.slice 3 sz).length = sz := Buffer.slice_length ..
    have hrecv₁ : Receiving part size done { ctx₁ with stage := .transmitting } s :=
      ⟨hrecv.dlPart, hrecv.total, hrecv.cur, hrecv.fits, hrecv.held⟩
    rw [Prog.wp_bind]
    refine Prog.wp_mono (wp_ymodemOnData hp hrecv₁ (hlength.le.trans hsz)) ?_ fun _ _ he => he
    rintro ⟨ctx₂, code'⟩ s' (hcan | ⟨hack, hst, hl, hrecv'⟩)
    · rw [Prog.wp_ret, show code' = rymCodeCan from hcan]
      exact Taken.refused _
    · rw [Prog.wp_ret, show code' = rymCodeAck from hack]
      refine Taken.stored (b := ⟨ctx₁.buf.byte 1, ctx₁.buf.slice 3 sz⟩) ?_ ?_ ?_ ?_ hrecv'
      · intro hfresh hzero
        exact hagain ⟨hstage ▸ hfresh, hzero⟩
      · rw [show ctx₂.stage = .transmitting from hst]
        decide
      · exact hcode.imp (fun hc => hlength.trans hc.2) fun hc => hlength.trans hc.2
      · rw [show ctx₂.line = ctx₁.line from hl, hline (not_not.1 hi), ← hpacket]
        rfl

/-- A code other than none was taken off the line. -/
theorem line_of_readCode (h : (rymReadCode ctx).1 ≠ rymCodeNone) :
    ctx.line = some (rymReadCode ctx).1 :: (rymReadCode ctx).2.line := by
  unfold rymReadCode at h ⊢
  split at h
  · exact absurd rfl h
  · exact absurd rfl h
  · rename_i b line heq
    rw [heq]

/-- Reading a code, and sending one, leave the file alone. -/
theorem Receiving.readCode (h : Receiving part size done ctx s) :
    Receiving part size done (rymReadCode ctx).2 s ∧ (rymReadCode ctx).2.stage = ctx.stage := by
  unfold rymReadCode
  split <;> exact ⟨⟨h.dlPart, h.total, h.cur, h.fits, h.held⟩, rfl⟩

/-- The loop stores the packets that arrive, in the order in which they do. Each round takes at least
the code off the line, so that the loop ends in time. -/
theorem wp_rymTransLoop (hp : part ∈ L.parts) (fuel : ℕ) (hfuel : ctx.line.length < fuel)
    (h : Receiving part size done ctx s) :
    (rymTransLoop fuel ctx).wp (world L env)
      (fun r s' => r.2 = none → ∃ blocks rest,
        Arrives (decide (ctx.stage = .established)) ctx.line blocks rest ∧
          Receiving part size (done ++ payloads blocks) r.1 s' ∧ r.1.line = rest)
      (fun e _ => e ≠ some .diverged) s := by
  induction fuel generalizing ctx done s with
  | zero => exact absurd hfuel (Nat.not_lt_zero _)
  | succ fuel ih =>
    have hline : _ → ctx.line = _ := line_of_readCode
    obtain ⟨hrecv, hstage⟩ := h.readCode
    rw [rymTransLoop]
    generalize rymReadCode ctx = rc at hline hrecv hstage ⊢
    obtain ⟨code, ctx₁⟩ := rc
    simp only at hline hrecv hstage ⊢
    by_cases heot : code = rymCodeEot
    · rw [if_pos heot]
      intro _
      rw [hline (by rw [heot]; decide), heot]
      refine ⟨[], ctx₁.line, Arrives.eot _, ?_, rfl⟩
      rw [payloads_nil, List.append_nil]
      exact hrecv
    rw [if_neg heot]
    by_cases hcode : code ≠ rymCodeSoh ∧ code ≠ rymCodeStx
    · rw [if_pos hcode]
      exact fun hnone => absurd hnone (by simp)
    -- the packet behind the code decides whether the loop goes on
    have hsz : code = rymCodeSoh ∧ (if code = rymCodeSoh then 128 else 1024) = 128 ∨
        code = rymCodeStx ∧ (if code = rymCodeSoh then 128 else 1024) = 1024 := by
      by_cases hsoh : code = rymCodeSoh
      · exact Or.inl ⟨hsoh, if_pos hsoh⟩
      · exact Or.inr ⟨by_contra fun hstx => hcode ⟨hsoh, hstx⟩, if_neg hsoh⟩
    have hline := hline (by rcases hsz with ⟨rfl, -⟩ | ⟨rfl, -⟩ <;> decide)
    rw [hline, List.length_cons] at hfuel
    rw [if_neg hcode, Prog.wp_bind]
    refine Prog.wp_mono (wp_rymTransData hp hsz hrecv) ?_ fun _ _ he => he
    rintro ⟨ctx₂, res⟩ s' htaken
    cases htaken with
    | error ctx' err => exact fun hnone => absurd hnone (by simp)
    | refused ctx' => exact fun hnone => absurd hnone (by simp)
    | @again _ data hfresh hstage' hdata hline' hrecv' =>
      have hshort := congrArg List.length hline'
      simp only [List.length_cons, List.length_append, List.length_map] at hshort
      have hless : ctx₂.line.length < fuel := by omega
      refine Prog.wp_mono (ih hless hrecv') ?_ fun _ _ he => he
      intro r s'' hr hnone
      obtain ⟨blocks, rest, harr, hend⟩ := hr hnone
      refine ⟨blocks, rest, ?_, hend⟩
      rw [← hstage, hfresh, decide_eq_true rfl, hline, hline']
      rw [hstage', decide_eq_true rfl] at harr
      exact Arrives.again hdata harr
    | @stored _ b hfresh hstage' hsized hline' hrecv' =>
      have hshort := congrArg List.length hline'
      simp only [Block.packet, List.length_cons, List.length_append, List.length_map] at hshort
      have hsent : Receiving part size (done ++ b.payload) (rymPutchar rymCodeAck ctx₂) s' :=
        ⟨hrecv'.dlPart, hrecv'.total, hrecv'.cur, hrecv'.fits, hrecv'.held⟩
      refine Prog.wp_mono (ih ?_ hsent) ?_ fun _ _ he => he
      · show ctx₂.line.length < fuel
        omega
      · intro r s'' hr hnone
        obtain ⟨blocks, rest, harr, hend⟩ := hr hnone
        refine ⟨b :: blocks, rest, ?_, ?_⟩
        · rw [hline, hline']
          refine Arrives.block hsized (fun hd => hfresh ?_) ?_
          · rw [hstage]
            exact of_decide_eq_true hd
          · have hst : (rymPutchar rymCodeAck ctx₂).stage ≠ .established := hstage'
            rw [decide_eq_false hst] at harr
            exact harr
        · rw [payloads_cons, ← List.append_assoc]
          exact hend

/-! ## The first packet -/

theorem digits_append {text rest : List UInt8} {n : ℕ} (h : digits text = some n) :
    digits (text ++ rest) = some n := by
  unfold digits at h ⊢
  split at h
  · exact absurd h (by simp)
  · rename_i hall
    have htake : (text.takeWhile isDigit).length ≠ text.length := fun hlen =>
      hall (List.all_eq_true.2 (List.takeWhile_eq_self_iff.1
        ((List.takeWhile_prefix _).eq_of_length hlen)))
    rw [List.all_append, if_neg (by simp [hall]), List.takeWhile_append, if_neg htake, h]

theorem atol_append {text rest : List UInt8} {i : ℤ} (h : atol text = some i) :
    atol (text ++ rest) = some i := by
  unfold atol at h ⊢
  split at h
  · exact absurd h (by simp)
  · rename_i b more heq
    rw [List.dropWhile_append, heq, List.isEmpty_cons, if_neg Bool.false_ne_true, List.cons_append]
    simp only
    split_ifs at h ⊢
    all_goals
      obtain ⟨n, hn, hi⟩ := Option.map_eq_some_iff.1 h
      exact Option.map_eq_some_iff.2 ⟨n, digits_append hn, hi⟩

/-- A size that ends within the payload is not changed by what lies behind it. -/
theorem fileSize_append {text rest : List UInt8} {n : ℕ} (h : fileSize text = some n) :
    fileSize (text ++ rest) = some n := by
  unfold fileSize at h ⊢
  split at h
  · exact absurd h (by simp)
  · rename_i b size heq
    rw [List.dropWhile_append, heq, List.isEmpty_cons, if_neg Bool.false_ne_true, List.cons_append]
    obtain ⟨i, hi, hn⟩ := Option.map_eq_some_iff.1 h
    exact Option.map_eq_some_iff.2 ⟨i, atol_append hi, hn⟩

/-- What lies behind the payload is the rest of the buffer. -/
theorem buf_payload (ctx : RymCtx) {len : ℕ} (hlen : len ≤ 1024) : ctx.buf.bytes.drop 3 =
    ctx.buf.slice 3 len ++ ctx.buf.slice (3 + len) (1026 - len) := by
  rw [← Buffer.slice_add, Nat.add_sub_cancel' (by omega)]
  exact Buffer.drop_slice (show 3 ≤ rymStxPkgSz by decide)

/-- A file is only begun on a partition that was found, is long enough and got erased. -/
theorem wp_ymodemOnBegin (name : List UInt8) :
    (ymodemOnBegin L name ctx).wp (world L env)
      (fun r s' => r.2 = rymCodeAck → ∃ part size, falPartitionFind L name = some part ∧
        fileSize (ctx.buf.bytes.drop 3) = some size ∧ r.1.line = ctx.line ∧
        r.1.stage = ctx.stage ∧ Receiving part size [] r.1 s')
      (fun _ _ => True) s := by
  have hcan : rymCodeCan ≠ rymCodeAck := by decide
  unfold ymodemOnBegin
  split
  · trivial
  · rename_i size hsize
    simp only
    split
    · exact fun hack => absurd hack hcan
    · rename_i part hfind
      have hp := mem_of_find hfind
      split_ifs with hlen
      · exact fun hack => absurd hack hcan
      have hbegun : ∀ {s' : Board}, part.Held s'.flash size [] →
          Receiving part size [] { ctx with
            updateFileTotalSize := size
            updateFileCurSize := 0
            dlPart := falPartitionFind L name } s' :=
        fun hheld => ⟨hfind, rfl, rfl, Nat.zero_le _, hheld⟩
      rw [Prog.wp_bind]
      rcases Nat.eq_zero_or_pos size with rfl | hpos
      · refine wp_falPartitionErase_zero (fun _ _ => trivial) fun r s' _ _ => ?_
        exact ⟨part, 0, hfind, hsize, rfl, rfl, hbegun fun i hi => absurd hi (Nat.not_lt_zero _)⟩
      · refine wp_falPartitionErase hp hpos (by omega) (fun _ _ => trivial) ?_ ?_
        · intro s' hs' _ _
          refine ⟨part, size, hfind, hsize, rfl, rfl, hbegun fun i hi => ?_⟩
          have hstart := eraseStart_le L part 0
          have hstop := le_eraseStop L part (0 + size)
          rw [hs', FalPartition.byte_erased (by omega) (by omega)]
          rfl
        · intro _ r hr s' _ hack
          simp only [if_pos hr] at hack
          exact absurd hack hcan

/-- The tries for a first packet end at the first code that begins one. -/
theorem rymAwaitPacket_some {ctx' : RymCtx} {tmSec dataSz : ℕ}
    (h : rymAwaitPacket tmSec ctx = (ctx', some dataSz)) :
    ∃ noise code, ctx.line = noise ++ some code :: ctx'.line ∧ noise.length < tmSec ∧
      (∀ c ∈ noise, c ≠ some rymCodeSoh ∧ c ≠ some rymCodeStx) ∧
      (code = rymCodeSoh ∧ dataSz = 128 + 5 ∨ code = rymCodeStx ∧ dataSz = 1024 + 5) := by
  induction tmSec generalizing ctx with
  | zero => exact absurd (congrArg Prod.snd h) (by simp [rymAwaitPacket])
  | succ tmSec ih =>
    have hline : _ → (rymPutchar rymCodeC ctx).line = _ := line_of_readCode
    have hrest : (rymReadCode (rymPutchar rymCodeC ctx)).2.line = ctx.line.tail := by
      rcases ctx with ⟨_, _, _ | ⟨_ | b, line⟩, _, _, _, _⟩ <;> rfl
    have hhead : ∀ b line, ctx.line = some b :: line →
        (rymReadCode (rymPutchar rymCodeC ctx)).1 = b := by
      intro b line hl
      rw [rymReadCode, show (rymPutchar rymCodeC ctx).line = _ from hl]
    rw [rymAwaitPacket] at h
    generalize rymReadCode (rymPutchar rymCodeC ctx) = rc at h hline hrest hhead
    obtain ⟨code, ctx₁⟩ := rc
    simp only at h hline hrest hhead
    split_ifs at h with hsoh hstx
    · obtain ⟨rfl, hsz⟩ := Prod.mk.inj h
      refine ⟨[], code, hline (by rw [hsoh]; decide), Nat.succ_pos _, by simp, Or.inl ⟨hsoh, ?_⟩⟩
      exact (Option.some.inj hsz).symm
    · obtain ⟨rfl, hsz⟩ := Prod.mk.inj h
      refine ⟨[], code, hline (by rw [hstx]; decide), Nat.succ_pos _, by simp, Or.inr ⟨hstx, ?_⟩⟩
      exact (Option.some.inj hsz).symm
    · -- a try took at most one code, and that one began no packet
      obtain ⟨noise, code', hnoise, hlen, hquiet, hcode'⟩ := ih h
      rw [hrest] at hnoise
      rcases hl : ctx.line with _ | ⟨c, line⟩
      · rw [hl] at hnoise
        exact absurd hnoise (by simp)
      · rw [hl, List.tail_cons] at hnoise
        refine ⟨c :: noise, code', ?_, by simpa using hlen, ?_, hcode'⟩
        · rw [hnoise, List.cons_append]
        · intro c' hc'
          rcases List.mem_cons.1 hc' with rfl | hmem
          · constructor
            · rintro rfl
              exact hsoh (hhead _ _ hl)
            · rintro rfl
              exact hstx (hhead _ _ hl)
          · exact hquiet c' hmem

/-- A handshake that succeeds took the first packet off the line and began its file. -/
theorem wp_rymDoHandshake (name : List UInt8) (tmSec : ℕ) :
    (rymDoHandshake L name tmSec ctx).wp (world L env)
      (fun r s' => r.2 = none → ∃ part, ∃ first : Block, ∃ noise,
        falPartitionFind L name = some part ∧
        ctx.line = noise ++ (first.packet.map some ++ r.1.line) ∧ noise.length < tmSec ∧
        (∀ c ∈ noise, c ≠ some rymCodeSoh ∧ c ≠ some rymCodeStx) ∧ first.Sized ∧
        first.number = 0 ∧
        (∀ n, fileSize first.payload = some n → r.1.updateFileTotalSize = n) ∧
        Receiving part r.1.updateFileTotalSize [] r.1 s')
      (fun _ _ => True) s := by
  rw [rymDoHandshake]
  generalize hawait : rymAwaitPacket tmSec { ctx with stage := .establishing } = w
  obtain ⟨ctx₁, _ | dataSz⟩ := w
  · exact fun hnone => absurd hnone (by simp)
  obtain ⟨noise, code, hnoise, hlen, hquiet, hcode⟩ := rymAwaitPacket_some hawait
  obtain ⟨sz, rfl⟩ : ∃ sz, dataSz = sz + 5 := by
    rcases hcode with ⟨-, rfl⟩ | ⟨-, rfl⟩
    · exact ⟨_, rfl⟩
    · exact ⟨_, rfl⟩
  simp only [Nat.add_right_cancel_iff] at hcode
  have hsz : sz ≤ 1024 := by omega
  simp only
  generalize hread : rymReadData (sz + 5 - 1) ctx₁ = r
  obtain ⟨i, ctx₂⟩ := r
  have hline : i = sz + 4 → ctx₁.line = (ctx₂.buf.slice 1 (sz + 4)).map some ++ ctx₂.line := by
    intro hi
    rw [show ctx₂ = (rymReadData (sz + 4) ctx₁).2 from (congrArg Prod.snd hread).symm]
    exact rymReadData_full (by omega) ((congrArg Prod.fst hread).trans hi)
  simp only
  split_ifs with hi hnumber hcrc
  · exact fun hnone => absurd hnone (by simp)
  · exact fun hnone => absurd hnone (by simp)
  · exact fun hnone => absurd hnone (by simp)
  rw [not_or, not_not, not_not] at hnumber
  have hpacket : code :: ctx₂.buf.slice 1 (sz + 4) =
      (Block.mk (ctx₂.buf.byte 1) (ctx₂.buf.slice 3 sz)).packet := by
    refine packet_of_buffer hcode ?_ (not_not.1 hcrc)
    rw [hnumber.1, hnumber.2]
    rfl
  have hlength : (ctx₂.buf.slice 3 sz).length = sz := Buffer.slice_length ..
  rw [Prog.wp_bind]
  refine Prog.wp_mono (wp_ymodemOnBegin name) ?_ fun _ _ _ => trivial
  rintro ⟨ctx₃, answer⟩ s' hbegin
  rw [Prog.wp_ret]
  intro hnone
  have hack : answer = rymCodeAck := by
    by_contra hne
    exact absurd hnone (by simp [hne])
  obtain ⟨part, size, hfind, hsize, hl, -, hrecv⟩ := hbegin hack
  refine ⟨part, ⟨ctx₂.buf.byte 1, ctx₂.buf.slice 3 sz⟩, noise, hfind, ?_, hlen, hquiet,
    hcode.imp (fun hc => hlength.trans hc.2) (fun hc => hlength.trans hc.2), hnumber.1, ?_, ?_⟩
  · rw [show ctx.line = _ from hnoise, hline (not_not.1 hi), ← hpacket,
      show ctx₃.line = ctx₂.line from hl]
    rfl
  · intro n hn
    rw [buf_payload ctx₂ hsz, fileSize_append hn] at hsize
    exact hrecv.total.trans (Option.some.inj hsize).symm
  · rw [show ctx₃.updateFileTotalSize = size from hrecv.total]
    exact hrecv

/-! ## A whole session -/

theorem wp_rymLastPacket (name : List UInt8) (hfin : ctx.stage ≠ .finished)
    (h : Receiving part size done ctx s) :
    (rymLastPacket L name ctx).wp (world L env)
      (fun r s' => r.2 = none → r.1.stage = .finished → Receiving part size done r.1 s')
      (fun _ _ => True) s := by
  rw [rymLastPacket]
  have hrecv : Receiving part size done (rymReadData (rymSohPkgSz - 1) ctx).2 s :=
    ⟨h.dlPart, h.total, h.cur, h.fits, h.held⟩
  have hstage : (rymReadData (rymSohPkgSz - 1) ctx).2.stage ≠ .finished := hfin
  generalize rymReadData (rymSohPkgSz - 1) ctx = r at hrecv hstage ⊢
  obtain ⟨i, ctx₁⟩ := r
  simp only at hrecv hstage ⊢
  split_ifs with hi hnumber hcrc hname
  · exact fun hnone => absurd hnone (by simp)
  · exact fun hnone => absurd hnone (by simp)
  · exact fun hnone => absurd hnone (by simp)
  · -- a further file is begun: the session is not over
    rw [Prog.wp_bind]
    refine Prog.wp_mono (wp_ymodemOnBegin name) ?_ fun _ _ _ => trivial
    rintro ⟨ctx₂, answer⟩ s' hbegin
    rw [Prog.wp_ret]
    intro hnone hfinished
    have hack : answer = rymCodeAck := by
      by_contra hne
      exact absurd hnone (by simp [hne])
    obtain ⟨_, _, _, _, _, hst, _⟩ := hbegin hack
    exact absurd (hst.symm.trans hfinished) hstage
  · exact fun _ _ => ⟨hrecv.dlPart, hrecv.total, hrecv.cur, hrecv.fits, hrecv.held⟩

/-- The end of a session leaves the file alone, unless it begins the next one. -/
theorem wp_rymDoFin (name : List UInt8) (h : Receiving part size done ctx s) :
    (rymDoFin L name ctx).wp (world L env)
      (fun r s' => r.2 = none → r.1.stage = .finished → Receiving part size done r.1 s')
      (fun _ _ => True) s := by
  have h₁ : Receiving part size done (rymPutchar rymCodeNak { ctx with stage := .finishing }) s :=
    ⟨h.dlPart, h.total, h.cur, h.fits, h.held⟩
  obtain ⟨h₂, hstage₂⟩ := h₁.readCode
  rw [rymDoFin]
  generalize rymReadCode (rymPutchar rymCodeNak { ctx with stage := .finishing }) = rc
    at h₂ hstage₂ ⊢
  obtain ⟨code, ctx₁⟩ := rc
  simp only at h₂ hstage₂ ⊢
  have h₃ : Receiving part size done (rymPutchar rymCodeC (rymPutchar rymCodeAck ctx₁)) s :=
    ⟨h₂.dlPart, h₂.total, h₂.cur, h₂.fits, h₂.held⟩
  obtain ⟨h₄, hstage₄⟩ := h₃.readCode
  split_ifs with hcode hcode'
  · exact fun hnone => absurd hnone (by simp)
  · exact fun hnone => absurd hnone (by simp)
  · refine wp_rymLastPacket name ?_ h₄
    rw [hstage₄]
    show ctx₁.stage ≠ .finished
    rw [show ctx₁.stage = .finishing from hstage₂]
    decide

/-- A session of one file: what arrived is what the partition holds. -/
theorem wp_rymDoRecv (name : List UInt8) (tmSec : ℕ) :
    (rymDoRecv L name tmSec 1 ctx).wp (world L env)
      (fun r s' => r.2 = none → ∃ part first blocks, falPartitionFind L name = some part ∧
        SessionOn tmSec ctx.line first blocks ∧
        (∀ n, fileSize first.payload = some n → r.1.updateFileTotalSize = n) ∧
        Receiving part r.1.updateFileTotalSize (payloads blocks) r.1 s')
      (fun _ _ => True) s := by
  rw [rymDoRecv, Prog.wp_bind]
  refine Prog.wp_mono (wp_rymDoHandshake name tmSec) ?_ fun _ _ _ => trivial
  rintro ⟨ctx₁, err⟩ s₁ hhand
  simp only
  split_ifs with herr
  · exact fun hnone => absurd hnone herr
  obtain ⟨part, first, noise, hfind, hline, hlen, hquiet, hsized, hzero, hsize, hrecv⟩ :=
    hhand (not_not.1 herr)
  have hp := mem_of_find hfind
  rw [rymRecvFiles, Prog.wp_bind, rymDoTrans]
  have hstart : Receiving part ctx₁.updateFileTotalSize []
      { rymPutchar rymCodeC (rymPutchar rymCodeAck ctx₁) with stage := .established } s₁ :=
    ⟨hrecv.dlPart, rfl, hrecv.cur, hrecv.fits, hrecv.held⟩
  refine Prog.wp_mono (wp_rymTransLoop hp _ (Nat.lt_succ_self _) hstart) ?_ fun _ _ _ => trivial
  rintro ⟨ctx₂, err₂⟩ s₂ htrans
  simp only
  split_ifs with herr₂
  · exact fun hnone => absurd hnone herr₂
  obtain ⟨blocks, rest, harr, hrecv₂, -⟩ := htrans (not_not.1 herr₂)
  rw [Prog.wp_bind]
  refine Prog.wp_mono (wp_rymDoFin name hrecv₂) ?_ fun _ _ _ => trivial
  rintro ⟨ctx₃, err₃⟩ s₃ hend
  simp only
  split_ifs with herr₃ hfin
  · exact fun hnone => absurd hnone herr₃
  · intro _
    have hrecv₃ := hend (not_not.1 herr₃) hfin
    refine ⟨part, first, blocks, hfind, ?_, ?_, ?_⟩
    · exact ⟨noise, ctx₁.line, rest, hline, hlen, hquiet, hsized, hzero, harr⟩
    · intro n hn
      exact hrecv₃.total.trans (hsize n hn)
    · rw [show ctx₃.updateFileTotalSize = _ from hrecv₃.total]
      exact hrecv₃
  · trivial

/-- A session that ends within one file ends alike when more are allowed. -/
theorem rymDoRecv_single {name : List UInt8} {tmSec : ℕ} {r : RymCtx × Option RymErr} {s' : Board}
    (h : (rymDoRecv L name tmSec 1 ctx).run (world L env) s = .done r s') (files : ℕ) :
    (rymDoRecv L name tmSec (files + 1) ctx).run (world L env) s = .done r s' := by
  unfold rymDoRecv at h ⊢
  refine Prog.run_bind_imp h ?_
  rintro ⟨ctx₁, err₁⟩ t₁ h₁
  simp only [rymRecvFiles] at h₁ ⊢
  split_ifs at h₁ ⊢
  · exact h₁
  refine Prog.run_bind_imp h₁ ?_
  rintro ⟨ctx₂, err₂⟩ t₂ h₂
  simp only at h₂ ⊢
  split_ifs at h₂ ⊢
  · exact h₂
  refine Prog.run_bind_imp h₂ ?_
  rintro ⟨ctx₃, err₃⟩ t₃ h₃
  simp only at h₃ ⊢
  split_ifs at h₃ ⊢
  · exact h₃
  · exact h₃
  · cases h₃

/-! ## Which sessions store the file

`blocks` are the intact packets of a session. What the session should store are those numbered 1, 2, 3
and so on, each of them once. -/

/-- Packets with the sequence numbers 1, 2, 3 and so on, modulo 256. -/
def Numbered (blocks : List Block) : Prop :=
  blocks.map Block.number = (List.range blocks.length).map fun i => UInt8.ofNat (i + 1)

instance (blocks : List Block) : Decidable (Numbered blocks) :=
  inferInstanceAs (Decidable (_ = _))

/-- A partition holds `size` bytes of the payloads of packets 1, 2, 3 and so on, and no fewer came. -/
def StoredInOrder (part : FalPartition) (m : Flash) (size : ℕ) (blocks : List Block) : Prop :=
  ∃ bs, bs.Sublist blocks ∧ Numbered bs ∧ size ≤ (payloads bs).length ∧
    part.bytes m 0 size = (payloads bs).take size

/-- The packets come numbered 1, 2, 3 and so on until `size` bytes are there. -/
def ComeInOrder (size : ℕ) (blocks : List Block) : Prop :=
  ∃ bs, bs <+: blocks ∧ Numbered bs ∧ size ≤ (payloads bs).length

/-- The payloads as they come read like those of packets 1, 2, 3 and so on for `size` bytes. -/
def ReadInOrder (size : ℕ) (blocks : List Block) : Prop :=
  ∃ bs, bs.Sublist blocks ∧ Numbered bs ∧ size ≤ (payloads bs).length ∧
    (payloads blocks).take size = (payloads bs).take size

theorem ComeInOrder.readInOrder {blocks : List Block} (h : ComeInOrder size blocks) :
    ReadInOrder size blocks := by
  obtain ⟨bs, ⟨more, rfl⟩, hnum, hsize⟩ := h
  refine ⟨bs, List.sublist_append_left _ _, hnum, hsize, ?_⟩
  rw [payloads_append, List.take_append_of_le_length hsize]

theorem FalPartition.Held.bytes_eq (h : part.Held m size bs) (hsize : size ≤ bs.length) :
    part.bytes m 0 size = bs.take size := by
  refine List.ext_getElem (by simp [hsize]) fun i hi hi' => ?_
  rw [FalPartition.bytes_length] at hi
  have hbyte := h i hi
  rw [List.getD_eq_getElem _ _ (by omega)] at hbyte
  rw [List.getElem_take, ← hbyte]
  simp only [FalPartition.bytes, Nor.read, List.getElem_map, List.getElem_range, Nat.add_zero,
    FalPartition.byte]

/-- When a session of one file ends in success, the partition holds the file if the packets came in
order, and otherwise just when what came reads as if they had. -/
theorem ymodem_stores_iff {name : List UInt8} {tmSec : ℕ} {ctx ctx' : RymCtx} {s s' : Board}
    (hrun : (rymDoRecv L name tmSec 1 ctx).run (world L env) s = .done (ctx', none) s') :
    ∃ part first blocks, falPartitionFind L name = some part ∧
      SessionOn tmSec ctx.line first blocks ∧
      (∀ n, fileSize first.payload = some n → ctx'.updateFileTotalSize = n) ∧
      (ComeInOrder ctx'.updateFileTotalSize blocks →
        StoredInOrder part s'.flash ctx'.updateFileTotalSize blocks) ∧
      (StoredInOrder part s'.flash ctx'.updateFileTotalSize blocks ↔
        ReadInOrder ctx'.updateFileTotalSize blocks) := by
  have hwp : (rymDoRecv L name tmSec 1 ctx).wp (world L env) _ _ s := wp_rymDoRecv name tmSec
  rw [Prog.wp_iff_run, hrun] at hwp
  obtain ⟨part, first, blocks, hfind, hsession, hsize, hrecv⟩ := hwp rfl
  have hstored : StoredInOrder part s'.flash ctx'.updateFileTotalSize blocks ↔
      ReadInOrder ctx'.updateFileTotalSize blocks := by
    refine exists_congr fun bs => and_congr_right fun hsub => and_congr_right fun _ =>
      and_congr_right fun hlen => ?_
    have hmore : (payloads bs).length ≤ (payloads blocks).length :=
      (hsub.flatMap Block.payload).length_le
    rw [hrecv.held.bytes_eq (hlen.trans hmore)]
  exact ⟨part, first, blocks, hfind, hsession, hsize,
    fun hcome => hstored.2 hcome.readInOrder, hstored⟩

/-! Two sessions in which the file is `f` with 256 bytes, and one that sends `A`s and then `B`s. -/

/-- What a sender puts on the line for a file: the named packet, the blocks, the end of transmission
twice and a packet without a name. -/
def sentSession (first : Block) (blocks : List Block) : Line :=
  first.packet.map some ++ blocks.foldr (fun b line => b.packet.map some ++ line)
    (some rymCodeEot :: some rymCodeEot :: (Block.mk 0 (List.replicate 128 0)).packet.map some)

theorem sessionOn_sentSession {first : Block} {blocks : List Block} (hfirst : first.Sized)
    (hzero : first.number = 0) (hblocks : ∀ b ∈ blocks, b.Sized ∧ b.number ≠ 0) :
    SessionOn 1 (sentSession first blocks) first blocks := by
  have harr : ∀ fresh rest, Arrives fresh
      (blocks.foldr (fun b line => b.packet.map some ++ line) (some rymCodeEot :: rest))
      blocks rest := by
    intro fresh rest
    induction blocks generalizing fresh with
    | nil => exact Arrives.eot rest
    | cons b blocks ih =>
      obtain ⟨hsized, hnumber⟩ := hblocks b List.mem_cons_self
      refine Arrives.block hsized (fun _ => hnumber) ?_
      exact ih (fun b' hb' => hblocks b' (List.mem_cons_of_mem _ hb')) false
  exact ⟨[], _, _, rfl, Nat.one_pos, by simp, hfirst, hzero, harr _ _⟩

/-- `f` with 256 bytes. -/
def namedFile : Block := ⟨0, [102, 0, 50, 53, 54, 0] ++ List.replicate 122 0⟩

/-- A block of one byte. -/
def blockOf (number data : UInt8) : Block := ⟨number, List.replicate 128 data⟩

/-- A receiver that was just started. -/
def receiverOn (line : Line) : RymCtx := ⟨.none, Buffer.fill _ 0, line, [], 0, 0, none⟩

/-- The board's receiver on a session, with nothing going wrong in the flash. -/
def receive (blocks : List Block) : Outcome Halt Board (RymCtx × Option RymErr) :=
  (rymDoRecv falPartTable qbootDownloadPartName 1 1 (receiverOn (sentSession namedFile blocks))).run
    (world falPartTable calmEnv) ⟨fun _ _ => 0, 0, []⟩

/-- A session ended in success, with a size and the flash in a state that `P` accepts. -/
def EndsWith (P : ℕ → Flash → Bool) : Outcome Halt Board (RymCtx × Option RymErr) → Bool
  | .done (ctx', none) s' => P ctx'.updateFileTotalSize s'.flash
  | _ => false

theorem EndsWith.exists_done {P : ℕ → Flash → Bool} {o : Outcome Halt Board (RymCtx × Option RymErr)}
    (h : EndsWith P o = true) :
    ∃ ctx' s', o = .done (ctx', none) s' ∧ P ctx'.updateFileTotalSize s'.flash = true := by
  unfold EndsWith at h
  split at h
  · exact ⟨_, _, rfl, h⟩
  · cases h

set_option maxRecDepth 20000 in
theorem ymodem_stores_twoBlocks : ∃ ctx' s',
    receive [blockOf 1 65, blockOf 2 66] = .done (ctx', none) s' ∧
    ∃ part first blocks, falPartitionFind falPartTable qbootDownloadPartName = some part ∧
      SessionOn 1 (sentSession namedFile [blockOf 1 65, blockOf 2 66]) first blocks ∧
      (∀ n, fileSize first.payload = some n → ctx'.updateFileTotalSize = n) ∧
      (ComeInOrder ctx'.updateFileTotalSize blocks →
        StoredInOrder part s'.flash ctx'.updateFileTotalSize blocks) ∧
      (StoredInOrder part s'.flash ctx'.updateFileTotalSize blocks ↔
        ReadInOrder ctx'.updateFileTotalSize blocks) := by
  have hend : EndsWith (fun _ _ => true) (receive [blockOf 1 65, blockOf 2 66]) = true := by
    decide +kernel
  obtain ⟨ctx', s', hrun, -⟩ := EndsWith.exists_done hend
  exact ⟨ctx', s', hrun, ymodem_stores_iff hrun⟩

/-- The blocks of a sender that lost the acknowledgement of its first block and sends it again. -/
def repeatedBlocks : List Block := [blockOf 1 65, blockOf 1 65, blockOf 2 66]

set_option maxRecDepth 20000 in
/-- The repeated block is stored twice, and pushes the one behind it out of the file. -/
theorem repeatedBlock_storedTwice : ∃ ctx' s' part, receive repeatedBlocks = .done (ctx', none) s' ∧
    SessionOn 1 (sentSession namedFile repeatedBlocks) namedFile repeatedBlocks ∧
    fileSize namedFile.payload = some 256 ∧ ctx'.updateFileTotalSize = 256 ∧
    falPartitionFind falPartTable qbootDownloadPartName = some part ∧
    ¬ StoredInOrder part s'.flash 256 repeatedBlocks := by
  have hend : EndsWith (fun size m => decide (size = 256 ∧ m .nor (0x600000 + 128) = 65))
      (receive repeatedBlocks) = true := by
    decide +kernel
  obtain ⟨ctx', s', hrun, hP⟩ := EndsWith.exists_done hend
  obtain ⟨hsize, hbyte⟩ := of_decide_eq_true hP
  have honly : ∀ bs ∈ repeatedBlocks.sublists, Numbered bs → 256 ≤ (payloads bs).length →
      bs = [blockOf 1 65, blockOf 2 66] := by
    decide +kernel
  refine ⟨ctx', s', ⟨qbootDownloadPartName, .nor, 0x600000, 0x100000⟩, hrun, ?_, by decide +kernel,
    hsize, by decide, ?_⟩
  · refine sessionOn_sentSession (Or.inl rfl) rfl ?_
    unfold Block.Sized
    decide +kernel
  · rintro ⟨bs, hsub, hnum, hlen, hbytes⟩
    rw [honly bs (List.mem_sublists.2 hsub) hnum hlen] at hbytes
    have hsecond := congrArg (fun l => l.getD 128 0) hbytes
    simp only [FalPartition.bytes] at hsecond
    rw [read_getD _ _ _ (by decide)] at hsecond
    have hB : s'.flash .nor (0x600000 + 128) = 66 := hsecond
    rw [hbyte] at hB
    exact absurd hB (by decide)

end RtThreadOta